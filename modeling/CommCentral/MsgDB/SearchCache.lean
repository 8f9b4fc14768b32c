import CommCentral.MsgDB.MsgThread
import CommCentral.Mork.TableOrder
import Mathlib.Data.List.Sort

/-! The table of cached hits of a saved search, and its refresh (`RefreshCache`). -/
namespace CommCentral.MsgDB

open Lib Mork MorkTable List

/-- `PosToOid`, which gives the id -1 where there is no row. -/
def posToOid (table : MorkTable Nat) (pos : Nat) : Nat := table.rowArray.getD pos msgKeyNone

/-- `CutOid`: the row is looked up in the store. -/
def cutOid (hasRow : Nat → Bool) (table : MorkTable Nat) (key : Nat) : MorkTable Nat :=
  if hasRow key then table.cutRow key else table

/-- The loop of `RefreshCache`: the table and `aStaleHits`. `hasRow` tells the rows of the store. -/
def refreshLoop (hasRow : Nat → Bool) (aNewHits : List Nat) : Nat → (table : MorkTable Nat) →
    (newHitIndex tableRowIndex rowCount : Nat) → (aStaleHits : List Nat) →
    Option (MorkTable Nat × List Nat)
  | 0, _, _, _, _, _ => none
  | fuel + 1, table, newHitIndex, tableRowIndex, rowCount, aStaleHits =>
    if newHitIndex < aNewHits.length ∨ tableRowIndex < rowCount then
      let tableRowKey := if tableRowIndex < rowCount then posToOid table tableRowIndex
        else msgKeyNone
      let newHit := aNewHits.getD newHitIndex msgKeyNone
      if newHitIndex < aNewHits.length ∧ newHit = tableRowKey then
        refreshLoop hasRow aNewHits fuel table (newHitIndex + 1) (tableRowIndex + 1) rowCount
          aStaleHits
      else if tableRowIndex ≥ rowCount ∨
          (newHitIndex < aNewHits.length ∧ newHit < tableRowKey) then
        if hasRow newHit then
          refreshLoop hasRow aNewHits fuel
            ((table.addRow newHit).moveRow newHit rowCount tableRowIndex).1
            (newHitIndex + 1) (tableRowIndex + 1) (rowCount + 1) aStaleHits
        else
          refreshLoop hasRow aNewHits fuel table (newHitIndex + 1) tableRowIndex rowCount aStaleHits
      else if newHitIndex ≥ aNewHits.length ∨ newHit > tableRowKey then
        refreshLoop hasRow aNewHits fuel (cutOid hasRow table tableRowKey) newHitIndex tableRowIndex
          (rowCount - 1) (aStaleHits ++ [tableRowKey])
      else refreshLoop hasRow aNewHits fuel table newHitIndex tableRowIndex rowCount aStaleHits
    else some (table, aStaleHits)

def refreshCache (hasRow : Nat → Bool) (fuel : Nat) (table : MorkTable Nat) (aNewHits : List Nat) :
    Option (MorkTable Nat × List Nat) :=
  refreshLoop hasRow aNewHits fuel table 0 0 table.rowArray.length []

/-- The binary search of `FindInsertIndexInSortedTable`. -/
def findInsertIndex (table : MorkTable Nat) (idToInsert : Nat) : Nat → (lo hi : Nat) → Option Nat
  | 0, _, _ => none
  | fuel + 1, lo, hi =>
    if hi > lo then
      let searchPos := (lo + hi - 1) / 2
      let outOid := posToOid table searchPos
      if outOid = idToInsert then some hi
      else if outOid > idToInsert then findInsertIndex table idToInsert fuel lo searchPos
      else findInsertIndex table idToInsert fuel (searchPos + 1) hi
    else some hi

def findInsertIndexInSortedTable (fuel : Nat) (table : MorkTable Nat) (idToInsert : Nat) :
    Option Nat :=
  findInsertIndex table idToInsert fuel 0 table.rowArray.length

def updateHdrInCache (fuel : Nat) (table : MorkTable Nat) (key : Nat) (aAdd : Bool) :
    Option (MorkTable Nat) :=
  if aAdd then
    (findInsertIndexInSortedTable fuel table key).map fun insertPos =>
      let rowCount := table.rowArray.length
      ((table.addRow key).moveRow key rowCount insertPos).1
  else some (table.cutRow key)

lemma toNat_clampPos {rows : List Nat} (some : rows ≠ []) (pos : Nat) :
    (clampPos rows pos).toNat = min pos (rows.length - 1) := by
  have positive := length_pos_iff.mpr some
  rw [clampPos]
  split
  · omega
  · split
    · omega
    · omega

lemma moveTo_concat {rows : List Nat} (absent : row ∉ rows) (pos : Nat) :
    moveTo (rows ++ [row]) row pos = rows.insertIdx (min pos rows.length) row := by
  have found : (rows ++ [row]).idxOf? row = some rows.length := by
    refine idxOf?_eq_some_iff.mpr ⟨?_, ?_, ?_⟩
    · rw [length_append]
      exact Nat.lt_succ_self _
    · exact getElem_concat_length rfl _
    · intro other before
      rw [getElem_append_left before]
      exact fun same => absent (same ▸ getElem_mem before)
  have clamped : (clampPos (rows ++ [row]) pos).toNat = min pos rows.length := by
    rw [toNat_clampPos (concat_ne_nil row rows), length_append]
    rfl
  rw [moveTo, found]
  dsimp only
  rw [clamped]
  split
  · rename_i same
    rw [← same, insertIdx_length_self]
  · rw [moveSlot, eraseIdx_append_of_length_le (Nat.le_refl _), Nat.sub_self]
    rw [eraseIdx_cons_zero, append_nil]

lemma addAndMove_rows {table : MorkTable Nat} (valid : table.Valid) {before after : List Nat}
    (rows : table.rowArray = before ++ after) (absent : row ∉ table.rowArray) (hint : Int)
    (place : min pos (before ++ after).length = before.length) :
    ((table.addRow row).moveRow row hint pos).1.rowArray = before ++ row :: after := by
  rw [rowArray_moveRow (valid_addRow valid row), rowArray_addRow valid, addTo, if_neg absent,
    moveTo_concat absent, rows, place, insertIdx_append]

/-- The loop of `RefreshCache` under way: the rows `done` are as they will be, the new hits `hits`
and the old rows `rest` are to be compared. -/
structure Refreshing (hasRow : Nat → Bool) (aNewHits : List Nat) (table : MorkTable Nat)
    (newHitIndex tableRowIndex rowCount : Nat) (done hits rest : List Nat) : Prop where
  remaining : aNewHits.drop newHitIndex = hits
  rows : table.rowArray = done ++ rest
  valid : table.Valid
  place : rest ≠ [] → tableRowIndex = done.length
  passed : done.length ≤ tableRowIndex
  count : rowCount = done.length + rest.length
  hitsSorted : hits.Pairwise (· < ·)
  rowsSorted : (done ++ rest).Pairwise (· < ·)
  below : ∀ row ∈ done, ∀ hit ∈ hits, row < hit
  stored : ∀ row ∈ rest, hasRow row = true

namespace Refreshing

variable {hasRow : Nat → Bool}
variable {newHitIndex tableRowIndex rowCount hit row : Nat} {done hits rest : List Nat}

lemma hitIndex (state : Refreshing hasRow aNewHits table newHitIndex tableRowIndex rowCount done
    (hit :: hits) rest) : newHitIndex < aNewHits.length ∧
      aNewHits.getD newHitIndex msgKeyNone = hit ∧ aNewHits.drop (newHitIndex + 1) = hits := by
  have inside : newHitIndex < aNewHits.length := by
    by_contra outside
    have nothing := drop_eq_nil_of_le (Nat.not_lt.mp outside)
    exact cons_ne_nil _ _ (state.remaining.symm.trans nothing)
  have split := state.remaining
  rw [drop_eq_getElem_cons inside] at split
  obtain ⟨first, later⟩ := cons_eq_cons.mp split
  exact ⟨inside, (getD_eq_getElem _ _ inside).trans first, later⟩

lemma noHits (state : Refreshing hasRow aNewHits table newHitIndex tableRowIndex rowCount done []
    rest) : aNewHits.length ≤ newHitIndex :=
  drop_eq_nil_iff.mp state.remaining

lemma noRows (state : Refreshing hasRow aNewHits table newHitIndex tableRowIndex rowCount done
    hits []) : rowCount ≤ tableRowIndex := by
  have count := state.count
  rw [length_nil] at count
  have passed := state.passed
  omega

lemma rowIndex (state : Refreshing hasRow aNewHits table newHitIndex tableRowIndex rowCount done
    hits (row :: rest)) : tableRowIndex = done.length ∧ tableRowIndex < rowCount ∧
      posToOid table tableRowIndex = row := by
  have place := state.place (cons_ne_nil _ _)
  have count := state.count
  rw [length_cons] at count
  refine ⟨place, by omega, ?_⟩
  rw [posToOid, state.rows, place, getD_append_right _ _ _ _ (Nat.le_refl _), Nat.sub_self]
  rfl

section

variable
  (state : Refreshing hasRow aNewHits table newHitIndex tableRowIndex rowCount done (hit :: hits) rest)
include state

/-- A hit that has no row is passed over; with no old row left the row index may go on. -/
theorem skip (place : rest ≠ [] → tableRowIndex' = tableRowIndex)
    (passed : tableRowIndex ≤ tableRowIndex') :
    Refreshing hasRow aNewHits table (newHitIndex + 1) tableRowIndex' rowCount done hits rest where
  remaining := state.hitIndex.2.2
  rows := state.rows
  valid := state.valid
  place := fun some => (place some).trans (state.place some)
  passed := Nat.le_trans state.passed passed
  count := state.count
  hitsSorted := state.hitsSorted.of_cons
  rowsSorted := state.rowsSorted
  below := fun row inDone hit inHits => state.below row inDone hit (mem_cons_of_mem _ inHits)
  stored := state.stored

lemma below_concat : ∀ row ∈ done ++ [hit], ∀ other ∈ hits, row < other := by
  intro row mem other inHits
  rcases mem_append.mp mem with inDone | isHit
  · exact state.below row inDone other (mem_cons_of_mem _ inHits)
  · rw [mem_singleton.mp isHit]
    exact rel_of_pairwise_cons state.hitsSorted inHits

end

lemma keep (state : Refreshing hasRow aNewHits table newHitIndex tableRowIndex rowCount done
    (hit :: hits) (hit :: rest)) :
    Refreshing hasRow aNewHits table (newHitIndex + 1) (tableRowIndex + 1) rowCount (done ++ [hit])
      hits rest := by
  obtain ⟨place, _, _⟩ := state.rowIndex
  have count := state.count
  rw [length_cons] at count
  constructor
  · exact state.hitIndex.2.2
  · rw [append_assoc]
    exact state.rows
  · exact state.valid
  · intro _
    rw [length_append, place]
    rfl
  · rw [length_append, place]
    exact Nat.le_refl _
  · rw [length_append, length_singleton]
    omega
  · exact state.hitsSorted.of_cons
  · rw [append_assoc]
    exact state.rowsSorted
  · exact state.below_concat
  · exact fun row inRest => state.stored row (mem_cons_of_mem _ inRest)

/-- A hit that stands before the next old row is added. -/
theorem add (state : Refreshing hasRow aNewHits table newHitIndex tableRowIndex rowCount done
    (hit :: hits) rest) (first : ∀ row ∈ rest, hit < row) (hint : Int) :
    Refreshing hasRow aNewHits ((table.addRow hit).moveRow hit hint tableRowIndex).1
      (newHitIndex + 1) (tableRowIndex + 1) (rowCount + 1) (done ++ [hit]) hits rest := by
  have absent : hit ∉ done ++ rest := by
    intro mem
    rcases mem_append.mp mem with inDone | inRest
    · exact Nat.lt_irrefl _ (state.below hit inDone hit mem_cons_self)
    · exact Nat.lt_irrefl _ (first hit inRest)
  have place : min tableRowIndex (done ++ rest).length = done.length := by
    rw [length_append]
    have passed := state.passed
    cases isRest : rest with
    | nil =>
      rw [length_nil]
      omega
    | cons row later =>
      have exact_ := state.place (isRest ▸ cons_ne_nil _ _)
      omega
  have count := state.count
  have passed := state.passed
  constructor
  · exact state.hitIndex.2.2
  · rw [addAndMove_rows state.valid state.rows (state.rows ▸ absent) hint place, append_assoc]
    rfl
  · exact valid_moveRow (valid_addRow state.valid hit) hit hint tableRowIndex
  · intro some
    rw [length_append, state.place some]
    rfl
  · rw [length_append, length_singleton]
    omega
  · rw [length_append, length_singleton]
    omega
  · exact state.hitsSorted.of_cons
  · obtain ⟨doneSorted, restSorted, across⟩ := pairwise_append.mp state.rowsSorted
    rw [append_assoc]
    refine pairwise_append.mpr ⟨doneSorted, pairwise_cons.mpr ⟨first, restSorted⟩, ?_⟩
    intro row inDone other mem
    rcases mem_cons.mp mem with isHit | inRest
    · rw [isHit]
      exact state.below row inDone hit mem_cons_self
    · exact across row inDone other inRest
  · exact state.below_concat
  · exact state.stored

lemma cut (state : Refreshing hasRow aNewHits table newHitIndex tableRowIndex rowCount done
    hits (row :: rest)) :
    Refreshing hasRow aNewHits (cutOid hasRow table row) newHitIndex tableRowIndex (rowCount - 1)
      done hits rest := by
  have notDone : row ∉ done := by
    intro inDone
    exact Nat.lt_irrefl _ ((pairwise_append.mp state.rowsSorted).2.2 row inDone row
      mem_cons_self)
  have count := state.count
  rw [length_cons] at count
  rw [cutOid, if_pos (state.stored row mem_cons_self)]
  constructor
  · exact state.remaining
  · rw [rowArray_cutRow state.valid, state.rows, erase_append_right _ notDone,
      erase_cons_head]
  · exact valid_cutRow state.valid row
  · exact fun _ => state.rowIndex.1
  · exact state.passed
  · omega
  · exact state.hitsSorted
  · exact state.rowsSorted.sublist ((sublist_cons_self _ _).append_left _)
  · exact state.below
  · exact fun other inRest => state.stored other (mem_cons_of_mem _ inRest)

end Refreshing

def staleRows (hits rows : List Nat) : List Nat := rows.filter (· ∉ hits)

lemma staleRows_cons_stale (stale : row ∉ hits) (rest) :
    staleRows hits (row :: rest) = row :: staleRows hits rest :=
  filter_cons_of_pos (decide_eq_true stale)

lemma staleRows_cons_hit (isHit : row ∈ hits) (rest) :
    staleRows hits (row :: rest) = staleRows hits rest :=
  filter_cons_of_neg fun notHit => (of_decide_eq_true notHit : _ ∉ _) isHit

lemma staleRows_hits_cons {hit : Nat} (first : ∀ row ∈ rest, hit < row) (hits) :
    staleRows (hit :: hits) rest = staleRows hits rest := by
  apply filter_congr
  intro row mem
  have different : row ≠ hit := Nat.ne_of_gt (first row mem)
  rw [decide_eq_decide, mem_cons, not_or]
  exact and_iff_right different

/-- A run of the loop ends with the hits that have a row behind the rows `done`. -/
def RefreshEnds (hasRow : Nat → Bool) (run : Option (MorkTable Nat × List Nat))
    (stale done hits : List Nat) : Prop :=
  ∃ after, run = some (after, stale) ∧ after.rowArray = done ++ hits.filter hasRow ∧ after.Valid

namespace RefreshEnds

variable {hasRow : Nat → Bool} {run : Option (MorkTable Nat × List Nat)}
variable {stale done hits : List Nat} {hit : Nat}

lemma of_row (isRow : hasRow hit = true)
    (ends : RefreshEnds hasRow run stale (done ++ [hit]) hits) :
    RefreshEnds hasRow run stale done (hit :: hits) := by
  obtain ⟨after, ran, rows, valid⟩ := ends
  refine ⟨after, ran, ?_, valid⟩
  rw [rows, filter_cons_of_pos isRow, append_assoc]
  rfl

lemma of_noRow (noRow : hasRow hit = false) (ends : RefreshEnds hasRow run stale done hits) :
    RefreshEnds hasRow run stale done (hit :: hits) := by
  obtain ⟨after, ran, rows, valid⟩ := ends
  refine ⟨after, ran, ?_, valid⟩
  rw [filter_cons_of_neg (by rw [noRow]; decide)]
  exact rows

lemma newHit (added : RefreshEnds hasRow addRun stale (done ++ [hit]) hits)
    (skipped : RefreshEnds hasRow skipRun stale done hits) :
    RefreshEnds hasRow (if hasRow hit then addRun else skipRun) stale done (hit :: hits) := by
  cases isRow : hasRow hit with
  | true => exact added.of_row isRow
  | false => exact skipped.of_noRow isRow

end RefreshEnds

lemma refreshLoop_spec {hasRow : Nat → Bool} (noNone : hasRow msgKeyNone = false)
    {done hits rest : List Nat}
    (state : Refreshing hasRow aNewHits table newHitIndex tableRowIndex rowCount done hits rest)
    (enough : hits.length + rest.length < fuel) (aStaleHits : List Nat) :
    RefreshEnds hasRow
      (refreshLoop hasRow aNewHits fuel table newHitIndex tableRowIndex rowCount aStaleHits)
      (aStaleHits ++ staleRows hits rest) done hits := by
  induction fuel generalizing table newHitIndex tableRowIndex rowCount done hits rest aStaleHits with
  | zero => exact absurd enough (Nat.not_lt_zero _)
  | succ fuel ih =>
    rw [refreshLoop]
    cases hits with
    | nil =>
      have noHits := state.noHits
      cases rest with
      | nil =>
        have noRows := state.noRows
        rw [if_neg (by omega)]
        refine ⟨table, ?_, state.rows, state.valid⟩
        rw [staleRows, filter_nil, append_nil]
      | cons row rest =>
        obtain ⟨_, inside, isRow⟩ := state.rowIndex
        rw [if_pos (.inr inside)]
        dsimp only
        rw [if_pos inside, isRow, if_neg (fun hit => by omega), if_neg (fun hit => by omega),
          if_pos (.inl noHits), staleRows_cons_stale not_mem_nil,
          append_cons aStaleHits row (staleRows [] rest)]
        exact ih state.cut (Nat.lt_of_succ_lt_succ enough) _
    | cons hit hits =>
      obtain ⟨moreHits, isHit, _⟩ := state.hitIndex
      have enough' : hits.length + rest.length < fuel := by
        rw [length_cons] at enough
        omega
      rw [if_pos (.inl moreHits)]
      dsimp only
      rw [isHit]
      cases rest with
      | nil =>
        have noRows := state.noRows
        rw [if_neg (Nat.not_lt.mpr noRows)]
        by_cases isNone : hit = msgKeyNone
        · -- the key that stands for the end of the rows is taken for a row
          rw [if_pos ⟨moreHits, isNone⟩]
          apply RefreshEnds.of_noRow (isNone ▸ noNone)
          exact ih (state.skip (fun some => absurd rfl some) (Nat.le_succ tableRowIndex)) enough' _
        · rw [if_neg (fun same => isNone same.2), if_pos (.inl noRows)]
          have first : ∀ row ∈ ([] : List Nat), hit < row := nofun
          apply RefreshEnds.newHit
          · exact ih (state.add first rowCount) enough' _
          · exact ih (state.skip (fun _ => rfl) (Nat.le_refl _)) enough' _
      | cons row rest =>
        obtain ⟨_, inside, isRowKey⟩ := state.rowIndex
        have rowFirst : ∀ other ∈ rest, row < other := fun other mem =>
          rel_of_pairwise_cons (pairwise_append.mp state.rowsSorted).2.1 mem
        rw [if_pos inside, isRowKey]
        rcases Nat.lt_trichotomy hit row with before | same | beyond
        · have first : ∀ other ∈ row :: rest, hit < other :=
            forall_mem_cons.mpr ⟨before, fun other mem => Nat.lt_trans before (rowFirst other mem)⟩
          rw [if_neg (fun same => Nat.ne_of_lt before same.2), if_pos (.inr ⟨moreHits, before⟩),
            staleRows_hits_cons first]
          apply RefreshEnds.newHit
          · exact ih (state.add first rowCount) enough' _
          · exact ih (state.skip (fun _ => rfl) (Nat.le_refl _)) enough' _
        · subst same
          rw [if_pos ⟨moreHits, rfl⟩, staleRows_cons_hit mem_cons_self,
            staleRows_hits_cons rowFirst]
          apply RefreshEnds.of_row (state.stored hit mem_cons_self)
          rw [length_cons] at enough'
          exact ih state.keep (Nat.lt_of_succ_lt enough') _
        · have stale : row ∉ hit :: hits := by
            intro mem
            rcases mem_cons.mp mem with isHit | inHits
            · exact Nat.ne_of_lt beyond isHit
            · exact Nat.lt_asymm beyond (rel_of_pairwise_cons state.hitsSorted inHits)
          have notNext :
              ¬ (tableRowIndex ≥ rowCount ∨ newHitIndex < aNewHits.length ∧ hit < row) := by
            omega
          rw [if_neg (fun same => Nat.ne_of_gt beyond same.2), if_neg notNext,
            if_pos (.inr beyond), staleRows_cons_stale stale,
            append_cons aStaleHits row (staleRows (hit :: hits) rest)]
          exact ih state.cut (Nat.lt_of_succ_lt_succ enough) _

lemma refreshCache_spec {hasRow : Nat → Bool} (noNone : hasRow msgKeyNone = false)
    (valid : table.Valid) (sorted : table.rowArray.Pairwise (· < ·))
    (stored : ∀ row ∈ table.rowArray, hasRow row = true) (hitsSorted : aNewHits.Pairwise (· < ·))
    (enough : aNewHits.length + table.rowArray.length < fuel) :
    ∃ after, refreshCache hasRow fuel table aNewHits =
        some (after, staleRows aNewHits table.rowArray) ∧
      after.rowArray = aNewHits.filter hasRow ∧ after.Valid := by
  have start : Refreshing hasRow aNewHits table 0 0 table.rowArray.length [] aNewHits
      table.rowArray := by
    refine ⟨rfl, rfl, valid, fun _ => rfl, Nat.le_refl _, ?_, hitsSorted, sorted, ?_, stored⟩
    · rw [length_nil, Nat.zero_add]
    · exact nofun
  exact refreshLoop_spec noNone start enough []

end CommCentral.MsgDB
