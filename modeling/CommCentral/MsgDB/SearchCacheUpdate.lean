import CommCentral.MsgDB.SearchCache

/-! Single headers in the table of cached hits (`UpdateHdrInCache`). -/
namespace CommCentral.MsgDB

open Lib Mork MorkTable List

lemma posToOid_eq (inside : pos < table.rowArray.length) :
    posToOid table pos = table.rowArray[pos] :=
  getD_eq_getElem _ _ inside

lemma posToOid_lt (sorted : table.rowArray.Pairwise (· < ·)) (before : first < second)
    (inside : second < table.rowArray.length) : posToOid table first < posToOid table second := by
  rw [posToOid_eq inside, posToOid_eq (Nat.lt_trans before inside)]
  exact pairwise_iff_getElem.mp sorted first second _ inside before

/-- The search ends at a position from which on all keys are greater; before it all are less, unless
the key is in the table. -/
theorem findInsertIndex_spec (sorted : table.rowArray.Pairwise (· < ·)) (key : Nat)
    (enough : hi - lo < fuel) (ordered : lo ≤ hi) (inside : hi ≤ table.rowArray.length)
    (less : ∀ pos < lo, posToOid table pos < key)
    (greater : ∀ pos, hi ≤ pos → pos < table.rowArray.length → key < posToOid table pos) :
    ∃ insertPos, findInsertIndex table key fuel lo hi = some insertPos ∧
      insertPos ≤ table.rowArray.length ∧
      (∀ pos, insertPos ≤ pos → pos < table.rowArray.length → key < posToOid table pos) ∧
      (key ∉ table.rowArray → ∀ pos < insertPos, posToOid table pos < key) := by
  induction fuel generalizing lo hi with
  | zero => exact absurd enough (Nat.not_lt_zero _)
  | succ fuel ih =>
    rw [findInsertIndex]
    by_cases more : hi > lo
    · rw [if_pos more]
      dsimp only
      have searchPos : lo ≤ (lo + hi - 1) / 2 ∧ (lo + hi - 1) / 2 < hi := by omega
      generalize (lo + hi - 1) / 2 = mid at searchPos
      obtain ⟨above, below⟩ := searchPos
      have midInside : mid < table.rowArray.length := Nat.lt_of_lt_of_le below inside
      by_cases present : posToOid table mid = key
      · rw [if_pos present]
        refine ⟨hi, rfl, inside, greater, ?_⟩
        intro absent
        rw [posToOid_eq midInside] at present
        exact absurd (present ▸ getElem_mem midInside) absent
      · rw [if_neg present]
        by_cases beyond : posToOid table mid > key
        · rw [if_pos beyond]
          refine ih (by omega) above (Nat.le_of_lt midInside) less ?_
          intro pos from_ within
          rcases Nat.eq_or_lt_of_le from_ with same | later
          · rw [← same]
            exact beyond
          · exact Nat.lt_trans beyond (posToOid_lt sorted later within)
        · rw [if_neg beyond]
          have lessThan : posToOid table mid < key := by omega
          refine ih (by omega) below inside ?_ greater
          intro pos before
          rcases Nat.eq_or_lt_of_le (Nat.le_of_lt_succ before) with same | earlier
          · rw [same]
            exact lessThan
          · exact Nat.lt_trans (posToOid_lt sorted earlier midInside) lessThan
    · rw [if_neg more]
      refine ⟨hi, rfl, inside, greater, fun _ pos before => less pos (by omega)⟩

/-- The rows are in order, and the key was added to them or removed. -/
structure Updated (table after : MorkTable Nat) (key : Nat) (aAdd : Bool) : Prop where
  sorted : after.rowArray.Pairwise (· < ·)
  rows : ∀ row, row ∈ after.rowArray ↔
    if aAdd then row = key ∨ row ∈ table.rowArray else row ≠ key ∧ row ∈ table.rowArray

lemma updated_cut (valid : table.Valid)
    (sorted : table.rowArray.Pairwise (· < ·)) (key : Nat) :
    Updated table (table.cutRow key) key false := by
  constructor
  · rw [rowArray_cutRow valid]
    exact sorted.sublist erase_sublist
  · intro row
    rw [rowArray_cutRow valid, valid.nodup.mem_erase_iff]
    exact Iff.rfl

lemma updated_new (valid : table.Valid) (sorted : table.rowArray.Pairwise (· < ·))
    (absent : key ∉ table.rowArray) (inside : insertPos ≤ table.rowArray.length)
    (less : ∀ pos < insertPos, posToOid table pos < key)
    (greater : ∀ pos, insertPos ≤ pos → pos < table.rowArray.length → key < posToOid table pos)
    (hint : Int) : Updated table ((table.addRow key).moveRow key hint insertPos).1 key true := by
  have split : table.rowArray = table.rowArray.take insertPos ++ table.rowArray.drop insertPos :=
    (take_append_drop insertPos table.rowArray).symm
  have taken : (table.rowArray.take insertPos).length = insertPos := length_take_of_le inside
  have place : min insertPos (table.rowArray.take insertPos ++ table.rowArray.drop insertPos).length =
      (table.rowArray.take insertPos).length := by
    rw [← split, taken, Nat.min_eq_left inside]
  have rows := addAndMove_rows valid split absent hint place
  have before : ∀ row ∈ table.rowArray.take insertPos, row < key := by
    intro row mem
    obtain ⟨pos, within, rfl⟩ := mem_iff_getElem.mp mem
    rw [taken] at within
    rw [getElem_take, ← posToOid_eq (Nat.lt_of_lt_of_le within inside)]
    exact less pos within
  have after : ∀ row ∈ table.rowArray.drop insertPos, key < row := by
    intro row mem
    obtain ⟨pos, within, rfl⟩ := mem_iff_getElem.mp mem
    rw [length_drop] at within
    rw [getElem_drop, ← posToOid_eq (by omega)]
    exact greater _ (Nat.le_add_right _ _) (by omega)
  rw [split] at sorted
  obtain ⟨beforeSorted, afterSorted, across⟩ := pairwise_append.mp sorted
  constructor
  · rw [rows]
    refine pairwise_append.mpr ⟨beforeSorted, pairwise_cons.mpr ⟨after, afterSorted⟩, ?_⟩
    intro row inBefore other mem
    rcases mem_cons.mp mem with isKey | inAfter
    · rw [isKey]
      exact before row inBefore
    · exact across row inBefore other inAfter
  · intro row
    have mem : row ∈ table.rowArray ↔ row ∈ table.rowArray.take insertPos ∨
        row ∈ table.rowArray.drop insertPos := by
      rw [← mem_append, ← split]
    rw [rows, if_pos rfl, mem, mem_append, mem_cons]
    tauto

lemma updated_present_iff (valid : table.Valid) (sorted : table.rowArray.Pairwise (· < ·))
    (present : key ∈ table.rowArray) (inside : insertPos ≤ table.rowArray.length)
    (greater : ∀ pos, insertPos ≤ pos → pos < table.rowArray.length → key < posToOid table pos)
    (hint : Int) : Updated table ((table.addRow key).moveRow key hint insertPos).1 key true ↔
      table.rowArray.getLast? = some key := by
  have rows : ((table.addRow key).moveRow key hint insertPos).1.rowArray =
      moveTo table.rowArray key insertPos := by
    rw [rowArray_moveRow (valid_addRow valid key), rowArray_addRow valid, addTo, if_pos present]
  have members : ∀ row, row ∈ moveTo table.rowArray key insertPos ↔
      if true then row = key ∨ row ∈ table.rowArray else row ≠ key ∧ row ∈ table.rowArray := by
    intro row
    rw [if_pos rfl, (moveTo_perm table.rowArray key insertPos).mem_iff]
    exact ⟨.inr, fun either => either.elim (fun isKey => isKey ▸ present) id⟩
  have updated : Updated table ((table.addRow key).moveRow key hint insertPos).1 key true ↔
      (moveTo table.rowArray key insertPos).Pairwise (· < ·) := by
    constructor
    · exact fun after => rows ▸ after.sorted
    · exact fun after => ⟨rows.symm ▸ after, rows.symm ▸ members⟩
  rw [updated, getLast?_eq_getElem?]
  cases found : table.rowArray.idxOf? key with
  | none => exact absurd present (idxOf?_eq_none_iff.mp found)
  | some pos =>
    obtain ⟨within, isKey, _⟩ := idxOf?_eq_some_iff.mp found
    have before : pos < insertPos := by
      by_contra notBefore
      have less := greater pos (Nat.not_lt.mp notBefore) within
      rw [posToOid_eq within, isKey] at less
      exact Nat.lt_irrefl _ less
    have moved : moveTo table.rowArray key insertPos =
        if pos = min insertPos (table.rowArray.length - 1) then table.rowArray
        else moveSlot table.rowArray pos (min insertPos (table.rowArray.length - 1)) key := by
      rw [moveTo, found]
      dsimp only
      rw [toNat_clampPos (ne_nil_of_mem present)]
    rw [moved]
    by_cases last : pos = table.rowArray.length - 1
    · rw [if_pos (by omega), ← last, getElem?_eq_getElem within, isKey]
      exact ⟨fun _ => rfl, fun _ => sorted⟩
    · -- the key goes up, away from its only place in the order
      have target : min insertPos (table.rowArray.length - 1) < table.rowArray.length ∧
          pos < min insertPos (table.rowArray.length - 1) := by omega
      generalize min insertPos (table.rowArray.length - 1) = toSlot at target
      obtain ⟨targetInside, above⟩ := target
      rw [if_neg (Nat.ne_of_lt above)]
      constructor
      · intro after
        have perm := moveSlot_perm table.rowArray pos toSlot key
          (List.getElem?_eq_some_iff.mpr ⟨within, isKey⟩) targetInside
        have same := perm.eq_of_pairwise'  after sorted
        have atTarget : (moveSlot table.rowArray pos toSlot key)[toSlot]? = some key := by
          rw [moveSlot, getElem?_insertIdx_self, if_pos]
          rw [length_eraseIdx_of_lt within]
          omega
        rw [same] at atTarget
        obtain ⟨_, atTarget⟩ := List.getElem?_eq_some_iff.mp atTarget
        have equal := (valid.nodup.getElem_inj_iff).mp (isKey.trans atTarget.symm)
        exact absurd equal (Nat.ne_of_lt above)
      · intro isLast
        obtain ⟨_, isLast⟩ := List.getElem?_eq_some_iff.mp isLast
        exact absurd ((valid.nodup.getElem_inj_iff).mp (isKey.trans isLast.symm)) last

lemma updateHdrInCache_iff (valid : table.Valid) (sorted : table.rowArray.Pairwise (· < ·))
    (key : Nat) (aAdd : Bool) (enough : table.rowArray.length < fuel) :
    ∃ after, updateHdrInCache fuel table key aAdd = some after ∧
      (Updated table after key aAdd ↔
        aAdd = false ∨ key ∉ table.rowArray ∨ table.rowArray.getLast? = some key) := by
  cases aAdd with
  | false => exact ⟨_, rfl, fun _ => .inl rfl, fun _ => updated_cut valid sorted key⟩
  | true =>
    obtain ⟨insertPos, searched, inside, greater, less⟩ := findInsertIndex_spec sorted key
      enough (Nat.zero_le _) (Nat.le_refl _) (fun _ before => absurd before (Nat.not_lt_zero _))
      (fun _ from_ within => absurd within (Nat.not_lt.mpr from_))
    refine ⟨((table.addRow key).moveRow key table.rowArray.length insertPos).1, ?_, ?_⟩
    · rw [updateHdrInCache, if_pos rfl, findInsertIndexInSortedTable, searched]
      rfl
    · by_cases present : key ∈ table.rowArray
      · rw [updated_present_iff valid sorted present inside greater]
        exact ⟨fun last => .inr (.inr last), fun either =>
          (either.resolve_left Bool.true_eq_false.mp).resolve_left (not_not_intro present)⟩
      · exact ⟨fun _ => .inr (.inl present), fun _ =>
          updated_new valid sorted present inside (less present) greater _⟩

/-- A saved search's table of hits stays in order: a refresh makes it the hits that have a row, and
an update is right exactly for a header that is removed, new, or the last one. -/
theorem searchCache_iff {hasRow : Nat → Bool} (noNone : hasRow msgKeyNone = false)
    {table : MorkTable Nat} (valid : table.Valid) (sorted : table.rowArray.Pairwise (· < ·))
    (stored : ∀ row ∈ table.rowArray, hasRow row = true) :
    (∀ aNewHits : List Nat, aNewHits.Pairwise (· < ·) → ∃ fuel after,
      refreshCache hasRow fuel table aNewHits =
          some (after, table.rowArray.filter (· ∉ aNewHits)) ∧
        after.rowArray.Pairwise (· < ·) ∧
        ∀ row, row ∈ after.rowArray ↔ row ∈ aNewHits ∧ hasRow row = true) ∧
    ∀ key aAdd, ∃ fuel after, updateHdrInCache fuel table key aAdd = some after ∧
      (Updated table after key aAdd ↔
        aAdd = false ∨ key ∉ table.rowArray ∨ table.rowArray.getLast? = some key) := by
  constructor
  · intro aNewHits hitsSorted
    obtain ⟨after, ran, rows, _⟩ := refreshCache_spec noNone valid sorted stored hitsSorted
      (Nat.lt_succ_self _)
    refine ⟨_, after, ran, ?_, ?_⟩
    · rw [rows]
      exact hitsSorted.filter _
    · intro row
      rw [rows, mem_filter]
  · intro key aAdd
    obtain ⟨after, spec⟩ := updateHdrInCache_iff valid sorted key aAdd (Nat.lt_succ_self _)
    exact ⟨_, after, spec⟩

def threeHits : MorkTable Nat := ⟨[2, 5, 7], none, [], 0, 0, false, true, false⟩

/-- A refresh of these hits, and an update with a new header. -/
theorem searchCache_threeHits :
    (∃ fuel after, refreshCache (· < 10) fuel threeHits [2, 6, 7, 11] =
        some (after, [2, 5, 7].filter (· ∉ [2, 6, 7, 11])) ∧
      after.rowArray.Pairwise (· < ·) ∧
      ∀ row, row ∈ after.rowArray ↔ row ∈ [2, 6, 7, 11] ∧ decide (row < 10) = true) ∧
    ∃ fuel after, updateHdrInCache fuel threeHits 6 true = some after ∧
      (Updated threeHits after 6 true ↔
        true = false ∨ 6 ∉ threeHits.rowArray ∨ threeHits.rowArray.getLast? = some 6) := by
  have noNone : decide (msgKeyNone < 10) = false := by decide
  have valid : threeHits.Valid := ⟨by decide, nofun, nofun⟩
  have both := @searchCache_iff (fun row => decide (row < 10)) noNone threeHits valid (by decide)
    (by decide)
  exact ⟨both.1 [2, 6, 7, 11] (by decide), both.2 6 true⟩

/-- The first hit is added again: it gets behind the second. -/
theorem updateHdrInCache_again :
    (updateHdrInCache 4 threeHits 2 true).map MorkTable.rowArray = some [5, 2, 7] ∧
      ¬ ∃ after, updateHdrInCache 4 threeHits 2 true = some after ∧ Updated threeHits after 2 true := by
  have rows : (updateHdrInCache 4 threeHits 2 true).map MorkTable.rowArray = some [5, 2, 7] := by
    decide
  refine ⟨rows, ?_⟩
  rintro ⟨after, ran, updated⟩
  rw [ran, Option.map_some, Option.some.injEq] at rows
  have sorted := updated.sorted
  rw [rows] at sorted
  exact absurd sorted (by decide)

end CommCentral.MsgDB
