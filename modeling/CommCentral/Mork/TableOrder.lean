import CommCentral.Mork.Table
import Mathlib.Data.List.Nodup

/-! What the row operations do to the row order of a well formed table. -/
namespace CommCentral.Mork
open Lib List

universe u

variable {Row : Type u} [DecidableEq Row]

def addTo (rows : List Row) (row : Row) : List Row := if row ∈ rows then rows else rows ++ [row]

/-- The row is put at `pos`, or at the nearest position of the order. -/
def moveTo (rows : List Row) (row : Row) (pos : Int) : List Row :=
  match rows.idxOf? row with
  | none => rows
  | some fromSlot =>
    let toSlot := (MorkTable.clampPos rows pos).toNat
    if fromSlot = toSlot then rows else moveSlot rows fromSlot toSlot row

/-- The effect that a noted change stands for; a moved row is added if need be. -/
def applyChange (rows : List Row) (change : TableChange Row) : List Row :=
  if change.pos = tableChangeAdd then addTo rows change.row
  else if change.pos = tableChangeCut then rows.erase change.row
  else if change.pos ≥ 0 then moveTo (addTo rows change.row) change.row change.pos
  else rows

namespace MorkTable

/-- No row stands in the array twice, and the row map holds the rows of the array. -/
structure Valid (table : MorkTable Row) : Prop where
  nodup : table.rowArray.Nodup
  mapNodup : ∀ map, table.rowMap = some map → map.Nodup
  mapped : ∀ map, table.rowMap = some map → ∀ row, row ∈ map ↔ row ∈ table.rowArray

lemma findMemberRow_iff {table : MorkTable Row} (valid : table.Valid) (row : Row) :
    table.findMemberRow row = true ↔ row ∈ table.rowArray := by
  unfold findMemberRow
  split
  · rename_i map present
    rw [decide_eq_true_iff]
    exact valid.mapped map present row
  · rw [decide_eq_true_iff]

/-! Noting a change and getting dirty leave the rows alone. -/

omit [DecidableEq Row] in
@[simp] lemma rowArray_noteChange (table : MorkTable Row) (change : TableChange Row) :
    (table.noteChange change).rowArray = table.rowArray := by
  unfold noteChange noteTableSetAll
  split
  · rfl
  · rfl

omit [DecidableEq Row] in
@[simp] lemma rowMap_noteChange (table : MorkTable Row) (change : TableChange Row) :
    (table.noteChange change).rowMap = table.rowMap := by
  unfold noteChange noteTableSetAll
  split
  · rfl
  · rfl

omit [DecidableEq Row] in
lemma dirtyOnce_frame (table : MorkTable Row) :
    table.dirtyOnce.1.rowArray = table.rowArray ∧ table.dirtyOnce.1.rowMap = table.rowMap ∧
      table.dirtyOnce.1.changeList = table.changeList ∧
      table.dirtyOnce.1.rewrite = table.rewrite ∧
      table.dirtyOnce.1.spaceCanDirty = table.spaceCanDirty := by
  unfold dirtyOnce maybeDirty
  split
  · split
    · exact ⟨rfl, rfl, rfl, rfl, rfl⟩
    · exact ⟨rfl, rfl, rfl, rfl, rfl⟩
  · exact ⟨rfl, rfl, rfl, rfl, rfl⟩

lemma mem_mapAddRow (map) (row other : Row) :
    other ∈ mapAddRow map row ↔ other ∈ map ∨ other = row := by
  unfold mapAddRow
  split
  · rename_i present
    constructor
    · exact .inl
    · rintro (mem | rfl)
      · exact mem
      · exact present
  · rw [mem_cons, or_comm]

lemma mapAddRow_nodup (map) (row : Row) (nodup : map.Nodup) : (mapAddRow map row).Nodup := by
  unfold mapAddRow
  split
  · exact nodup
  · rename_i absent
    exact nodup_cons.mpr ⟨absent, nodup⟩

private lemma buildRowMap_spec (rows start : List Row) (nodup : start.Nodup) :
    (rows.foldl mapAddRow start).Nodup ∧
      ∀ row, row ∈ rows.foldl mapAddRow start ↔ row ∈ start ∨ row ∈ rows := by
  induction rows generalizing start with
  | nil => exact ⟨nodup, fun row => by simp⟩
  | cons head rest ih =>
    obtain ⟨nodup', members⟩ := ih (mapAddRow start head) (mapAddRow_nodup start head nodup)
    refine ⟨nodup', fun row => ?_⟩
    rw [foldl_cons, members, mem_mapAddRow, mem_cons, or_assoc]

private lemma addRow_new (table : MorkTable Row) (row : Row)
    (absent : table.findMemberRow row = false) :
    (table.addRow row).rowArray = table.rowArray ++ [row] ∧
      (table.addRow row).rowMap = mapAfterAdd table.rowMap (table.rowArray ++ [row]) row := by
  obtain ⟨rows, map, _⟩ := table.dirtyOnce_frame
  simp only [addRow, absent, Bool.false_eq_true, if_false]
  split
  · simp only [noteTableAddRow, rowArray_noteChange, rowMap_noteChange, rows, map, and_self]
  · simp only [rows, map, and_self]

lemma rowArray_addRow {table : MorkTable Row} (valid : table.Valid) (row : Row) :
    (table.addRow row).rowArray = addTo table.rowArray row := by
  unfold addTo
  cases found : table.findMemberRow row with
  | true => rw [if_pos ((findMemberRow_iff valid row).mp found), addRow, if_pos found]
  | false =>
    have absent : row ∉ table.rowArray := by
      rw [← findMemberRow_iff valid row, found]
      exact Bool.false_ne_true
    rw [if_neg absent, (addRow_new table row found).1]

lemma valid_addRow {table : MorkTable Row} (valid : table.Valid) (row : Row) :
    (table.addRow row).Valid := by
  cases found : table.findMemberRow row with
  | true =>
    rw [addRow, if_pos found]
    exact valid
  | false =>
    have absent : row ∉ table.rowArray := by
      rw [← findMemberRow_iff valid row, found]
      exact Bool.false_ne_true
    obtain ⟨rows, maps⟩ := addRow_new table row found
    have nodup : (table.addRow row).rowArray.Nodup := by
      rw [rows, ← concat_eq_append]
      exact valid.nodup.concat absent
    cases old : table.rowMap with
    | some map =>
      simp only [old, mapAfterAdd] at maps
      refine ⟨nodup, ?_, ?_⟩
      · intro map' present
        cases maps.symm.trans present
        exact mapAddRow_nodup map row (valid.mapNodup map old)
      · intro map' present other
        cases maps.symm.trans present
        rw [rows, mem_mapAddRow, valid.mapped map old, mem_append, mem_singleton]
    | none =>
      simp only [old, mapAfterAdd] at maps
      have built := buildRowMap_spec (table.rowArray ++ [row]) [] nodup_nil
      refine ⟨nodup, ?_, ?_⟩
      · intro map present
        rw [maps] at present
        split at present
        · cases present
          exact built.1
        · cases present
      · intro map present other
        rw [maps] at present
        split at present
        · cases present
          rw [rows, buildRowMap, built.2]
          simp
        · cases present

omit [DecidableEq Row] in
lemma cutSlot_eq (rows) (pos : Nat) (filler : Row) (inside : pos < rows.length) :
    cutSlot rows pos filler = rows.eraseIdx pos := by
  rw [cutSlot, if_pos inside, shiftDown_dropLast rows pos filler inside]

variable (rows : List Row)

lemma arrayAfterCut_eq (row : Row) : arrayAfterCut rows row = rows.erase row := by
  rw [erase_eq_eraseIdx, arrayAfterCut]
  cases found : rows.idxOf? row with
  | none => rfl
  | some pos =>
    obtain ⟨inside, _⟩ := idxOf?_eq_some_iff.mp found
    exact cutSlot_eq rows pos row inside

private lemma cutRow_member (table : MorkTable Row) (row : Row)
    (present : table.findMemberRow row = true) :
    (table.cutRow row).rowArray = table.rowArray.erase row ∧
      (table.cutRow row).rowMap = table.rowMap.map (fun map => map.erase row) := by
  obtain ⟨rows, map, _⟩ := table.dirtyOnce_frame
  have erased := arrayAfterCut_eq table.rowArray row
  simp only [cutRow, present, if_true]
  split
  · simp only [noteTableCutRow, rowArray_noteChange, rowMap_noteChange, rows, map, erased, and_self]
  · simp only [rows, map, erased, and_self]

lemma rowArray_cutRow {table : MorkTable Row} (valid : table.Valid) (row : Row) :
    (table.cutRow row).rowArray = table.rowArray.erase row := by
  cases found : table.findMemberRow row with
  | true => exact (cutRow_member table row found).1
  | false =>
    have absent : row ∉ table.rowArray := by
      rw [← findMemberRow_iff valid row, found]
      exact Bool.false_ne_true
    rw [erase_of_not_mem absent, cutRow, found]
    rfl

lemma valid_cutRow {table : MorkTable Row} (valid : table.Valid) (row : Row) :
    (table.cutRow row).Valid := by
  cases found : table.findMemberRow row with
  | true =>
    obtain ⟨rows, maps⟩ := cutRow_member table row found
    have opened : ∀ map, (table.cutRow row).rowMap = some map →
        ∃ old, table.rowMap = some old ∧ map = old.erase row := by
      intro map present
      rw [maps, Option.map_eq_some_iff] at present
      obtain ⟨old, same, rfl⟩ := present
      exact ⟨old, same, rfl⟩
    refine ⟨rows ▸ valid.nodup.erase row, ?_, ?_⟩
    · intro map present
      obtain ⟨old, same, rfl⟩ := opened map present
      exact (valid.mapNodup old same).erase row
    · intro map present other
      obtain ⟨old, same, rfl⟩ := opened map present
      rw [rows, (valid.mapNodup old same).mem_erase_iff, valid.nodup.mem_erase_iff,
        valid.mapped old same]
  | false =>
    rw [cutRow, found]
    exact valid

omit [DecidableEq Row] in
lemma clampPos_range (rows : List Row) (pos : Int) (nonempty : rows.length ≠ 0) :
    0 ≤ clampPos rows pos ∧ (clampPos rows pos).toNat < rows.length := by
  unfold clampPos
  split
  · omega
  · split
    · omega
    · omega

omit [DecidableEq Row] in
lemma clampPos_of_inside (rows : List Row) (pos : Int) (nonnegative : 0 ≤ pos)
    (inside : pos.toNat < rows.length) : clampPos rows pos = pos := by
  rw [clampPos, if_neg (by omega), if_neg (by omega)]

private lemma seekNear_some (row : Row) (fuel : Nat) (lo : Int) (hi pos : Nat)
    (found : seekNear rows row fuel lo hi = some pos) : rows[pos]? = some row := by
  induction fuel generalizing lo hi with
  | zero => cases found
  | succ fuel ih =>
    rw [seekNear] at found
    split at found
    · cases found
    · split at found
      · rename_i here
        cases found
        exact here.2
      · split at found
        · rename_i here
          cases found
          exact here
        · exact ih _ _ found

/-- The search comes by every slot outside the ones it has seen already. -/
private theorem seekNear_isSome (row : Row) (fuel : Nat) (lo : Int) (hi pos : Nat)
    (here : rows[pos]? = some row) (unseen : (pos : Int) ≤ lo ∨ hi ≤ pos) (enough : lo < fuel)
    (enough' : rows.length ≤ hi + fuel) : (seekNear rows row fuel lo hi).isSome := by
  obtain ⟨inside, _⟩ := List.getElem?_eq_some_iff.mp here
  induction fuel generalizing lo hi with
  | zero => omega
  | succ fuel ih =>
    rw [seekNear]
    split
    · rename_i outside
      omega
    · split
      · rfl
      · rename_i notLow
        split
        · rfl
        · rename_i notHigh
          apply ih
          · rcases unseen with below | above
            · rcases Int.lt_or_eq_of_le below with less | same
              · left
                rw [if_pos (by omega)]
                omega
              · exfalso
                apply notLow
                rw [← same, Int.toNat_natCast]
                exact ⟨Int.natCast_nonneg pos, here⟩
            · rcases Nat.lt_or_eq_of_le above with less | same
              · right
                rw [if_pos (by omega)]
                exact less
              · exact absurd (same ▸ here) notHigh
          · split
            · omega
            · omega
          · split
            · omega
            · omega

lemma findSlot_eq (row : Row) (hint : Int) (nodup : rows.Nodup)
    (inside : hint.toNat < rows.length) : findSlot rows row hint = rows.idxOf? row := by
  unfold findSlot
  split
  · rfl
  · rename_i positive
    cases found : rows.idxOf? row with
    | none =>
      cases sought : seekNear rows row (rows.length + 1) hint hint.toNat with
      | none => rfl
      | some pos =>
        have here := seekNear_some rows row _ _ _ pos sought
        exact absurd (mem_of_getElem? here) (idxOf?_eq_none_iff.mp found)
    | some slot =>
      obtain ⟨bound, same, _⟩ := idxOf?_eq_some_iff.mp found
      have here : rows[slot]? = some row := List.getElem?_eq_some_iff.mpr ⟨bound, same⟩
      have reached := seekNear_isSome rows row (rows.length + 1) hint hint.toNat slot here
        (by omega) (by omega) (by omega)
      obtain ⟨pos, sought⟩ := Option.isSome_iff_exists.mp reached
      obtain ⟨bound', same'⟩ := List.getElem?_eq_some_iff.mp (seekNear_some rows row _ _ _ pos sought)
      rw [sought, nodup.getElem_inj_iff.mp (same'.trans same.symm)]

omit [DecidableEq Row] in
lemma moveSlots_eq (rows) (row : Row) (fromSlot toSlot : Nat) (inside : fromSlot < rows.length)
    (target : toSlot < rows.length) :
    moveSlots rows row fromSlot toSlot = moveSlot rows fromSlot toSlot row := by
  unfold moveSlots
  split
  · have shifted := shiftDown_set rows fromSlot row row (toSlot - fromSlot) (by omega)
    rwa [Nat.add_sub_cancel' (by omega)] at shifted
  · have shifted := shiftUp_set rows fromSlot row row (fromSlot - toSlot) inside (Nat.sub_le ..)
    rwa [Nat.sub_sub_self (by omega)] at shifted

variable {table : MorkTable Row}

lemma moveRow_cases (valid : table.Valid) (row : Row)
    (hintFromPos toPos : Int) :
    ((table.moveRow row hintFromPos toPos).1 = table.dirtyOnce.1 ∧
        moveTo table.rowArray row toPos = table.rowArray) ∨
      (row ∈ table.rowArray ∧
        (table.moveRow row hintFromPos toPos).1 =
          let moved := { table.dirtyOnce.1 with rowArray := moveTo table.rowArray row toPos }
          if table.dirtyOnce.2 then moved.noteRowMove row (clampPos table.rowArray toPos)
          else moved) := by
  obtain ⟨rows, _⟩ := table.dirtyOnce_frame
  by_cases empty : table.rowArray.length = 0
  · left
    have nil := length_eq_zero_iff.mp empty
    simp [moveRow, moveTo, rows, nil]
  · obtain ⟨_, hintInside⟩ := clampPos_range table.rowArray hintFromPos empty
    obtain ⟨nonnegative, inside⟩ := clampPos_range table.rowArray toPos empty
    have slot := findSlot_eq table.rowArray row (clampPos table.rowArray hintFromPos)
      valid.nodup hintInside
    cases found : table.rowArray.idxOf? row with
    | none =>
      left
      simp [moveRow, moveTo, rows, empty, slot, found]
    | some fromSlot =>
      obtain ⟨bound, _⟩ := idxOf?_eq_some_iff.mp found
      by_cases same : fromSlot = (clampPos table.rowArray toPos).toNat
      · left
        have same' : (fromSlot : Int) = clampPos table.rowArray toPos := by omega
        simp only [moveRow, moveTo, rows, if_neg empty, slot, found, if_pos same, if_pos same',
          and_self]
      · right
        have different : ¬ (fromSlot : Int) = clampPos table.rowArray toPos := by omega
        refine ⟨isSome_idxOf?.mp (found ▸ rfl), ?_⟩
        simp only [moveRow, moveTo, rows, if_neg empty, slot, found, if_neg same, if_neg different,
          moveSlots_eq table.rowArray row fromSlot _ bound inside]

lemma moveTo_perm (row : Row) (pos : Int) : (moveTo rows row pos).Perm rows := by
  unfold moveTo
  split
  · exact List.Perm.refl rows
  · rename_i fromSlot found
    obtain ⟨bound, same, _⟩ := idxOf?_eq_some_iff.mp found
    dsimp only
    split
    · exact List.Perm.refl rows
    · exact moveSlot_perm rows fromSlot _ row (List.getElem?_eq_some_iff.mpr ⟨bound, same⟩)
        (clampPos_range rows pos (by omega)).2

lemma rowArray_moveRow (valid : table.Valid) (row : Row)
    (hintFromPos toPos : Int) :
    (table.moveRow row hintFromPos toPos).1.rowArray = moveTo table.rowArray row toPos := by
  obtain ⟨rows, _⟩ := table.dirtyOnce_frame
  rcases moveRow_cases valid row hintFromPos toPos with ⟨idle, same⟩ | ⟨_, moved⟩
  · rw [idle, same, rows]
  · rw [moved]
    simp only
    split
    · rw [noteRowMove, rowArray_noteChange]
    · rfl

lemma valid_moveRow (valid : table.Valid) (row : Row)
    (hintFromPos toPos : Int) : (table.moveRow row hintFromPos toPos).1.Valid := by
  have order := rowArray_moveRow valid row hintFromPos toPos
  have perm := moveTo_perm table.rowArray row toPos
  have map : (table.moveRow row hintFromPos toPos).1.rowMap = table.rowMap := by
    obtain ⟨_, maps, _⟩ := table.dirtyOnce_frame
    rcases moveRow_cases valid row hintFromPos toPos with ⟨idle, _⟩ | ⟨_, moved⟩
    · rw [idle, maps]
    · rw [moved]
      simp only
      split
      · rw [noteRowMove, rowMap_noteChange, maps]
      · exact maps
  refine ⟨order ▸ perm.nodup_iff.mpr valid.nodup, ?_, ?_⟩
  · rw [map]
    exact valid.mapNodup
  · intro map' present other
    rw [map] at present
    rw [order, perm.mem_iff]
    exact valid.mapped map' present other

omit [DecidableEq Row] in
lemma rowArray_cutAllRows (table : MorkTable Row) : table.cutAllRows.rowArray = [] := rfl

omit [DecidableEq Row] in
lemma valid_cutAllRows (table : MorkTable Row) : table.cutAllRows.Valid := by
  have emptied : ∀ map, table.cutAllRows.rowMap = some map → map = [] := by
    intro map present
    simp only [cutAllRows, Option.map_eq_some_iff] at present
    obtain ⟨_, _, rfl⟩ := present
    rfl
  refine ⟨nodup_nil, ?_, ?_⟩
  · intro map present
    rw [emptied map present]
    exact nodup_nil
  · intro map present row
    rw [emptied map present, rowArray_cutAllRows]

end MorkTable

end CommCentral.Mork
