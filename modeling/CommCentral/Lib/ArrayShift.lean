import Mathlib.Data.List.GetD
import Mathlib.Data.List.Perm.Basic

/-! In-place shifts of array slots, and the erase and insert that they amount to. -/
namespace CommCentral.Lib
open List

universe u

variable {α : Type u}

/-- `count` times copy the next slot into slot `index` and go one slot up. -/
def shiftDown (slots : List α) (index : Nat) (filler : α) : Nat → List α
  | 0 => slots
  | count + 1 =>
    shiftDown (slots.set index (slots.getD (index + 1) filler)) (index + 1) filler count

/-- `count` times copy the previous slot into slot `index` and go one slot down. -/
def shiftUp (slots : List α) (index : Nat) (filler : α) : Nat → List α
  | 0 => slots
  | count + 1 => shiftUp (slots.set index (slots.getD (index - 1) filler)) (index - 1) filler count

/-- The element in slot `index` is put in front of position `target`. -/
def moveSlot (slots : List α) (index target : Nat) (element : α) : List α :=
  (slots.eraseIdx index).insertIdx target element

lemma insertIdx_append (before after) (element : α) :
    (before ++ after).insertIdx before.length element = before ++ element :: after := by
  induction before with
  | nil => rfl
  | cons first rest ih => exact congrArg (first :: ·) ih

variable (slots : List α)

private lemma moveSlot_self (index : Nat) (element : α) (inside : index < slots.length) :
    slots.set index element = moveSlot slots index index element := by
  refine ext_getElem? (fun position => ?_)
  simp only [moveSlot, getElem?_set, getElem?_insertIdx, getElem?_eraseIdx,
    length_eraseIdx_of_lt inside]
  grind

@[simp] lemma length_shiftDown (slots : List α) (index : Nat) (filler : α) (count : Nat) :
    (shiftDown slots index filler count).length = slots.length := by
  induction count generalizing slots index with
  | zero => rfl
  | succ count ih => rw [shiftDown, ih, length_set]

lemma shiftDown_set (index : Nat) (filler element : α) (count : Nat)
    (inside : index + count < slots.length) :
    (shiftDown slots index filler count).set (index + count) element =
      moveSlot slots index (index + count) element := by
  induction count generalizing slots index with
  | zero => exact moveSlot_self slots index element inside
  | succ count ih =>
    have next : index + 1 < slots.length := by omega
    have shifted := ih (slots.set index slots[index + 1]) (index + 1)
      (by rw [length_set]; omega)
    have target : index + 1 + count = index + (count + 1) := by omega
    rw [target] at shifted
    rw [shiftDown, getD_eq_getElem _ _ next, shifted, moveSlot, moveSlot,
      eraseIdx_set_gt (Nat.lt_succ_self index), set_getElem_succ_eraseIdx_succ]

lemma shiftUp_set (index : Nat) (filler element : α) (count : Nat) (inside : index < slots.length)
    (enough : count ≤ index) :
    (shiftUp slots index filler count).set (index - count) element =
      moveSlot slots index (index - count) element := by
  induction count generalizing slots index with
  | zero => exact moveSlot_self slots index element inside
  | succ count ih =>
    cases index with
    | zero => omega
    | succ index =>
      have previous : index < slots.length := by omega
      have shifted := ih (slots.set (index + 1) slots[index]) index
        (by rw [length_set]; exact previous) (by omega)
      have target : index + 1 - (count + 1) = index - count := by omega
      have same : (slots.set (index + 1) slots[index]).eraseIdx index =
          slots.eraseIdx (index + 1) := by
        rw [eraseIdx_set_lt (Nat.lt_succ_self index), Nat.succ_sub_one]
        refine ext_getElem? (fun position => ?_)
        simp only [getElem?_set, getElem?_eraseIdx, length_eraseIdx_of_lt previous]
        grind
      rw [target, shiftUp, Nat.add_sub_cancel, getD_eq_getElem _ _ previous, shifted,
        moveSlot, moveSlot, same]

/-- Closing the gap of a cut slot and dropping the last slot. -/
theorem shiftDown_dropLast (index : Nat) (filler : α) (inside : index < slots.length) :
    (shiftDown slots index filler (slots.length - 1 - index)).dropLast = slots.eraseIdx index := by
  have count : (slots.eraseIdx index).length = slots.length - 1 := length_eraseIdx_of_lt inside
  have target : index + (slots.length - 1 - index) = (slots.eraseIdx index).length := by omega
  have moved := shiftDown_set slots index filler filler (slots.length - 1 - index) (by omega)
  rw [target, moveSlot, insertIdx_length_self] at moved
  have cut := congrArg List.dropLast moved
  rw [dropLast_concat, dropLast_eq_take, length_set, length_shiftDown,
    take_set_of_le (by omega)] at cut
  rw [dropLast_eq_take, length_shiftDown, cut]

lemma moveSlot_perm (index target : Nat) (element : α) (found : slots[index]? = some element)
    (inside : target < slots.length) : (moveSlot slots index target element).Perm slots := by
  obtain ⟨here, rfl⟩ := List.getElem?_eq_some_iff.mp found
  have room : target ≤ (slots.eraseIdx index).length := by
    rw [length_eraseIdx_of_lt here]
    omega
  exact (perm_insertIdx _ _ room).trans (getElem_cons_eraseIdx_perm here)

/-- `count` times read a slot and go one slot up, and write what is kept to the next slot of those
kept so far. The slots behind these are cut off. -/
def filterInPlace (keep : α → Bool) : (count readIndex writeIndex : Nat) → List α → List α
  | 0, _, writeIndex, slots => slots.take writeIndex
  | count + 1, readIndex, writeIndex, slots =>
    match slots[readIndex]? with
    | none => slots.take writeIndex
    | some element =>
      if keep element then
        filterInPlace keep count (readIndex + 1) (writeIndex + 1) (slots.set writeIndex element)
      else filterInPlace keep count (readIndex + 1) writeIndex slots

lemma filterInPlace_append (keep : α → Bool) (rest) {kept stale : List α} {count : Nat}
    (same : count = kept.length + stale.length) :
    filterInPlace keep rest.length count kept.length (kept ++ stale ++ rest) =
      kept ++ rest.filter keep := by
  induction rest generalizing kept stale count with
  | nil =>
    rw [length_nil, filterInPlace, append_nil, take_left', filter_nil,
      append_nil]
    rfl
  | cons element rest ih =>
    have atRead : (kept ++ stale ++ element :: rest)[count]? = some element := by
      rw [same, ← length_append, getElem?_append_right (Nat.le_refl _), Nat.sub_self]
      rfl
    rw [length_cons, filterInPlace, atRead]
    dsimp only
    by_cases keeps : keep element = true
    · rw [if_pos keeps, filter_cons_of_pos keeps]
      have concat : (kept ++ [element]).length = kept.length + 1 := by simp
      cases stale with
      | nil =>
        have written : (kept ++ [] ++ element :: rest).set kept.length element =
            (kept ++ [element]) ++ [] ++ rest := by simp
        rw [written, ← concat]
        refine (ih ?_).trans (append_assoc _ _ _)
        rw [same, concat]
        rfl
      | cons first stale =>
        have written : (kept ++ first :: stale ++ element :: rest).set kept.length element =
            (kept ++ [element]) ++ (stale ++ [element]) ++ rest := by simp
        rw [written, ← concat]
        refine (ih ?_).trans (append_assoc _ _ _)
        simp [same]
        omega
    · rw [if_neg keeps, filter_cons_of_neg keeps]
      have split : kept ++ stale ++ element :: rest = kept ++ (stale ++ [element]) ++ rest := by simp
      rw [split]
      apply ih
      simp [same]
      omega

lemma filterInPlace_eq (keep : α → Bool) (slots) :
    filterInPlace keep slots.length 0 0 slots = slots.filter keep := by
  have start : 0 = ([] : List α).length + ([] : List α).length := rfl
  exact filterInPlace_append keep slots start

end CommCentral.Lib
