import Mathlib.Data.List.Count
import Mathlib.Data.List.Perm.Basic

/-! How many entries of an array are counted, while entries change. -/
namespace CommCentral.Lib
open List

universe u

variable {α : Type u} {elements : List α}

/-- An entry is replaced. -/
theorem countP_set_add (inside : index < elements.length) (element : α) (counted : α → Bool) :
    (elements.set index element).countP counted + (counted elements[index]).toNat =
      elements.countP counted + (counted element).toNat := by
  have here : (counted elements[index]).toNat ≤ elements.countP counted := by
    cases isCounted : counted elements[index] with
    | false => exact Nat.zero_le _
    | true => exact countP_pos_iff.mpr ⟨_, getElem_mem inside, isCounted⟩
  rw [countP_set inside]
  cases isCounted : counted elements[index] with
  | false => cases counted element <;> rfl
  | true =>
    rw [isCounted] at here
    cases counted element with
    | false =>
      simp only [if_true, Bool.toNat_true, Bool.toNat_false, if_false, Bool.false_eq_true] at here ⊢
      omega
    | true =>
      simp only [if_true, Bool.toNat_true] at here ⊢
      omega

/-- An entry is removed. -/
theorem countP_eraseIdx_add (inside : index < elements.length) (counted : α → Bool) :
    (elements.eraseIdx index).countP counted + (counted elements[index]).toNat =
      elements.countP counted := by
  rw [← (getElem_cons_eraseIdx_perm inside).countP_eq, countP_cons]
  cases counted elements[index] <;> rfl

end CommCentral.Lib
