import Mathlib.Tactic.Common

/-! A statement about the members of a list or an option is decided along these, also where their
type is finite, and one about all bytes along their numbers. -/
namespace CommCentral.Lib

universe u

variable {α : Type u} {property : α → Prop} [DecidablePred property]

instance (priority := high) decidableForallMemList (elements : List α) :
    Decidable (∀ element ∈ elements, property element) :=
  List.decidableBAll property elements

instance (priority := high) decidableExistsMemList (elements : List α) :
    Decidable (∃ element ∈ elements, property element) :=
  List.decidableBEx property elements

instance (priority := high) decidableForallMemOption (element? : Option α) :
    Decidable (∀ element ∈ element?, property element) :=
  Option.decidableForallMem element?

instance lawfulBytes : LawfulBEq (List UInt8) := inferInstance

lemma forall_byte {property : UInt8 → Prop} (holds : ∀ n < 256, property (UInt8.ofNat n))
    (c : UInt8) : property c := by
  have here := holds c.toNat (UInt8.toNat_lt c)
  rwa [UInt8.ofNat_toNat] at here

end CommCentral.Lib
