import Mathlib.Data.List.Basic

/-! The scan of a list for the first item of the least level below a bound. -/
namespace CommCentral.Lib
open List

universe u

variable {Item : Type u} (level : Item → Nat)

/-- Every item with a lower level than those before takes the place of what was found. -/
def firstLeast : List Item → (bound : Nat) → (found : Option Item) → Option Item
  | [], _, found => found
  | item :: later, bound, found =>
    if level item < bound then firstLeast later (level item) (some item)
    else firstLeast later bound found

/-- The item stands between items of higher levels and items of no lower ones. -/
structure IsFirstLeast (before : List Item) (item : Item) (after : List Item) : Prop where
  earlier : ∀ other ∈ before, level item < level other
  later : ∀ other ∈ after, level item ≤ level other

variable {level} {before after items : List Item}

lemma firstLeast_of_le (above : ∀ other ∈ items, bound ≤ level other) (found) :
    firstLeast level items bound found = found := by
  induction items with
  | nil => rfl
  | cons first rest ih =>
    rw [firstLeast, if_neg (Nat.not_lt.mpr (above first mem_cons_self))]
    exact ih fun other mem => above other (mem_cons_of_mem _ mem)

lemma firstLeast_of_split (least : IsFirstLeast level before item after)
    (below : level item < bound) (found) :
    firstLeast level (before ++ item :: after) bound found = some item := by
  induction before generalizing bound found with
  | nil =>
    rw [nil_append, firstLeast, if_pos below]
    exact firstLeast_of_le least.later _
  | cons first rest ih =>
    have rest : IsFirstLeast level rest item after :=
      ⟨fun other mem => least.earlier other (mem_cons_of_mem _ mem), least.later⟩
    rw [cons_append, firstLeast]
    split
    · exact ih rest (least.earlier first mem_cons_self) _
    · exact ih rest below _

lemma firstLeast_cases (level : Item → Nat) (items) (bound : Nat) (found) :
    (∀ other ∈ items, bound ≤ level other) ∧ firstLeast level items bound found = found ∨
      ∃ before item after, items = before ++ item :: after ∧ level item < bound ∧
        IsFirstLeast level before item after ∧
        firstLeast level items bound found = some item := by
  induction items generalizing bound found with
  | nil => exact .inl ⟨nofun, rfl⟩
  | cons first rest ih =>
    rw [firstLeast]
    by_cases below : level first < bound
    · rw [if_pos below]
      rcases ih (level first) (some first) with ⟨above, isFirst⟩ | ⟨before, item, after, split, lower,
        least, isItem⟩
      · refine .inr ⟨[], first, rest, rfl, below, ⟨?_, above⟩, isFirst⟩
        exact nofun
      · refine .inr ⟨first :: before, item, after, congrArg (first :: ·) split,
          Nat.lt_trans lower below, ⟨?_, least.later⟩, isItem⟩
        exact forall_mem_cons.mpr ⟨lower, least.earlier⟩
    · rw [if_neg below]
      have notBelow := Nat.not_lt.mp below
      rcases ih bound found with ⟨above, same⟩ | ⟨before, item, after, split, lower, least, isItem⟩
      · exact .inl ⟨forall_mem_cons.mpr ⟨notBelow, above⟩, same⟩
      · refine .inr ⟨first :: before, item, after, congrArg (first :: ·) split, lower,
          ⟨?_, least.later⟩, isItem⟩
        exact forall_mem_cons.mpr ⟨Nat.lt_of_lt_of_le lower notBelow, least.earlier⟩

end CommCentral.Lib
