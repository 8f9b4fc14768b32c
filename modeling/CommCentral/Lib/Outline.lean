import Mathlib.Tactic.Common

/-! Levels of the rows of an outline, in order: each is at most one more than the level of the
row above. -/
namespace CommCentral.Lib
open List

/-- Levels that may stand below a row, the first of them up to a limit. -/
def OutlineFrom (limit : Nat) : List Nat → Prop
  | [] => True
  | level :: rest => level ≤ limit ∧ OutlineFrom (level + 1) rest

abbrev Outline (levels : List Nat) : Prop := OutlineFrom 0 levels

instance decidableOutlineFrom : (limit : Nat) → (levels : List Nat) →
    Decidable (OutlineFrom limit levels)
  | _, [] => inferInstanceAs (Decidable True)
  | limit, level :: rest =>
    have := decidableOutlineFrom (level + 1) rest
    inferInstanceAs (Decidable (level ≤ limit ∧ OutlineFrom (level + 1) rest))

/-- The highest level for a row after these. -/
def limitAfter (limit : Nat) : List Nat → Nat
  | [] => limit
  | level :: rest => limitAfter (level + 1) rest

variable {levels before after : List Nat}

/-- The first level is 0, and each is at most one more than the one before. -/
theorem outline_iff : Outline levels ↔ (∀ first ∈ levels.head?, first = 0) ∧
    ∀ index above level, levels[index]? = some above → levels[index + 1]? = some level →
      level ≤ above + 1 := by
  have chain : ∀ limit, OutlineFrom limit levels ↔ (∀ first ∈ levels.head?, first ≤ limit) ∧
      ∀ index above level, levels[index]? = some above → levels[index + 1]? = some level →
        level ≤ above + 1 := by
    induction levels with
    | nil =>
      intro limit
      refine iff_of_true trivial ⟨?_, ?_⟩
      · intro first mem
        cases mem
      · intro index above level atIndex
        cases atIndex
    | cons first rest ih =>
      intro limit
      rw [OutlineFrom, ih]
      constructor
      · rintro ⟨bound, next, later⟩
        refine ⟨?_, ?_⟩
        · rintro _ ⟨⟩
          exact bound
        · intro index above level atIndex below
          cases index with
          | zero =>
            cases atIndex
            rw [getElem?_cons_succ, ← head?_eq_getElem?] at below
            exact next level below
          | succ index => exact later index above level atIndex below
      · rintro ⟨bound, pairs⟩
        refine ⟨bound first rfl, ?_, fun index => pairs (index + 1)⟩
        intro level head
        apply pairs 0 first level rfl
        rw [getElem?_cons_succ, ← head?_eq_getElem?]
        exact head
  rw [Outline, chain]
  constructor
  · exact fun outline => ⟨fun first mem => Nat.le_zero.mp (outline.1 first mem), outline.2⟩
  · exact fun outline => ⟨fun first mem => Nat.le_of_eq (outline.1 first mem), outline.2⟩

lemma outlineFrom_append :
    OutlineFrom limit (before ++ after) ↔
      OutlineFrom limit before ∧ OutlineFrom (limitAfter limit before) after := by
  induction before generalizing limit with
  | nil => exact (iff_of_eq (true_and _)).symm
  | cons level rest ih => rw [cons_append, OutlineFrom, OutlineFrom, ih, limitAfter, and_assoc]

lemma OutlineFrom.mono (outline : OutlineFrom limit levels)
    (above : ∀ first ∈ levels.head?, first ≤ higher) : OutlineFrom higher levels := by
  cases levels with
  | nil => trivial
  | cons level rest => exact ⟨above level rfl, outline.2⟩

lemma limitAfter_concat (limit : Nat) (levels) (last : Nat) :
    limitAfter limit (levels ++ [last]) = last + 1 := by
  induction levels generalizing limit with
  | nil => rfl
  | cons level rest ih => exact ih (level + 1)

lemma limitAfter_take (atIndex : levels[index]? = some above) :
    limitAfter limit (levels.take (index + 1)) = above + 1 := by
  rw [take_add_one, atIndex]
  exact limitAfter_concat limit _ above

/-- A row may be put where its level fits to the rows above and below it. -/
theorem OutlineFrom.insert (outline : OutlineFrom limit (before ++ after))
    (below : level ≤ limitAfter limit before) (above : ∀ next ∈ after.head?, next ≤ level + 1) :
    OutlineFrom limit (before ++ level :: after) := by
  obtain ⟨first, second⟩ := outlineFrom_append.mp outline
  exact outlineFrom_append.mpr ⟨first, below, second.mono above⟩

end CommCentral.Lib
