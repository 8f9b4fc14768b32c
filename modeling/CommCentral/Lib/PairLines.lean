import Mathlib.Data.List.Basic

/-! Lines that end with a pair of elements: the complete lines of a text, and the text behind the
last of them. -/
namespace CommCentral.Lib
open List

variable {Element : Type} [DecidableEq Element] (first second : Element)

/-- The complete lines of a text behind the beginning `line` of a line, and the line that is not
complete. -/
def pairLines (line : List Element) : List Element → List (List Element) × List Element
  | [] => ([], line)
  | element :: rest =>
    if line.getLast? = some first ∧ element = second then
      ((line ++ [element]) :: (pairLines [] rest).1, (pairLines [] rest).2)
    else pairLines (line ++ [element]) rest

variable {first second} {line text : List Element}

lemma pairLines_append (line text more) :
    pairLines first second line (text ++ more) =
      ((pairLines first second line text).1 ++
          (pairLines first second (pairLines first second line text).2 more).1,
        (pairLines first second (pairLines first second line text).2 more).2) := by
  induction text generalizing line with
  | nil => rfl
  | cons element rest ih =>
    rw [cons_append, pairLines, pairLines]
    split
    · rw [ih []]
      rfl
    · exact ih _

/-- Nothing is lost. -/
theorem flatten_pairLines (line text : List Element) :
    (pairLines first second line text).1.flatten ++ (pairLines first second line text).2 =
      line ++ text := by
  induction text generalizing line with
  | nil => exact (append_nil line).symm
  | cons element rest ih =>
    rw [pairLines]
    split
    · rw [flatten_cons, append_assoc, ih [], append_assoc]
      rfl
    · rw [ih, append_assoc]
      rfl

lemma pairLines_unbroken (text) (unbroken : first ∉ text)
    (open_ : line.getLast? ≠ some first ∨ text.head? ≠ some second) :
    pairLines first second line text = ([], line ++ text) := by
  induction text generalizing line with
  | nil => rw [pairLines, append_nil]
  | cons element rest ih =>
    have notEnd : ¬ (line.getLast? = some first ∧ element = second) := by
      rintro ⟨isFirst, isSecond⟩
      rcases open_ with notFirst | notSecond
      · exact notFirst isFirst
      · exact notSecond (congrArg some isSecond)
    have notFirst : (line ++ [element]).getLast? ≠ some first := by
      rw [getLast?_append, getLast?_singleton]
      intro same
      exact unbroken (Option.some.inj same ▸ mem_cons_self)
    rw [pairLines, if_neg notEnd, ih (fun mem => unbroken (mem_cons_of_mem _ mem))
      (.inl notFirst), append_assoc]
    rfl

lemma pairLines_behind {before : List Element} {complete : List Element}
    {later : List (List Element)} (text : List Element)
    (open_ : line ≠ [] ∨ before.getLast? ≠ some first ∨ text.head? ≠ some second)
    (lines : (pairLines first second line text).1 = complete :: later) :
    (pairLines first second (before ++ line) text).1 = (before ++ complete) :: later := by
  induction text generalizing line with
  | nil => cases lines
  | cons element rest ih =>
    have same : ((before ++ line).getLast? = some first ∧ element = second) ↔
        (line.getLast? = some first ∧ element = second) := by
      by_cases some_ : line = []
      · subst some_
        rw [append_nil]
        constructor
        · rintro ⟨isFirst, isSecond⟩
          rcases open_ with absurd_ | notFirst | notSecond
          · exact absurd rfl absurd_
          · exact absurd isFirst notFirst
          · exact absurd (congrArg some isSecond) notSecond
        · rintro ⟨isFirst, _⟩
          cases isFirst
      · rw [getLast?_append_of_ne_nil before some_]
    rw [pairLines] at lines ⊢
    by_cases ends : line.getLast? = some first ∧ element = second
    · rw [if_pos ends] at lines
      rw [if_pos (same.mpr ends)]
      obtain ⟨rfl, rfl⟩ := cons_eq_cons.mp lines
      rw [append_assoc]
    · rw [if_neg ends] at lines
      rw [if_neg (mt same.mp ends), append_assoc]
      exact ih (.inl (concat_ne_nil _ _)) lines

lemma pairLines_end (different : first ≠ second) (line text) :
    pairLines first second line (first :: second :: text) =
      ((line ++ [first, second]) :: (pairLines first second [] text).1,
        (pairLines first second [] text).2) := by
  have notEnd : ¬ (line.getLast? = some first ∧ first = second) := fun ends => different ends.2
  rw [pairLines, if_neg notEnd, pairLines, if_pos ⟨getLast?_concat, rfl⟩, append_assoc]
  rfl

lemma pairLines_concat (mem : complete ∈ (pairLines first second line text).1) :
    ∃ before, complete = before ++ [second] := by
  induction text generalizing line with
  | nil => exact absurd mem not_mem_nil
  | cons element rest ih =>
    rw [pairLines] at mem
    by_cases ends : line.getLast? = some first ∧ element = second
    · rw [if_pos ends] at mem
      rcases mem_cons.mp mem with isComplete | inLater
      · exact ⟨line, ends.2 ▸ isComplete⟩
      · exact ih inLater
    · rw [if_neg ends] at mem
      exact ih mem

lemma exists_pairLines (different : first ≠ second) (text) :
    ∃ complete later, (pairLines first second [] (text ++ [first, second])).1 = complete :: later ∧
      complete <+: text ++ [first, second] := by
  have whole := @flatten_pairLines _ _ first second [] (text ++ [first, second])
  cases lines : (pairLines first second [] (text ++ [first, second])).1 with
  | nil =>
    rw [pairLines_append, pairLines_end different] at lines
    exact absurd (append_eq_nil_iff.mp lines).2 (cons_ne_nil _ _)
  | cons complete later =>
    refine ⟨complete, later, rfl, ?_⟩
    rw [lines, flatten_cons, append_assoc] at whole
    exact ⟨_, whole⟩

end CommCentral.Lib
