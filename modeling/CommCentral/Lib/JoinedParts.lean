import Mathlib

/-! Texts without the white space around them, and how they are joined. -/
namespace CommCentral.Lib
open List

variable {α : Type} {space : α → Bool} {text : List α} {parts : List (List α)}

/-- A text without the white space at its ends. -/
def trim (space : α → Bool) (text : List α) : List α := (text.dropWhile space).rdropWhile space

lemma trim_eq_nil_iff : trim space text = [] ↔ ∀ item ∈ text, space item = true := by
  rw [trim, rdropWhile_eq_nil_iff]
  constructor
  · intro all item mem
    rw [← takeWhile_append_dropWhile (p := space) (l := text)] at mem
    rcases mem_append.mp mem with before | after
    · exact mem_takeWhile_imp before
    · exact all item after
  · exact fun all item mem => all item ((dropWhile_suffix space).subset mem)

lemma head?_trim (head : (trim space text).head? = some first) : space first = false := by
  obtain ⟨rest, same⟩ := head?_eq_some_iff.mp head
  obtain ⟨tail, whole⟩ := rdropWhile_prefix space (text.dropWhile space)
  rw [trim] at same
  rw [same, cons_append] at whole
  have filled : text.dropWhile space ≠ [] := by
    rw [← whole]
    exact cons_ne_nil _ _
  have notSpace := head_dropWhile_not space filled
  simpa [← whole] using notSpace

lemma getLast?_trim {last : α} (ends : (trim space text).getLast? = some last) :
    space last = false := by
  have filled : trim space text ≠ [] := by
    intro empty
    rw [empty] at ends
    cases ends
  rw [getLast?_eq_some_getLast filled, Option.some.injEq] at ends
  rw [← ends]
  exact Bool.eq_false_iff.mpr (rdropWhile_last_not space _ filled)

/-- Only white space is left out. -/
theorem count_trim [DecidableEq α] (notSpace : space item = false) (text : List α) :
    (trim space text).count item = text.count item := by
  have inFront : (text.takeWhile space).count item = 0 :=
    count_eq_zero.mpr fun mem => by simp [mem_takeWhile_imp mem] at notSpace
  have behind : ((text.dropWhile space).rtakeWhile space).count item = 0 :=
    count_eq_zero.mpr fun mem => by simp [mem_rtakeWhile_imp mem] at notSpace
  have atEnd : (text.dropWhile space).count item = (trim space text).count item := by
    have split := congrArg (List.count item)
      (rdropWhile_append_rtakeWhile (p := space) (l := text.dropWhile space))
    rw [count_append, behind, Nat.add_zero] at split
    exact split.symm
  rw [← atEnd]
  have split := congrArg (List.count item) (takeWhile_append_dropWhile (p := space) (l := text))
  rw [count_append, inFront, Nat.zero_add] at split
  exact split

lemma intercalate_concat (some : parts ≠ []) (last) :
    [separator].intercalate (parts ++ [last]) =
      [separator].intercalate parts ++ separator :: last := by
  induction parts with
  | nil => exact absurd rfl some
  | cons first rest ih =>
    cases rest with
    | nil => simp
    | cons second more =>
      rw [cons_append, cons_append, intercalate_cons_cons,
        intercalate_cons_cons, ← cons_append, ih (cons_ne_nil _ _)]
      simp

lemma count_intercalate [DecidableEq α] (other : separator ≠ item) (parts : List (List α)) :
    ([separator].intercalate parts).count item = (parts.map (List.count item)).sum := by
  induction parts with
  | nil => rfl
  | cons first rest ih =>
    cases rest with
    | nil => simp
    | cons second more =>
      rw [intercalate_cons_cons, count_append, count_append, ih,
        count_singleton, if_neg (by simpa using other)]
      simp

/-- The white space in front of joined parts comes from empty parts. -/
theorem dropWhile_intercalate (isSpace : space separator = true)
    (starts : ∀ part ∈ parts, ∀ first ∈ part.head?, space first = false) :
    ([separator].intercalate parts).dropWhile space =
      [separator].intercalate (parts.dropWhile List.isEmpty) := by
  induction parts with
  | nil => rfl
  | cons first rest ih =>
    obtain ⟨start, startRest⟩ := forall_mem_cons.mp starts
    cases first with
    | nil =>
      rw [dropWhile_cons_of_pos rfl, ← ih startRest]
      cases rest with
      | nil => rfl
      | cons second more => simp [intercalate_cons_cons, isSpace]
    | cons item others =>
      have notSpace := start item rfl
      rw [dropWhile_cons_of_neg (by simp)]
      cases rest with
      | nil => simp [notSpace]
      | cons second more => simp [intercalate_cons_cons, notSpace]

lemma getLast?_intercalate (before) {last : List α} (some : last ≠ []) :
    ([separator].intercalate (before ++ [last])).getLast? = last.getLast? := by
  by_cases none : before = []
  · simp [none]
  · rw [intercalate_concat none, getLast?_append_of_ne_nil _ (cons_ne_nil _ _),
      getLast?_cons_of_ne_nil some]

def joinFromFirst (separator : α) (parts : List (List α)) : List α :=
  [separator].intercalate (parts.dropWhile List.isEmpty)

lemma joinFromFirst_eq_nil_iff :
    joinFromFirst separator parts = [] ↔ ∀ part ∈ parts, part = [] := by
  rw [joinFromFirst]
  constructor
  · intro nothing
    cases left : parts.dropWhile List.isEmpty with
    | nil =>
      intro part mem
      exact List.isEmpty_iff.mp (dropWhile_eq_nil_iff.mp left part mem)
    | cons first rest =>
      have filled : parts.dropWhile List.isEmpty ≠ [] := by simp [left]
      have notEmpty := head_dropWhile_not List.isEmpty filled
      cases rest with
      | nil => simp [left] at nothing notEmpty; exact absurd nothing notEmpty
      | cons second more => simp [left, intercalate_cons_cons] at nothing
  · intro empty
    have none : parts.dropWhile List.isEmpty = [] := by
      rw [dropWhile_eq_nil_iff]
      intro part mem
      rw [empty part mem]
      rfl
    rw [none]
    rfl

lemma count_joinFromFirst [DecidableEq α] (other : separator ≠ item) (parts : List (List α)) :
    (joinFromFirst separator parts).count item = (parts.map (List.count item)).sum := by
  rw [joinFromFirst, count_intercalate other]
  induction parts with
  | nil => rfl
  | cons first rest ih =>
    cases first with
    | nil =>
      rw [dropWhile_cons_of_pos rfl, ih]
      simp
    | cons item others => rw [dropWhile_cons_of_neg (by simp)]

lemma joinFromFirst_eq_trim_iff (isSpace : space separator = true)
    (starts : ∀ part ∈ parts, ∀ first ∈ part.head?, space first = false)
    (ends : ∀ part ∈ parts, ∀ last ∈ part.getLast?, space last = false) :
    joinFromFirst separator parts = trim space ([separator].intercalate parts) ↔
      ∀ last ∈ parts.getLast?, last = [] → ∀ part ∈ parts, part = [] := by
  rw [trim, dropWhile_intercalate isSpace starts, joinFromFirst]
  have whole := takeWhile_append_dropWhile (p := List.isEmpty) (l := parts)
  have emptyInFront : ∀ part ∈ parts.takeWhile List.isEmpty, part = [] := fun part mem =>
    List.isEmpty_iff.mp (mem_takeWhile_imp mem)
  cases left : parts.dropWhile List.isEmpty with
  | nil =>
    rw [left, append_nil] at whole
    refine iff_of_true (by simp) fun last _ _ part mem => ?_
    rw [← whole] at mem
    exact emptyInFront part mem
  | cons first rest =>
    have some : first ≠ [] := by
      have filled : parts.dropWhile List.isEmpty ≠ [] := by simp [left]
      have notEmpty := head_dropWhile_not List.isEmpty filled
      simpa [left] using notEmpty
    obtain ⟨before, last, split⟩ := (eq_nil_or_concat (first :: rest)).resolve_left
      (cons_ne_nil _ _)
    rw [concat_eq_append] at split
    have isLast : parts.getLast? = Option.some last := by
      rw [← whole, left, split, ← append_assoc, getLast?_concat]
    have inParts : first ∈ parts := by
      rw [← whole, left]
      simp
    rw [isLast, eq_comm, rdropWhile_eq_self_iff]
    constructor
    · intro noSpace found isFound empty
      cases isFound
      rw [split, empty] at noSpace
      have several : before ≠ [] := by
        rintro rfl
        rw [nil_append, empty] at split
        exact some (List.cons.inj split).1
      rw [intercalate_concat several] at noSpace
      have filled : [separator].intercalate before ++ [separator] ≠ [] := by simp
      have notSpace := noSpace filled
      rw [getLast_append_of_ne_nil _ (cons_ne_nil _ _), getLast_singleton] at notSpace
      exact absurd isSpace notSpace
    · intro onlyEmpty filled
      have lastSome : last ≠ [] := fun empty => some (onlyEmpty last rfl empty first inParts)
      have atEnd := getLast?_eq_some_getLast filled
      have shape : ([separator].intercalate (first :: rest)).getLast? = last.getLast? := by
        rw [split]
        exact getLast?_intercalate before lastSome
      have notSpace := ends last (mem_of_getLast? isLast) _ (shape ▸ atEnd)
      exact Bool.eq_false_iff.mp notSpace

end CommCentral.Lib
