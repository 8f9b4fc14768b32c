import Mathlib.Data.List.TakeWhile
import Mathlib.Tactic.Common

/-! The tokens of a text between separators, and the places where they stand in it. -/
namespace CommCentral.Lib
open List

variable {α : Type} [DecidableEq α] {token text rest : List α}

/-- What stands between separators, where separators in a row count as one. -/
def tokens (separator : α) (text : List α) : List (List α) :=
  (text.splitOn separator).filter (· ≠ [])

/-- The first place of one list in another. -/
def firstOccurrence (needle : List α) : List α → Option Nat
  | [] => none
  | item :: rest =>
    if needle <+: item :: rest then some 0 else (firstOccurrence needle rest).map (· + 1)

lemma firstOccurrence_some (found : firstOccurrence token text = some place) :
    token <+: text.drop place ∧ ∀ earlier < place, ¬ token <+: text.drop earlier := by
  induction text generalizing place with
  | nil => cases found
  | cons item rest ih =>
    rw [firstOccurrence] at found
    split at found
    · rename_i here
      cases found
      exact ⟨here, fun earlier before => absurd before (Nat.not_lt_zero _)⟩
    · rename_i notHere
      obtain ⟨next, foundNext, rfl⟩ := Option.map_eq_some_iff.mp found
      obtain ⟨there, before⟩ := ih foundNext
      refine ⟨there, fun earlier smaller => ?_⟩
      cases earlier with
      | zero => exact notHere
      | succ earlier => exact before earlier (Nat.lt_of_succ_lt_succ smaller)

lemma firstOccurrence_none (some : token ≠ []) (missing : firstOccurrence token text = none)
    (place : Nat) : ¬ token <+: text.drop place := by
  induction text generalizing place with
  | nil =>
    rw [drop_nil, prefix_nil]
    exact some
  | cons item rest ih =>
    rw [firstOccurrence] at missing
    split at missing
    · cases missing
    · rename_i notHere
      cases place with
      | zero => exact notHere
      | succ place => exact ih (Option.map_eq_none_iff.mp missing) place

/-- A token stands at a place of a text, between separators or the ends of the text. -/
structure StandsAt (separator : α) (token text : List α) (place : Nat) : Prop where
  occurs : token <+: text.drop place
  starts : place = 0 ∨ text[place - 1]? = some separator
  ends : text[place + token.length]? = none ∨ text[place + token.length]? = some separator

omit [DecidableEq α] in
lemma StandsAt.not_inside (whole : separator ∉ token) (occurs : token <+: text.drop other)
    (after : other < place) (inside : place < other + token.length) :
    ¬ StandsAt separator token text place := by
  intro stands
  have positive : place ≠ 0 := by omega
  have isSeparator := stands.starts.resolve_left positive
  obtain ⟨tail, same⟩ := occurs
  have within : place - 1 - other < token.length := by omega
  have inText : text[place - 1]? = (text.drop other)[place - 1 - other]? := by
    rw [getElem?_drop]
    congr 1
    omega
  rw [inText, ← same, getElem?_append_left within] at isSeparator
  exact whole (mem_of_getElem? isSeparator)

lemma standsAt_zero (whole : separator ∉ token) :
    StandsAt separator token text 0 ↔ token = text.takeWhile (· ≠ separator) := by
  constructor
  · rintro ⟨⟨tail, same⟩, _, ends⟩
    rw [drop_zero] at same
    rw [← same, Nat.zero_add, getElem?_append_right (Nat.le_refl _), Nat.sub_self] at ends
    have all : ∀ item ∈ token, decide (item ≠ separator) = true :=
      fun item mem => decide_eq_true fun isSeparator => whole (isSeparator ▸ mem)
    rw [← same, takeWhile_append_of_pos all]
    cases tail with
    | nil => simp
    | cons first more =>
      have isSeparator : first = separator := by simpa using ends
      simp [isSeparator]
  · rintro rfl
    refine ⟨ takeWhile_prefix _, .inl rfl, ?_⟩
    rw [Nat.zero_add]
    induction text with
    | nil => exact .inl rfl
    | cons first rest ih =>
      by_cases isSeparator : first = separator
      · simp [isSeparator]
      · rw [takeWhile_cons_of_pos (by simpa using isSeparator)] at whole ⊢
        exact ih fun mem => whole (mem_cons_of_mem _ mem)

omit [DecidableEq α] in
lemma standsAt_succ :
    StandsAt separator token (item :: rest) (place + 1) ↔
      StandsAt separator token rest place ∧ (place = 0 → item = separator) := by
  have ends : place + 1 + token.length = place + token.length + 1 := by omega
  constructor
  · rintro ⟨occurs, starts, ended⟩
    rw [ends, getElem?_cons_succ] at ended
    cases place with
    | zero =>
      refine ⟨⟨occurs, .inl rfl, ended⟩, fun _ => ?_⟩
      simpa using starts
    | succ place =>
      refine ⟨⟨occurs, .inr ?_, ended⟩, fun zero => absurd zero (Nat.succ_ne_zero _)⟩
      simpa using starts
  · rintro ⟨⟨occurs, starts, ended⟩, first⟩
    refine ⟨occurs, .inr ?_, by rwa [ends, getElem?_cons_succ]⟩
    cases place with
    | zero => simp [first rfl]
    | succ place => simpa using starts

lemma splitOn_head (separator : α) (text : List α) :
    (text.splitOn separator).head? = some (text.takeWhile (· ≠ separator)) := by
  induction text with
  | nil => simp
  | cons first rest ih =>
    rw [splitOn_cons_eq_if_modifyHead, takeWhile_cons]
    by_cases isSeparator : first = separator
    · simp [isSeparator]
    · cases split : rest.splitOn separator with
      | nil => exact absurd split (splitOn_ne_nil separator rest)
      | cons head tail =>
        rw [split, head?_cons] at ih
        cases ih
        simp [isSeparator]

lemma mem_splitOn_iff (separator : α) (token text : List α) :
    token ∈ text.splitOn separator ↔
      token = text.takeWhile (· ≠ separator) ∨ token ∈ (text.splitOn separator).tail := by
  have head := splitOn_head separator text
  cases split : text.splitOn separator with
  | nil => exact absurd split (splitOn_ne_nil separator text)
  | cons first rest =>
    rw [split, head?_cons, Option.some.injEq] at head
    rw [mem_cons, head, tail_cons]

lemma mem_splitOn_tail_iff (some : token ≠ []) (whole : separator ∉ token) :
    token ∈ (text.splitOn separator).tail ↔
      ∃ place, StandsAt separator token text (place + 1) := by
  induction text with
  | nil =>
    refine iff_of_false (by simp) ?_
    rintro ⟨place, stands⟩
    have occurs := stands.occurs
    rw [drop_nil, prefix_nil] at occurs
    exact some occurs
  | cons first rest ih =>
    rw [splitOn_cons_eq_if_modifyHead]
    by_cases isSeparator : first = separator
    · rw [if_pos (by simpa using isSeparator), tail_cons, mem_splitOn_iff,
        ih, ← standsAt_zero whole]
      constructor
      · rintro (here | ⟨place, stands⟩)
        · exact ⟨0, standsAt_succ.mpr ⟨here, fun _ => isSeparator⟩⟩
        · exact ⟨place + 1, standsAt_succ.mpr ⟨stands, fun _ => isSeparator⟩⟩
      · rintro ⟨place, stands⟩
        have inRest := (standsAt_succ.mp stands).1
        cases place with
        | zero => exact .inl inRest
        | succ place => exact .inr ⟨place, inRest⟩
    · rw [if_neg (by simpa using isSeparator), tail_modifyHead, ih]
      constructor
      · rintro ⟨place, stands⟩
        exact ⟨place + 1, standsAt_succ.mpr ⟨stands, fun zero => absurd zero (Nat.succ_ne_zero _)⟩⟩
      · rintro ⟨place, stands⟩
        obtain ⟨inRest, first⟩ := standsAt_succ.mp stands
        cases place with
        | zero => exact absurd (first rfl) isSeparator
        | succ place => exact ⟨place, inRest⟩

lemma mem_tokens_iff (some : token ≠ []) (whole : separator ∉ token) :
    token ∈ tokens separator text ↔ ∃ place, StandsAt separator token text place := by
  rw [tokens, mem_filter, mem_splitOn_iff, mem_splitOn_tail_iff some whole,
    ← standsAt_zero whole]
  constructor
  · rintro ⟨here | ⟨place, stands⟩, _⟩
    · exact ⟨0, here⟩
    · exact ⟨place + 1, stands⟩
  · rintro ⟨place, stands⟩
    refine ⟨?_, decide_eq_true some⟩
    cases place with
    | zero => exact .inl stands
    | succ place => exact .inr ⟨place, stands⟩

end CommCentral.Lib
