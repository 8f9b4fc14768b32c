import Mathlib.Tactic.Common

/-! Files that are written in chunks, each of which may fail. -/
namespace CommCentral.Lib
open List

/-- What becomes of the writes to a file: nothing for one that succeeds, and for one that fails
the number of its bytes that still get into the file. -/
abbrev Faults := Nat → Option Nat

/-- The bytes of a file, and the number of writes made to it. -/
structure OutStream where
  content : List UInt8 := []
  writes : Nat := 0
  deriving DecidableEq

/-- A part of a program that writes, and tells if it succeeded. -/
abbrev Writer := OutStream → Bool × OutStream

namespace Writer

def done : Writer := fun stream => (true, stream)

def put (faults : Faults) (chunk : List UInt8) : Writer := fun stream =>
  match faults stream.writes with
  | none => (true, ⟨stream.content ++ chunk, stream.writes + 1⟩)
  | some kept => (false, ⟨stream.content ++ chunk.take kept, stream.writes + 1⟩)

/-- The second part runs only if the first succeeded. -/
def andThen (first second : Writer) : Writer := fun stream =>
  if (first stream).1 then second (first stream).2 else (false, (first stream).2)

/-- Chunk after chunk until a write fails. -/
def putAll (faults : Faults) : List (List UInt8) → Writer
  | [] => done
  | chunk :: rest => (put faults chunk).andThen (putAll faults rest)

variable {chunk : List UInt8} {chunks more : List (List UInt8)} {stream : OutStream}

@[simp] lemma done_andThen (second : Writer) : done.andThen second = second := rfl

@[simp] lemma andThen_done (first : Writer) : first.andThen done = first := by
  funext stream
  unfold andThen done
  split
  · rename_i written
    exact Prod.ext written.symm rfl
  · rename_i failed
    exact Prod.ext (Bool.eq_false_iff.mpr failed).symm rfl

lemma andThen_assoc (first second third : Writer) :
    (first.andThen second).andThen third = first.andThen (second.andThen third) := by
  funext stream
  unfold andThen
  by_cases written : (first stream).1 <;> simp [written]

lemma putAll_singleton (chunk) : putAll faults [chunk] = put faults chunk :=
  andThen_done _

/-- Chunks in two parts are written by one writer after the other. -/
theorem putAll_append (chunks more : List (List UInt8)) :
    putAll faults (chunks ++ more) = (putAll faults chunks).andThen (putAll faults more) := by
  induction chunks with
  | nil => rfl
  | cons chunk rest ih => rw [cons_append, putAll, putAll, ih, andThen_assoc]

/-- Without a fault all chunks get into the file. -/
theorem putAll_good (faults : Faults) (chunks : List (List UInt8)) (stream : OutStream)
    (good : ∀ index < chunks.length, faults (stream.writes + index) = none) :
    putAll faults chunks stream =
      (true, ⟨stream.content ++ chunks.flatten, stream.writes + chunks.length⟩) := by
  induction chunks generalizing stream with
  | nil => simp [putAll, done]
  | cons chunk rest ih =>
    have first : faults stream.writes = none := good 0 (by simp)
    have others := ih ⟨stream.content ++ chunk, stream.writes + 1⟩
      (fun index inside => by
        have next := good (index + 1) (by simpa using inside)
        rwa [← Nat.add_assoc, Nat.add_right_comm] at next)
    simp only [putAll, andThen, put, first, if_true, others, flatten_cons,
      append_assoc, length_cons]
    congr 2
    omega

lemma putAll_bad (stream) (inside : index < chunks.length)
    (before : ∀ earlier < index, faults (stream.writes + earlier) = none)
    (bad : faults (stream.writes + index) ≠ none) :
    (putAll faults chunks stream).1 = false ∧
      (putAll faults chunks stream).2.writes = stream.writes + index + 1 := by
  induction chunks generalizing stream index with
  | nil => simp at inside
  | cons chunk rest ih =>
    cases index with
    | zero =>
      obtain ⟨kept, fault⟩ := Option.ne_none_iff_exists'.mp bad
      simp only [Nat.add_zero] at fault
      simp [putAll, andThen, put, fault]
    | succ index =>
      have first : faults stream.writes = none := before 0 (Nat.succ_pos _)
      have inRest : index < rest.length := by simpa using inside
      have others := ih ⟨stream.content ++ chunk, stream.writes + 1⟩ inRest
        (fun earlier smaller => by
          have next := before (earlier + 1) (by omega)
          rwa [← Nat.add_assoc, Nat.add_right_comm] at next)
        (by rwa [← Nat.add_assoc, Nat.add_right_comm] at bad)
      have place : stream.writes + (index + 1) + 1 = stream.writes + 1 + index + 1 := by omega
      simp only [putAll, andThen, put, first, if_true, place]
      exact others

/-- Either no write fails, or one is the first to fail. -/
theorem good_or_bad (faults : Faults) (start number : Nat) :
    (∀ index < number, faults (start + index) = none) ∨
      ∃ index < number, (∀ earlier < index, faults (start + earlier) = none) ∧
        faults (start + index) ≠ none := by
  induction number with
  | zero => exact .inl (by simp)
  | succ number ih =>
    rcases ih with good | ⟨index, inside, before, bad⟩
    · by_cases last : faults (start + number) = none
      · refine .inl fun index inside => ?_
        rcases Nat.lt_succ_iff_lt_or_eq.mp inside with earlier | rfl
        · exact good index earlier
        · exact last
      · exact .inr ⟨number, Nat.lt_succ_self _, good, last⟩
    · exact .inr ⟨index, Nat.lt_succ_of_lt inside, before, bad⟩

lemma putAll_written :
    (putAll faults chunks stream).1 = true ↔
      ∀ index < (putAll faults chunks stream).2.writes - stream.writes,
        faults (stream.writes + index) = none := by
  rcases good_or_bad faults stream.writes chunks.length with good | ⟨index, inside, before, bad⟩
  · rw [putAll_good faults chunks stream good]
    simp only [Nat.add_sub_cancel_left, true_iff]
    exact good
  · obtain ⟨failed, writes⟩ := putAll_bad stream inside before bad
    rw [failed, writes]
    refine iff_of_false (by simp) fun all => bad (all index (by omega))

end Writer

end CommCentral.Lib
