import CommCentral.Base.Chunk
import CommCentral.Base.MsgKeySet

/-! The loops of `IsMember`, `Add` and `Remove` that look for the place of a number. They
read only words of chunks, so they leave the block as it is. -/
namespace CommCentral.Base
open Lib List

/-- `back` starts with the first chunk that does not end below the number. -/
structure StopsAt (number : Int) (chunks front back : List Chunk) : Prop where
  split : chunks = front ++ back
  passed : ∀ chunk ∈ front, chunk.last < number
  stopped : ∀ chunk, back.head? = some chunk → number ≤ chunk.last

def startsBelow (number : Int) : List Chunk → Bool
  | [] => false
  | chunk :: _ => chunk.first ≤ number

lemma StopsAt.cons {number : Int} {chunk : Chunk} {chunks front back : List Chunk}
    (stops : StopsAt number chunks front back) (below : chunk.last < number) :
    StopsAt number (chunk :: chunks) (chunk :: front) back := by
  refine ⟨by rw [stops.split]; rfl, ?_, stops.stopped⟩
  intro other mem
  rcases mem_cons.mp mem with rfl | mem
  · exact below
  · exact stops.passed other mem

lemma StopsAt.here {number : Int} {chunk : Chunk} {chunks : List Chunk}
    (stopped : number ≤ chunk.last) : StopsAt number (chunk :: chunks) [] (chunk :: chunks) := by
  refine ⟨rfl, by simp, ?_⟩
  intro other same
  cases same
  exact stopped

lemma StopsAt.end (number : Int) : StopsAt number [] [] [] := ⟨rfl, by simp, by simp⟩

lemma StopsAt.holds_iff {number : Int} {chunks front back : List Chunk}
    (stops : StopsAt number chunks front back) (ascending : Ascending chunks) :
    Holds chunks number ↔ startsBelow number back = true := by
  have notFront : ¬ Holds front number := by
    rw [Base.holds_iff]
    rintro ⟨chunk, mem, _, upper⟩
    have below := stops.passed chunk mem
    omega
  rw [stops.split, holds_append]
  cases back with
  | nil => simp [notFront, startsBelow]
  | cons chunk back =>
    have upper := stops.stopped chunk rfl
    rw [stops.split, ascending_append] at ascending
    have later := ((ascending_cons ..).mp ascending.2.1).1
    simp only [notFront, false_or, holds_cons, startsBelow, decide_eq_true_eq]
    constructor
    · rintro (⟨lower, _⟩ | beyond)
      · exact lower
      · obtain ⟨other, mem, lower, _⟩ := (Base.holds_iff ..).mp beyond
        have gap := later other mem
        have ordered := chunk.ordered
        omega
    · intro lower
      exact .inl ⟨lower, upper⟩

namespace MsgKeySet

variable (junk : Junk) {data : Block} {length position : Nat} {chunks : List Chunk}

/-- The two shapes of a chunk in the block, as the loops tell them apart. -/
theorem layout_cases {chunk : Chunk}
    (layout : Layout data length position (chunk :: chunks)) :
    (position < length ∧ data.touch position = data ∧ chunk.first = chunk.last ∧
        data.word junk.outside position = chunk.first ∧
        ¬ chunk.first < 0 ∧ chunk.words.length = 1 ∧
        Layout data length (position + 1) chunks) ∨
      (position < length ∧ data.touch position = data ∧ chunk.first < chunk.last ∧
        data.word junk.outside position = -(chunk.last - chunk.first) ∧
        -(chunk.last - chunk.first) < 0 ∧ data.touch (position + 1) = data ∧
        data.word junk.outside (position + 1) = chunk.first ∧ chunk.words.length = 2 ∧
        Layout data length (position + 2) chunks) := by
  rcases Int.lt_or_eq_of_le chunk.ordered with several | single
  · right
    obtain ⟨before, inside, head, start, next⟩ := layout.range several junk.outside
    refine ⟨before, data.touch_of_lt (by omega), several, head, by omega,
      data.touch_of_lt inside, start, ?_, next⟩
    rw [Chunk.words_range several]
    rfl
  · left
    obtain ⟨before, inside, head, next⟩ := layout.literal single junk.outside
    refine ⟨before, data.touch_of_lt inside, single, head, ?_, ?_, next⟩
    · have nonnegative := chunk.nonnegative
      omega
    · rw [Chunk.words_literal single]
      rfl

section

variable (layout : Layout data length position chunks) (number : Int) (fuel : Nat)
  (enough : chunks.length < fuel)
include layout number fuel enough

lemma isMemberLoop_spec :
    ∃ front back, StopsAt number chunks front back ∧
      isMemberLoop junk length number fuel data position =
        (data, startsBelow number back, position + (encode front).length) := by
  induction chunks generalizing position fuel with
  | nil =>
    obtain ⟨fuel, rfl⟩ := Nat.exists_eq_add_of_lt enough
    refine ⟨[], [], StopsAt.end number, ?_⟩
    have ends := layout.nil_ends
    rw [isMemberLoop, if_neg (by omega)]
    rfl
  | cons chunk chunks ih =>
    obtain ⟨fuel, rfl⟩ : ∃ rest, fuel = rest + 1 := ⟨fuel - 1, by omega⟩
    rw [length_cons] at enough
    rcases layout_cases junk layout with
      ⟨before, touched, single, head, positive, width, next⟩ |
      ⟨before, touched, several, head, negative, touched', start, width, next⟩
    · simp only [isMemberLoop, if_pos before, touched, head, if_neg positive]
      by_cases same : chunk.first = number
      · refine ⟨[], _, StopsAt.here (by omega), ?_⟩
        simp [same, startsBelow]
      · by_cases above : chunk.first > number
        · refine ⟨[], _, StopsAt.here (by omega), ?_⟩
          simp [same, above, startsBelow]
        · obtain ⟨front, back, stops, run⟩ := ih next fuel (by omega)
          refine ⟨chunk :: front, back, stops.cons (by omega), ?_⟩
          rw [if_neg same, if_neg above, run, encode_cons, length_append, width,
            Nat.add_assoc]
    · have sum : chunk.first + -(-(chunk.last - chunk.first)) = chunk.last := by omega
      simp only [isMemberLoop, if_pos before, touched, head, if_pos negative, touched', start, sum]
      by_cases above : chunk.first > number
      · refine ⟨[], _, StopsAt.here (by omega), ?_⟩
        simp [above, startsBelow]
      · by_cases inside : chunk.last ≥ number
        · refine ⟨[], _, StopsAt.here inside, ?_⟩
          simp only [if_neg above, if_pos inside, startsBelow, encode_nil, length_nil,
            Nat.add_zero, Prod.mk.injEq, true_and, and_true]
          exact (decide_eq_true (by omega)).symm
        · obtain ⟨front, back, stops, run⟩ := ih next fuel (by omega)
          refine ⟨chunk :: front, back, stops.cons (by omega), ?_⟩
          rw [if_neg above, if_neg inside, run, encode_cons, length_append, width,
            Nat.add_assoc]

lemma addLoop_spec :
    ∃ front back, StopsAt number chunks front back ∧
      addLoop junk length number fuel data position =
        (data, if startsBelow number back then none
          else some (position + (encode front).length)) := by
  induction chunks generalizing position fuel with
  | nil =>
    obtain ⟨fuel, rfl⟩ := Nat.exists_eq_add_of_lt enough
    refine ⟨[], [], StopsAt.end number, ?_⟩
    have ends := layout.nil_ends
    rw [addLoop, if_neg (by omega)]
    rfl
  | cons chunk chunks ih =>
    obtain ⟨fuel, rfl⟩ : ∃ rest, fuel = rest + 1 := ⟨fuel - 1, by omega⟩
    rw [length_cons] at enough
    rcases layout_cases junk layout with
      ⟨before, touched, single, head, positive, width, next⟩ |
      ⟨before, touched, several, head, negative, touched', start, width, next⟩
    · simp only [addLoop, if_pos before, touched, head, if_neg positive]
      by_cases same : chunk.first = number
      · refine ⟨[], _, StopsAt.here (by omega), ?_⟩
        simp [same, startsBelow]
      · by_cases above : chunk.first > number
        · refine ⟨[], _, StopsAt.here (by omega), ?_⟩
          have notBelow : ¬ chunk.first ≤ number := by omega
          simp [same, above, startsBelow, notBelow]
        · obtain ⟨front, back, stops, run⟩ := ih next fuel (by omega)
          refine ⟨chunk :: front, back, stops.cons (by omega), ?_⟩
          rw [if_neg same, if_neg above, run, encode_cons, length_append, width,
            Nat.add_assoc]
    · have sum : chunk.first + -(-(chunk.last - chunk.first)) = chunk.last := by omega
      simp only [addLoop, if_pos before, touched, head, if_pos negative, touched', start, sum]
      by_cases inside : chunk.first ≤ number ∧ chunk.last ≥ number
      · refine ⟨[], _, StopsAt.here inside.2, ?_⟩
        simp [inside, startsBelow]
      · by_cases above : chunk.last > number
        · refine ⟨[], _, StopsAt.here (by omega), ?_⟩
          have notBelow : ¬ chunk.first ≤ number := by omega
          simp [above, startsBelow, notBelow]
        · obtain ⟨front, back, stops, run⟩ := ih next fuel (by omega)
          refine ⟨chunk :: front, back, stops.cons (by omega), ?_⟩
          rw [if_neg inside, if_neg above, run, encode_cons, length_append, width,
            Nat.add_assoc]

lemma removeLoop_spec :
    (¬ Holds chunks number ∧ removeLoop junk length number fuel data position = (data, none)) ∨
      ∃ front chunk back, chunks = front ++ chunk :: back ∧ ¬ Holds front number ∧
        chunk.first ≤ number ∧ number ≤ chunk.last ∧
        removeLoop junk length number fuel data position =
          (data, some (position + (encode front).length, decide (chunk.first < chunk.last),
            chunk.first, chunk.last)) := by
  induction chunks generalizing position fuel with
  | nil =>
    obtain ⟨fuel, rfl⟩ := Nat.exists_eq_add_of_lt enough
    have ends := layout.nil_ends
    left
    rw [removeLoop, if_neg (by omega)]
    exact ⟨not_holds_nil number, rfl⟩
  | cons chunk chunks ih =>
    obtain ⟨fuel, rfl⟩ : ∃ rest, fuel = rest + 1 := ⟨fuel - 1, by omega⟩
    rw [length_cons] at enough
    have skip : ∀ next, Layout data length next chunks → next = position + chunk.words.length →
        ¬ (chunk.first ≤ number ∧ number ≤ chunk.last) →
        removeLoop junk length number (fuel + 1) data position =
          removeLoop junk length number fuel data next →
        (¬ Holds (chunk :: chunks) number ∧
            removeLoop junk length number (fuel + 1) data position = (data, none)) ∨
          ∃ front found back, chunk :: chunks = front ++ found :: back ∧ ¬ Holds front number ∧
            found.first ≤ number ∧ number ≤ found.last ∧
            removeLoop junk length number (fuel + 1) data position =
              (data, some (position + (encode front).length, decide (found.first < found.last),
                found.first, found.last)) := by
      intro next layout' position' outside step
      rcases ih layout' fuel (by omega) with ⟨absent, run⟩ | ⟨front, found, back, split, absent,
        lower, upper, run⟩
      · left
        rw [holds_cons, not_or]
        exact ⟨⟨outside, absent⟩, step.trans run⟩
      · right
        refine ⟨chunk :: front, found, back, by rw [split]; rfl, ?_, lower, upper, ?_⟩
        · rw [holds_cons, not_or]
          exact ⟨outside, absent⟩
        · rw [step, run, position', encode_cons, length_append, Nat.add_assoc]
    rcases layout_cases junk layout with
      ⟨before, touched, single, head, positive, width, next⟩ |
      ⟨before, touched, several, head, negative, touched', start, width, next⟩
    · by_cases same : chunk.first = number
      · right
        refine ⟨[], chunk, chunks, rfl, not_holds_nil number, by omega, by omega, ?_⟩
        have stop : ¬ chunk.first ≠ number := not_not.mpr same
        simp only [removeLoop, if_pos before, touched, head, if_neg positive, if_neg stop,
          ← single, Int.lt_irrefl, decide_false, encode_nil, length_nil, Nat.add_zero]
      · refine skip _ next (by rw [width]) (by omega) ?_
        simp only [removeLoop, if_pos before, touched, head, if_neg positive, ne_eq, same,
          not_false_eq_true, if_true]
    · have sum : chunk.first + -(-(chunk.last - chunk.first)) = chunk.last := by omega
      by_cases outside : number < chunk.first ∨ number > chunk.last
      · refine skip _ next (by rw [width]) (by omega) ?_
        simp only [removeLoop, if_pos before, touched, head, if_pos negative, touched', start, sum,
          if_pos outside]
      · right
        refine ⟨[], chunk, chunks, rfl, not_holds_nil number, by omega, by omega, ?_⟩
        simp only [removeLoop, if_pos before, touched, head, if_pos negative, touched', start, sum,
          if_neg outside, encode_nil, length_nil, Nat.add_zero, several, decide_true]

end

end MsgKeySet

end CommCentral.Base
