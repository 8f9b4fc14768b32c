import CommCentral.Base.KeySetBounds
import CommCentral.Base.KeySetRefinement

/-! `LastMissingRange`: the last numbers of an interval that are not in a set. -/
namespace CommCentral.Base
open Lib List

namespace MsgKeySet

variable (junk : Junk)

/-- The numbers that the words of a set stand for. -/
def members (set : MsgKeySet) : Set Int :=
  {number | ∃ range ∈ set.ranges, range.1 ≤ number ∧ number ≤ range.2}

/-- The loop of `LastMissingRange`: `last` is where the chunk before ends, `found` is in
`*first` and `*last`. It returns early when the rest is above the interval. -/
def lastMissingLoop (length : Nat) (min max : Int) :
    Nat → Block → Nat → Int → Int × Int → Block × Option Int × Int × Int
  | 0, data, _, last, found => (data, some last, found)
  | fuel + 1, data, tail, last, found =>
    if tail < length then
      let a := add32 last 1
      let data := data.touch tail
      let head := data.word junk.outside tail
      let isRange := decide (head < 0)
      let data := if isRange then data.touch (tail + 1) else data
      let first := if isRange then data.word junk.outside (tail + 1) else head
      let last := if isRange then first + -head else head
      let next := if isRange then tail + 2 else tail + 1
      let b := first - 1
      if a > max then (data, none, found)
      else
        lastMissingLoop length min max fuel data next last
          (if a ≤ b ∧ b ≥ min then (if a > min then a else min, if b < max then b else max) else found)
    else (data, some last, found)

/-- `LastMissingRange`: the status, and `*first` and `*last`. -/
def lastMissingRange (set : MsgKeySet) (min max : Int) : MsgKeySet × Int × Int × Int :=
  if min > max ∨ min ≤ 0 then (set, -1, 0, 0)
  else
    match lastMissingLoop junk set.length min max (set.length + 1) set.data 0 0 (0, 0) with
    | (data, none, found) => ({ set with data := data }, 0, found)
    | (data, some last, found) =>
      if last < max then
        let a := add32 last 1
        ({ set with data := data }, 0, if a > min then a else min, max)
      else ({ set with data := data }, 0, found)

end MsgKeySet

/-- The last interval of numbers between two bounds that are not in a set: it cannot be
made larger on the left, and all numbers on its right are in the set. -/
structure LastGap (numbers : Set Int) (min max first last : Int) : Prop where
  lower : min ≤ first
  order : first ≤ last
  upper : last ≤ max
  missing : ∀ number, first ≤ number → number ≤ last → number ∉ numbers
  left : first = min ∨ first - 1 ∈ numbers
  right : ∀ number, last < number → number ≤ max → number ∈ numbers

lemma LastGap.unique {min max first last first' last' : Int}
    (gap : LastGap numbers min max first last) (gap' : LastGap numbers min max first' last') :
    first = first' ∧ last = last' := by
  have order := gap.order
  have order' := gap'.order
  have lower := gap.lower
  have lower' := gap'.lower
  have sameLast : last = last' := by
    rcases Int.lt_trichotomy last last' with less | same | more
    · exact absurd (gap.right last' less gap'.upper) (gap'.missing last' order' (Int.le_refl _))
    · exact same
    · exact absurd (gap'.right last more gap.upper) (gap.missing last order (Int.le_refl _))
  refine ⟨?_, sameLast⟩
  rcases Int.lt_trichotomy first first' with less | same | more
  · rcases gap'.left with atMin | before
    · omega
    · exact absurd before (gap.missing _ (by omega) (by omega))
  · exact same
  · rcases gap.left with atMin | before
    · omega
    · exact absurd before (gap'.missing _ (by omega) (by omega))

namespace MsgKeySet

variable (junk : Junk) {set : MsgKeySet} {chunks : List Chunk}

lemma mem_members (layout : Layout set.data set.length 0 chunks) (number : Int) :
    number ∈ set.members ↔ Holds chunks number := by
  change (∃ range ∈ set.ranges, range.1 ≤ number ∧ number ≤ range.2) ↔ _
  rw [ranges_eq layout, holds_iff]
  constructor
  · rintro ⟨range, mem, lower, upper⟩
    obtain ⟨chunk, inside, rfl⟩ := mem_map.mp mem
    exact ⟨chunk, inside, lower, upper⟩
  · rintro ⟨chunk, inside, lower, upper⟩
    exact ⟨chunk.bounds, mem_map_of_mem inside, lower, upper⟩

lemma RepresentsBelow.members_eq (represents : RepresentsBelow limit set chunks numbers) :
    set.members = numbers := by
  ext number
  rw [mem_members represents.layout, represents.holds]

def FoundUpTo (numbers : Set Int) (min max reached : Int) (found : Int × Int) : Prop :=
  (found = (0, 0) ∧ ∀ number, min ≤ number → number ≤ max → number ≤ reached → number ∈ numbers) ∨
    (min ≤ found.1 ∧ found.1 ≤ found.2 ∧ found.2 ≤ max ∧
      (∀ number, found.1 ≤ number → number ≤ found.2 → number ∉ numbers) ∧
      (found.1 = min ∨ found.1 - 1 ∈ numbers) ∧
      ∀ number, found.2 < number → number ≤ max → number ≤ reached → number ∈ numbers)

/-- The answer of `LastMissingRange`. -/
def FoundLast (numbers : Set Int) (min max : Int) (found : Int × Int) : Prop :=
  (found = (0, 0) ∧ ∀ number, min ≤ number → number ≤ max → number ∈ numbers) ∨
    LastGap numbers min max found.1 found.2

lemma FoundUpTo.all {min max reached : Int} {found : Int × Int}
    (upTo : FoundUpTo numbers min max reached found) (all : max ≤ reached) :
    FoundLast numbers min max found := by
  rcases upTo with ⟨nothing, known⟩ | ⟨lower, order, upper, missing, left, known⟩
  · exact .inl ⟨nothing, fun number above below => known number above below (by omega)⟩
  · exact .inr ⟨lower, order, upper, missing, left, fun number above below =>
      known number above below (by omega)⟩

lemma FoundUpTo.step {min max last : Int} {found : Int × Int} {chunk : Chunk}
    (upTo : FoundUpTo numbers min max last found) (positive : 1 ≤ min) (order : min ≤ max)
    (known : last = 0 ∨ last ∈ numbers)
    (gap : ∀ number, last < number → number < chunk.first → number ∉ numbers)
    (held : ∀ number, chunk.first ≤ number → number ≤ chunk.last → number ∈ numbers)
    (more : ¬ last + 1 > max) :
    FoundUpTo numbers min max chunk.last
      (if last + 1 ≤ chunk.first - 1 ∧ chunk.first - 1 ≥ min then
        (if last + 1 > min then last + 1 else min,
          if chunk.first - 1 < max then chunk.first - 1 else max)
      else found) := by
  by_cases meets : last + 1 ≤ chunk.first - 1 ∧ chunk.first - 1 ≥ min
  · obtain ⟨wide, above⟩ := meets
    rw [if_pos ⟨wide, above⟩]
    obtain ⟨start, startEq⟩ : ∃ start, start = if last + 1 > min then last + 1 else min := ⟨_, rfl⟩
    obtain ⟨stop, stopEq⟩ : ∃ stop, stop = if chunk.first - 1 < max then chunk.first - 1 else max :=
      ⟨_, rfl⟩
    rw [← startEq, ← stopEq]
    right
    refine ⟨?_, ?_, ?_, ?_, ?_, ?_⟩
    · change min ≤ start
      split at startEq <;> omega
    · change start ≤ stop
      split at startEq <;> split at stopEq <;> omega
    · change stop ≤ max
      split at stopEq <;> omega
    · intro number after before
      change start ≤ number at after
      change number ≤ stop at before
      apply gap number
      · split at startEq <;> omega
      · split at stopEq <;> omega
    · change start = min ∨ start - 1 ∈ numbers
      split at startEq
      · rcases known with zero | mem
        · omega
        · right
          rw [startEq, Int.add_sub_cancel]
          exact mem
      · exact .inl startEq
    · intro number after below within
      change stop < number at after
      apply held number _ within
      split at stopEq <;> omega
  · rw [if_neg meets]
    have extend : (∀ number, number ≤ max → number ≤ last → min ≤ number → number ∈ numbers) →
        ∀ number, min ≤ number → number ≤ max → number ≤ chunk.last → number ∈ numbers := by
      intro old number above below within
      by_cases early : number ≤ last
      · exact old number below early above
      · exact held number (by omega) within
    rcases upTo with ⟨nothing, old⟩ | ⟨lower, order', upper, missing, left, old⟩
    · exact .inl ⟨nothing, extend fun number below early above => old number above below early⟩
    · refine .inr ⟨lower, order', upper, missing, left, ?_⟩
      intro number after below within
      by_cases early : number ≤ last
      · exact old number after below early
      · exact held number (by omega) within

/-- The chunks from a position on, and where the chunk before them ends. -/
structure Rest (numbers : Set Int) (last : Int) (chunks : List Chunk) : Prop where
  known : last = 0 ∨ 0 < last ∧ last ∈ numbers
  holds : ∀ number, last < number → (number ∈ numbers ↔ Holds chunks number)
  held : ∀ number, Holds chunks number → number ∈ numbers
  ascending : Ascending chunks
  bounded : Bounded (2 ^ 31) chunks
  above : ∀ chunk ∈ chunks, last = 0 ∨ last < chunk.last

namespace Rest
variable {last : Int} {chunk : Chunk}

lemma whole (ascending : Ascending chunks) (bounded : Bounded (2 ^ 31) chunks)
    (holds : ∀ number, Holds chunks number ↔ number ∈ numbers) : Rest numbers 0 chunks where
  known := .inl rfl
  holds := fun number _ => (holds number).symm
  held := fun number held => (holds number).mp held
  ascending := ascending
  bounded := bounded
  above := fun _ _ => .inl rfl

lemma start (represents : RepresentsBelow limit set chunks numbers) (int32 : limit ≤ 2 ^ 31) :
    Rest numbers 0 chunks :=
  whole represents.ascending
    (fun chunk mem => Int.lt_of_lt_of_le (represents.bounded chunk mem) int32)
    represents.holds

section

variable (rest : Rest numbers last (chunk :: chunks))
include rest

lemma gap (number : Int) (after : last < number) (before : number < chunk.first) :
    number ∉ numbers := by
  rw [rest.holds number after, holds_iff]
  rintro ⟨other, mem, lower, -⟩
  rcases mem_cons.mp mem with rfl | later
  · omega
  · have apart := ((ascending_cons ..).mp rest.ascending).1 other later
    have ordered := chunk.ordered
    omega

lemma inside (number : Int) (lower : chunk.first ≤ number) (upper : number ≤ chunk.last) :
    number ∈ numbers := by
  apply rest.held
  rw [holds_cons]
  exact .inl ⟨lower, upper⟩

lemma next : Rest numbers chunk.last chunks := by
  obtain ⟨later, ascending⟩ := (ascending_cons ..).mp rest.ascending
  have nonnegative := chunk.nonnegative
  have ordered := chunk.ordered
  refine ⟨?_, ?_, ?_, ascending, rest.bounded.tail, ?_⟩
  · by_cases zero : chunk.last = 0
    · exact .inl zero
    · exact .inr ⟨by omega, rest.inside _ ordered (Int.le_refl _)⟩
  · intro number after
    have beyond : last < number := by
      rcases rest.above chunk mem_cons_self with zero | below <;> omega
    rw [rest.holds number beyond, holds_cons, or_iff_right]
    omega
  · intro number held
    apply rest.held
    rw [holds_cons]
    exact .inr held
  · intro other mem
    have apart := later other mem
    have ordered' := other.ordered
    exact .inr (by omega)

end

end Rest

lemma lastMissingLoop_spec {data : Block} {length position : Nat} {min max last : Int}
    {found : Int × Int} (layout : Layout data length position chunks) (positive : 1 ≤ min)
    (order : min ≤ max) (rest : Rest numbers last chunks)
    (upTo : FoundUpTo numbers min max last found) (fuel : Nat) (enough : chunks.length < fuel) :
    (∃ answer, lastMissingLoop junk length min max fuel data position last found =
        (data, none, answer) ∧ FoundLast numbers min max answer) ∨
      ∃ stop answer, lastMissingLoop junk length min max fuel data position last found =
        (data, some stop, answer) ∧ FoundUpTo numbers min max stop answer ∧
          Rest numbers stop [] := by
  induction chunks generalizing position last found fuel with
  | nil =>
    obtain ⟨fuel, rfl⟩ := Nat.exists_eq_add_of_lt enough
    have ends := layout.nil_ends
    right
    refine ⟨last, found, ?_, upTo, rest⟩
    rw [lastMissingLoop, if_neg (by omega)]
  | cons chunk chunks ih =>
    obtain ⟨fuel, rfl⟩ : ∃ rest, fuel = rest + 1 := ⟨fuel - 1, by omega⟩
    rw [length_cons] at enough
    have small := rest.bounded chunk mem_cons_self
    have nonnegative := chunk.nonnegative
    have ordered := chunk.ordered
    have noOverflow : add32 last 1 = last + 1 := by
      apply Int.bmod_eq_of_le
      · rcases rest.known with zero | ⟨above, -⟩ <;> omega
      · rcases rest.above chunk mem_cons_self with zero | below <;> omega
    have mem : last = 0 ∨ last ∈ numbers := rest.known.imp_right And.right
    have early : last + 1 > max → FoundLast numbers min max found := fun beyond =>
      upTo.all (by omega)
    have later := fun notBeyond : ¬ last + 1 > max =>
      upTo.step positive order mem rest.gap rest.inside notBeyond
    rcases layout_cases junk layout with
      ⟨before, touched, single, head, notNegative, width, next⟩ |
      ⟨before, touched, several, head, negative, touched', start, width, next⟩
    · simp only [lastMissingLoop, if_pos before, touched, head, notNegative, decide_false,
        Bool.false_eq_true, if_false, noOverflow]
      by_cases beyond : last + 1 > max
      · rw [if_pos beyond]
        exact .inl ⟨found, rfl, early beyond⟩
      · rw [if_neg beyond]
        have stepped := later beyond
        rw [← single] at stepped
        have next' := rest.next
        rw [← single] at next'
        exact ih next next' stepped fuel (by omega)
    · have sum : chunk.first + -(-(chunk.last - chunk.first)) = chunk.last := by omega
      simp only [lastMissingLoop, if_pos before, touched, head, negative, decide_true, if_true,
        touched', start, sum, noOverflow]
      by_cases beyond : last + 1 > max
      · rw [if_pos beyond]
        exact .inl ⟨found, rfl, early beyond⟩
      · rw [if_neg beyond]
        exact ih next rest.next (later beyond) fuel (by omega)

/-- `LastMissingRange` finds the last gap of an interval, or there is none. -/
theorem lastMissingRange_found (layout : Layout set.data set.length 0 chunks)
    (whole : Rest numbers 0 chunks) {min max : Int} (positive : 1 ≤ min) (order : min ≤ max)
    (small : max < 2 ^ 31) :
    ∃ found, lastMissingRange junk set min max = (set, 0, found) ∧
      FoundLast numbers min max found := by
  have nothing : FoundUpTo numbers min max 0 (0, 0) :=
    .inl ⟨rfl, fun number above _ within => by omega⟩
  rw [lastMissingRange, if_neg (by omega)]
  rcases lastMissingLoop_spec junk layout positive order whole nothing (set.length + 1)
      (Nat.lt_succ_of_le layout.count_le) with
    ⟨answer, run, foundLast⟩ | ⟨stop, answer, run, upTo, rest⟩
  · rw [run]
    exact ⟨answer, rfl, foundLast⟩
  · rw [run]
    by_cases tail : stop < max
    · have noOverflow : add32 stop 1 = stop + 1 := by
        apply Int.bmod_eq_of_le
        · rcases rest.known with zero | ⟨above, -⟩ <;> omega
        · omega
      refine ⟨(if stop + 1 > min then stop + 1 else min, max), ?_, .inr ?_⟩
      · simp only [if_pos tail, noOverflow]
      · obtain ⟨first, firstEq⟩ : ∃ first, first = if stop + 1 > min then stop + 1 else min :=
          ⟨_, rfl⟩
        rw [← firstEq]
        refine ⟨?_, ?_, Int.le_refl _, ?_, ?_, ?_⟩
        · change min ≤ first
          split at firstEq <;> omega
        · change first ≤ max
          split at firstEq <;> omega
        · intro number after _
          change first ≤ number at after
          have beyond : stop < number := by split at firstEq <;> omega
          rw [rest.holds number beyond]
          exact not_holds_nil number
        · change first = min ∨ first - 1 ∈ numbers
          split at firstEq
          · rcases rest.known with zero | ⟨-, mem⟩
            · omega
            · right
              rw [firstEq, Int.add_sub_cancel]
              exact mem
          · exact .inl firstEq
        · intro number after below
          change max < number at after
          omega
    · simp only [if_neg tail]
      exact ⟨answer, rfl, upTo.all (by omega)⟩

lemma lastMissingRange_spec (represents : RepresentsBelow limit set chunks numbers)
    (int32 : limit ≤ 2 ^ 31) {min max : Int} (positive : 1 ≤ min) (order : min ≤ max)
    (small : max < 2 ^ 31) :
    ∃ found, lastMissingRange junk set min max = (set, 0, found) ∧
      FoundLast numbers min max found :=
  lastMissingRange_found junk represents.layout (.start represents int32) positive order small

end MsgKeySet

end CommCentral.Base
