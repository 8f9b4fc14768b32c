import CommCentral.Base.KeySetMissing

/-! `CountMissingInRange` and `FirstMissingRange`: how many numbers of an interval are not in a
set, and the first ones of them. -/
namespace CommCentral.Base
open Lib List

namespace MsgKeySet

section
variable (junk : Junk)

def countMissingLoop (length : Nat) (rangeStart rangeEnd : Int) :
    Nat → Block → Nat → Int → Block × Int
  | 0, data, _, count => (data, count)
  | fuel + 1, data, tail, count =>
    if tail < length then
      let data := data.touch tail
      let head := data.word junk.outside tail
      if head < 0 then
        let data := data.touch (tail + 1)
        let first := data.word junk.outside (tail + 1)
        let last := first + -head
        let first := if first < rangeStart then rangeStart else first
        let last := if last > rangeEnd then rangeEnd else last
        countMissingLoop length rangeStart rangeEnd fuel data (tail + 2)
          (if last ≥ first then count - (last - first + 1) else count)
      else
        countMissingLoop length rangeStart rangeEnd fuel data (tail + 1)
          (if head ≥ rangeStart ∧ head ≤ rangeEnd then count - 1 else count)
    else (data, count)

def countMissingInRange (set : MsgKeySet) (rangeStart rangeEnd : Int) : MsgKeySet × Int :=
  if rangeStart < 0 ∨ rangeEnd < 0 ∨ rangeEnd < rangeStart then (set, -1)
  else
    let (data, count) := countMissingLoop junk set.length rangeStart rangeEnd (set.length + 1)
      set.data 0 (rangeEnd - rangeStart + 1)
    ({ set with data := data }, count)

/-- The loop of `FirstMissingRange`: `last` is where the chunk before ends. It returns early with
`*first` and `*last`, or goes over all chunks. -/
def firstMissingLoop (length : Nat) (min max : Int) :
    Nat → Block → Nat → Int → Block × Int × Option (Int × Int)
  | 0, data, _, last => (data, last, none)
  | fuel + 1, data, tail, last =>
    if tail < length then
      let a := add32 last 1
      let data := data.touch tail
      let head := data.word junk.outside tail
      let isRange := decide (head < 0)
      let data := if isRange then data.touch (tail + 1) else data
      let first := if isRange then data.word junk.outside (tail + 1) else head
      let last := if isRange then first + -head else head
      let next := if isRange then tail + 2 else tail + 1
      let b := first - 1
      if a > max then (data, last, some (0, 0))
      else if a ≤ b ∧ b ≥ min then
        (data, last, some (if a > min then a else min, if b < max then b else max))
      else firstMissingLoop length min max fuel data next last
    else (data, last, none)

/-- `FirstMissingRange`: the status, and `*first` and `*last`. -/
def firstMissingRange (set : MsgKeySet) (min max : Int) : MsgKeySet × Int × Int × Int :=
  if min > max ∨ min ≤ 0 then (set, -1, 0, 0)
  else
    match firstMissingLoop junk set.length min max (set.length + 1) set.data 0 0 with
    | (data, _, some found) => ({ set with data := data }, 0, found)
    | (data, last, none) =>
      let a := add32 last 1
      ({ set with data := data }, 0, if a > min then a else min, max)

end

end MsgKeySet

/-- The first interval of numbers between two bounds that are not in a set: all numbers on its
left are in the set, and it cannot be made larger on the right. -/
structure FirstGap (numbers : Set Int) (min max first last : Int) : Prop where
  lower : min ≤ first
  order : first ≤ last
  upper : last ≤ max
  missing : ∀ number, first ≤ number → number ≤ last → number ∉ numbers
  left : ∀ number, min ≤ number → number < first → number ∈ numbers
  right : last = max ∨ last + 1 ∈ numbers

lemma FirstGap.not_full {numbers : Set Int} {min max first last : Int}
    (gap : FirstGap numbers min max first last) :
    ¬ ∀ number, min ≤ number → number ≤ max → number ∈ numbers := by
  intro full
  have order := gap.order
  have upper := gap.upper
  exact gap.missing first (Int.le_refl _) order (full first gap.lower (by omega))

namespace MsgKeySet

/-- The answer that is asked of `FirstMissingRange`. -/
def FoundFirst (numbers : Set Int) (min max : Int) (found : Int × Int) : Prop :=
  (found = (0, 0) ∧ ∀ number, min ≤ number → number ≤ max → number ∈ numbers) ∨
    FirstGap numbers min max found.1 found.2

/-- All numbers between the bounds are in the set, and the upper one is in its last chunk. -/
def SwallowedAtEnd (set : MsgKeySet) (min max : Int) : Prop :=
  (∀ number, min ≤ number → number ≤ max → number ∈ set.members) ∧
    ∀ last ∈ set.ranges.getLast?, last.1 ≤ max ∧ max ≤ last.2

variable (junk : Junk) {set : MsgKeySet} {chunks : List Chunk}

def missing (chunks : List Chunk) (rangeStart rangeEnd : Int) : Set Int :=
  {number ∈ Set.Icc rangeStart rangeEnd | ¬ Holds chunks number}

lemma missing_finite (chunks) (rangeStart rangeEnd : Int) :
    (missing chunks rangeStart rangeEnd).Finite :=
  (Set.finite_Icc rangeStart rangeEnd).subset (Set.sep_subset _ _)

lemma ncard_interval (first last : Int) : (Set.Icc first last).ncard = (last + 1 - first).toNat := by
  rw [← Finset.coe_Icc, Set.ncard_coe_finset, Int.card_Icc]

/-- A chunk before the others takes its part of the interval away. -/
theorem ncard_missing_cons {chunk : Chunk} (apart : ∀ later ∈ chunks, chunk.last < later.first)
    (rangeStart rangeEnd : Int) :
    ((missing (chunk :: chunks) rangeStart rangeEnd).ncard : Int) =
      (missing chunks rangeStart rangeEnd).ncard -
        (min chunk.last rangeEnd + 1 - max chunk.first rangeStart).toNat := by
  obtain ⟨inside, same⟩ : ∃ inside, inside =
      Set.Icc (max chunk.first rangeStart) (min chunk.last rangeEnd) := ⟨_, rfl⟩
  have within : inside ⊆ missing chunks rangeStart rangeEnd := by
    rw [same]
    rintro number ⟨lower, upper⟩
    refine ⟨⟨by omega, by omega⟩, ?_⟩
    intro held
    obtain ⟨later, mem, above, -⟩ := (holds_iff ..).mp held
    have beyond := apart later mem
    omega
  have rest : missing (chunk :: chunks) rangeStart rangeEnd =
      missing chunks rangeStart rangeEnd \ inside := by
    ext number
    simp only [missing, same, Set.mem_sdiff, Set.mem_ofPred_eq, Set.mem_Icc, holds_cons]
    constructor
    · rintro ⟨bounds, absent⟩
      rw [not_or] at absent
      refine ⟨⟨bounds, absent.2⟩, ?_⟩
      omega
    · rintro ⟨⟨bounds, absent⟩, outside⟩
      refine ⟨bounds, ?_⟩
      rw [not_or]
      exact ⟨by omega, absent⟩
  have count := Set.ncard_sdiff_add_ncard_of_subset within (missing_finite chunks _ _)
  have size : inside.ncard = (min chunk.last rangeEnd + 1 - max chunk.first rangeStart).toNat := by
    rw [same, ncard_interval]
  rw [rest]
  omega

lemma countMissingLoop_spec {data : Block} {length position : Nat}
    (layout : Layout data length position chunks) (ascending : Ascending chunks)
    (rangeStart rangeEnd count : Int) (fuel : Nat) (enough : chunks.length < fuel) :
    countMissingLoop junk length rangeStart rangeEnd fuel data position count =
      (data, count - ((Set.Icc rangeStart rangeEnd).ncard -
        (missing chunks rangeStart rangeEnd).ncard)) := by
  induction chunks generalizing position count fuel with
  | nil =>
    obtain ⟨fuel, rfl⟩ := Nat.exists_eq_add_of_lt enough
    have ends := layout.nil_ends
    have all : missing [] rangeStart rangeEnd = Set.Icc rangeStart rangeEnd :=
      Set.sep_eq_self_iff_mem_true.mpr fun number _ => not_holds_nil number
    rw [countMissingLoop, if_neg (by omega), all, Int.sub_self, Int.sub_zero]
  | cons chunk chunks ih =>
    obtain ⟨fuel, rfl⟩ : ∃ rest, fuel = rest + 1 := ⟨fuel - 1, by omega⟩
    rw [length_cons] at enough
    obtain ⟨apart, ascending'⟩ := (ascending_cons ..).mp ascending
    have taken := ncard_missing_cons apart rangeStart rangeEnd
    rcases layout_cases junk layout with
      ⟨before, touched, single, head, notNegative, width, next⟩ |
      ⟨before, touched, several, head, negative, touched', start, width, next⟩
    · simp only [countMissingLoop, if_pos before, touched, head, if_neg notNegative]
      rw [ih next ascending' _ fuel (by omega)]
      congr 1
      by_cases inside : chunk.first ≥ rangeStart ∧ chunk.first ≤ rangeEnd
      · rw [if_pos inside]
        omega
      · rw [if_neg inside]
        omega
    · have sum : chunk.first + -(-(chunk.last - chunk.first)) = chunk.last := by omega
      simp only [countMissingLoop, if_pos before, touched, head, if_pos negative, touched', start,
        sum]
      rw [ih next ascending' _ fuel (by omega)]
      congr 1
      have lower : (if chunk.first < rangeStart then rangeStart else chunk.first) =
          max chunk.first rangeStart := by
        split <;> omega
      have upper : (if chunk.last > rangeEnd then rangeEnd else chunk.last) =
          min chunk.last rangeEnd := by
        split <;> omega
      rw [lower, upper]
      by_cases meets : min chunk.last rangeEnd ≥ max chunk.first rangeStart
      · rw [if_pos meets]
        omega
      · rw [if_neg meets]
        omega

lemma countMissingInRange_spec (layout : Layout set.data set.length 0 chunks)
    (ascending : Ascending chunks) {rangeStart rangeEnd : Int} (nonnegative : 0 ≤ rangeStart)
    (order : rangeStart ≤ rangeEnd) :
    countMissingInRange junk set rangeStart rangeEnd =
      (set, ((missing chunks rangeStart rangeEnd).ncard : Int)) := by
  rw [countMissingInRange, if_neg (by omega)]
  simp only [countMissingLoop_spec junk layout ascending rangeStart rangeEnd _ (set.length + 1)
    (Nat.lt_succ_of_le layout.count_le), ncard_interval]
  congr 1
  omega

/-- All numbers of an interval are in a set, up to where a chunk ends. -/
def FullUpTo (numbers : Set Int) (min max reached : Int) : Prop :=
  ∀ number, min ≤ number → number ≤ max → number ≤ reached → number ∈ numbers

section

variable {min max last : Int} {chunk : Chunk} (full : FullUpTo numbers min max last)
include full

lemma FullUpTo.gap (order : min ≤ max)
    (gap : ∀ number, last < number → number < chunk.first → number ∉ numbers)
    (inside : chunk.first ∈ numbers) (more : ¬ last + 1 > max) (wide : last + 1 ≤ chunk.first - 1)
    (above : chunk.first - 1 ≥ min) :
    FirstGap numbers min max (if last + 1 > min then last + 1 else min)
      (if chunk.first - 1 < max then chunk.first - 1 else max) := by
  obtain ⟨start, startEq⟩ : ∃ start, start = if last + 1 > min then last + 1 else min := ⟨_, rfl⟩
  obtain ⟨stop, stopEq⟩ : ∃ stop, stop = if chunk.first - 1 < max then chunk.first - 1 else max :=
    ⟨_, rfl⟩
  rw [← startEq, ← stopEq]
  refine ⟨?_, ?_, ?_, ?_, ?_, ?_⟩
  · split at startEq <;> omega
  · split at startEq <;> split at stopEq <;> omega
  · split at stopEq <;> omega
  · intro number after before
    apply gap number
    · split at startEq <;> omega
    · split at stopEq <;> omega
  · intro number lower before
    apply full number lower
    · split at startEq <;> omega
    · split at startEq <;> omega
  · split at stopEq
    · right
      rw [stopEq, Int.sub_add_cancel]
      exact inside
    · exact .inl stopEq

/-- Where the interval meets no gap, it is full up to the end of the chunk. -/
theorem FullUpTo.next
    (held : ∀ number, chunk.first ≤ number → number ≤ chunk.last → number ∈ numbers)
    (none : ¬ (last + 1 ≤ chunk.first - 1 ∧ chunk.first - 1 ≥ min)) :
    FullUpTo numbers min max chunk.last := by
  intro number lower upper within
  by_cases early : number ≤ last
  · exact full number lower upper early
  · apply held number _ within
    omega

end

def LastStartsAbove (chunks : List Chunk) (number : Int) : Prop :=
  ∃ last ∈ chunks.getLast?, number < last.first

lemma LastStartsAbove.cons {chunk : Chunk} {number : Int} (above : number < chunk.first)
    (ascending : Ascending (chunk :: chunks)) : LastStartsAbove (chunk :: chunks) number := by
  obtain ⟨last, found⟩ : ∃ last, (chunk :: chunks).getLast? = some last :=
    ⟨_, getLast?_eq_getLast_of_ne_nil (cons_ne_nil _ _)⟩
  refine ⟨last, found, ?_⟩
  rcases mem_cons.mp (mem_of_getLast? found) with rfl | later
  · exact above
  · have apart := ((ascending_cons ..).mp ascending).1 last later
    have ordered := chunk.ordered
    omega

/-- The outcomes of the loop. -/
inductive FirstScan (numbers : Set Int) (min max : Int) (chunks : List Chunk) (stop : Int) :
    Option (Int × Int) → Prop where
  | beyond (full : FullUpTo numbers min max max) (later : LastStartsAbove chunks max) :
      FirstScan numbers min max chunks stop (some (0, 0))
  | gap {first last : Int} (found : FirstGap numbers min max first last) :
      FirstScan numbers min max chunks stop (some (first, last))
  | through (full : FullUpTo numbers min max stop) (rest : Rest numbers stop [])
      (last : ∀ last ∈ chunks.getLast?, last.last = stop ∧ (max ≤ stop → last.first ≤ max)) :
      FirstScan numbers min max chunks stop none

lemma FirstScan.cons {min max last stop : Int} {answer : Option (Int × Int)}
    {chunk : Chunk} (scan : FirstScan numbers min max chunks stop answer) (order : min ≤ max)
    (rest : Rest numbers last (chunk :: chunks)) (more : ¬ last + 1 > max)
    (none : chunks = [] → stop = chunk.last) :
    FirstScan numbers min max (chunk :: chunks) stop answer := by
  cases scan with
  | beyond full later =>
    refine .beyond full ?_
    obtain ⟨final, found, above⟩ := later
    exact ⟨final, mem_getLast?_cons found, above⟩
  | gap found => exact .gap found
  | through full done last =>
    refine .through full done ?_
    cases chunks with
    | nil =>
      rintro _ ⟨⟩
      refine ⟨(none rfl).symm, fun reached => ?_⟩
      have held := (rest.holds max (by omega)).mp (full max order (Int.le_refl _) reached)
      rw [holds_cons, or_iff_left (not_holds_nil _)] at held
      exact held.1
    | cons next later => exact last

lemma firstMissingLoop_spec {data : Block} {length position : Nat} {numbers : Set Int}
    {min max last : Int} (layout : Layout data length position chunks) (positive : 1 ≤ min)
    (order : min ≤ max) (rest : Rest numbers last chunks) (full : FullUpTo numbers min max last)
    (apart : last = 0 ∨ ∀ chunk ∈ chunks, last < chunk.first) (fuel : Nat)
    (enough : chunks.length < fuel) :
    ∃ stop answer, firstMissingLoop junk length min max fuel data position last =
        (data, stop, answer) ∧ FirstScan numbers min max chunks stop answer ∧
        (chunks = [] → stop = last) := by
  induction chunks generalizing position last fuel with
  | nil =>
    obtain ⟨fuel, rfl⟩ := Nat.exists_eq_add_of_lt enough
    have ends := layout.nil_ends
    refine ⟨last, none, ?_, .through full rest (fun _ none => by cases none), fun _ => rfl⟩
    rw [firstMissingLoop, if_neg (by omega)]
  | cons chunk chunks ih =>
    obtain ⟨fuel, rfl⟩ : ∃ rest, fuel = rest + 1 := ⟨fuel - 1, by omega⟩
    rw [length_cons] at enough
    have small := rest.bounded chunk mem_cons_self
    have nonnegative := chunk.nonnegative
    have ordered := chunk.ordered
    have noOverflow : add32 last 1 = last + 1 := by
      apply Int.bmod_eq_of_le
      · rcases rest.known with zero | ⟨above, -⟩ <;> omega
      · rcases rest.above chunk mem_cons_self with zero | below <;> omega
    have apart' : chunk.last = 0 ∨ ∀ later ∈ chunks, chunk.last < later.first :=
      .inr ((ascending_cons ..).mp rest.ascending).1
    have outcome : ∀ next, Layout data length next chunks →
        firstMissingLoop junk length min max (fuel + 1) data position last =
          (if last + 1 > max then (data, chunk.last, some (0, 0))
          else if last + 1 ≤ chunk.first - 1 ∧ chunk.first - 1 ≥ min then
            (data, chunk.last, some (if last + 1 > min then last + 1 else min,
              if chunk.first - 1 < max then chunk.first - 1 else max))
          else firstMissingLoop junk length min max fuel data next chunk.last) →
        ∃ stop answer, firstMissingLoop junk length min max (fuel + 1) data position last =
            (data, stop, answer) ∧ FirstScan numbers min max (chunk :: chunks) stop answer ∧
            (chunk :: chunks = [] → stop = last) := by
      intro next layout' run
      by_cases beyond : last + 1 > max
      · rw [if_pos beyond] at run
        refine ⟨_, _, run, .beyond ?_ ?_, fun none => absurd none (cons_ne_nil _ _)⟩
        · exact fun number lower upper _ => full number lower upper (by omega)
        · apply LastStartsAbove.cons _ rest.ascending
          rcases apart with zero | above
          · omega
          · have starts := above chunk mem_cons_self
            omega
      · rw [if_neg beyond] at run
        by_cases meets : last + 1 ≤ chunk.first - 1 ∧ chunk.first - 1 ≥ min
        · rw [if_pos meets] at run
          have inside := rest.inside chunk.first (Int.le_refl _) ordered
          exact ⟨_, _, run, .gap (full.gap order rest.gap inside beyond meets.1 meets.2),
            fun none => absurd none (cons_ne_nil _ _)⟩
        · rw [if_neg meets] at run
          obtain ⟨stop, answer, later, scan, ends⟩ :=
            ih layout' rest.next (full.next rest.inside meets) apart' fuel (by omega)
          exact ⟨stop, answer, run.trans later, scan.cons order rest beyond ends,
            fun none => absurd none (cons_ne_nil _ _)⟩
    rcases layout_cases junk layout with
      ⟨before, touched, single, head, notNegative, width, next⟩ |
      ⟨before, touched, several, head, negative, touched', start, width, next⟩
    · apply outcome _ next
      simp only [firstMissingLoop, if_pos before, touched, head, notNegative, decide_false,
        Bool.false_eq_true, if_false, noOverflow, ← single]
    · have sum : chunk.first + -(-(chunk.last - chunk.first)) = chunk.last := by omega
      apply outcome _ next
      simp only [firstMissingLoop, if_pos before, touched, head, negative, decide_true, if_true,
        touched', start, sum, noOverflow]

lemma firstMissingRange_spec (layout : Layout set.data set.length 0 chunks)
    (rest : Rest set.members 0 chunks) {min max : Int} (positive : 1 ≤ min) (order : min ≤ max)
    (small : max < 2 ^ 31) :
    ∃ found, firstMissingRange junk set min max = (set, 0, found) ∧
      (FoundFirst set.members min max found ↔ ¬ SwallowedAtEnd set min max) := by
  have nothing : FullUpTo set.members min max 0 := fun number lower _ within => by omega
  have ranges : set.ranges.getLast? = chunks.getLast?.map Chunk.bounds := by
    rw [ranges_eq layout, getLast?_map]
  obtain ⟨stop, answer, run, scan, -⟩ := firstMissingLoop_spec junk layout positive order rest
    nothing (.inl rfl) (set.length + 1) (Nat.lt_succ_of_le layout.count_le)
  rw [firstMissingRange, if_neg (by omega), run]
  cases scan with
  | beyond full later =>
    refine ⟨_, rfl, iff_of_true (.inl ⟨rfl, fun number lower upper => ?_⟩) ?_⟩
    · exact full number lower upper upper
    · rintro ⟨-, swallowed⟩
      obtain ⟨last, found, above⟩ := later
      have inside := swallowed last.bounds (by rw [ranges, found]; rfl)
      exact absurd inside.1 (Int.not_le.mpr above)
  | gap found => exact ⟨_, rfl, iff_of_true (.inr found) fun swallowed => found.not_full swallowed.1⟩
  | through full done last =>
    refine ⟨_, rfl, ?_⟩
    by_cases short : stop < max
    · have noOverflow : add32 stop 1 = stop + 1 := by
        apply Int.bmod_eq_of_le
        · rcases done.known with zero | ⟨above, -⟩ <;> omega
        · omega
      have outside : max ∉ set.members := by
        rw [done.holds max short]
        exact not_holds_nil max
      refine iff_of_true (.inr ?_) fun swallowed => outside (swallowed.1 max order (Int.le_refl _))
      rw [noOverflow]
      obtain ⟨first, firstEq⟩ : ∃ first, first = if stop + 1 > min then stop + 1 else min :=
        ⟨_, rfl⟩
      rw [← firstEq]
      refine ⟨?_, ?_, Int.le_refl _, ?_, ?_, .inl rfl⟩
      · change min ≤ first
        split at firstEq <;> omega
      · change first ≤ max
        split at firstEq <;> omega
      · intro number after _
        change first ≤ number at after
        have beyond : stop < number := by split at firstEq <;> omega
        rw [done.holds number beyond]
        exact not_holds_nil number
      · intro number lower before
        change number < first at before
        apply full number lower
        · split at firstEq <;> omega
        · split at firstEq <;> omega
    · have reached := Int.not_lt.mp short
      have all : ∀ number, min ≤ number → number ≤ max → number ∈ set.members :=
        fun number lower upper => full number lower upper (by omega)
      have swallowed : SwallowedAtEnd set min max := by
        refine ⟨all, ?_⟩
        rw [ranges]
        intro range mem
        obtain ⟨chunk, found, rfl⟩ := Option.mem_map.mp mem
        obtain ⟨ends, starts⟩ := last chunk found
        exact ⟨starts reached, by rw [Chunk.bounds, ends]; exact reached⟩
      refine iff_of_false ?_ (not_not.mpr swallowed)
      rintro (⟨zeros, -⟩ | gap)
      · have zero : max = 0 := congrArg Prod.snd zeros
        omega
      · exact gap.not_full all

/-- For increasing chunks `LastMissingRange` and `CountMissingInRange` are always right, and
`FirstMissingRange` is right exactly if the interval is not swallowed by the last chunk. -/
theorem missingRanges_exact (junk : Junk) {set : MsgKeySet} {numbers : Set Int}
    (denotes : Denotes set numbers) (int32 : set.Representable) {min max : Int} (positive : 0 < min)
    (order : min ≤ max) (small : max < 2 ^ 31) :
    (FoundFirst numbers min max (firstMissingRange junk set min max).2.2 ∧
        FoundLast numbers min max (lastMissingRange junk set min max).2.2 ∧
        (countMissingInRange junk set min max).2 = (Set.Icc min max \ numbers).ncard ∧
        ((countMissingInRange junk set min max).2 = 0 ↔
          (firstMissingRange junk set min max).2.2 = (0, 0))) ↔
      ¬ SwallowedAtEnd set min max := by
  obtain ⟨chunks, layout, ascending, holds⟩ := denotes
  have members : set.members = numbers := by
    ext number
    rw [mem_members layout, holds]
  subst members
  have rest : Rest set.members 0 chunks := .whole ascending (int32.bounded layout) holds
  obtain ⟨found, run, exact⟩ := firstMissingRange_spec junk layout rest positive order small
  obtain ⟨found', run', last⟩ := lastMissingRange_found junk layout rest positive order small
  have counted : (countMissingInRange junk set min max).2 = (Set.Icc min max \ set.members).ncard := by
    rw [countMissingInRange_spec junk layout ascending (by omega) order]
    have same : missing chunks min max = Set.Icc min max \ set.members := by
      ext number
      rw [missing, Set.mem_sdiff, ← holds]
      rfl
    rw [same]
  rw [run, run']
  constructor
  · rintro ⟨first, -⟩
    exact exact.mp first
  · intro notSwallowed
    have first := exact.mpr notSwallowed
    refine ⟨first, last, counted, ?_⟩
    rw [counted, Int.natCast_eq_zero, Set.ncard_eq_zero ((Set.finite_Icc min max).subset Set.sdiff_subset),
      Set.sdiff_eq_empty]
    rcases first with ⟨zeros, full⟩ | gap
    · exact iff_of_true (fun number within => full number within.1 within.2) zeros
    · refine iff_of_false (fun full => gap.not_full fun number lower upper => full ⟨lower, upper⟩) ?_
      intro zeros
      have zero : found.1 = 0 := congrArg Prod.fst zeros
      have lower := gap.lower
      omega

private def zeroJunk : Junk := ⟨fun _ => 0, fun _ => 0, fun _ => 0⟩

instance (chunks : List Chunk) : Decidable (Ascending chunks) :=
  inferInstanceAs (Decidable (List.Pairwise _ chunks))

private lemma create_denotes (numbers : List Char)
    (ascending : Ascending (readChunks ((skipSpace numbers).length + 1) (skipSpace numbers))) :
    Denotes (create zeroJunk numbers)
      {number | Holds (readChunks ((skipSpace numbers).length + 1) (skipSpace numbers)) number} :=
  ⟨_, (create_spec zeroJunk numbers).layout, ascending, fun _ => Iff.rfl⟩

/-- `2-5` and the interval from 1 to 7. -/
theorem missingRanges_exact_range :
    let set := create zeroJunk ['2', '-', '5']
    let numbers := {number | Holds (readChunks 4 ['2', '-', '5']) number}
    (FoundFirst numbers 1 7 (firstMissingRange zeroJunk set 1 7).2.2 ∧
        FoundLast numbers 1 7 (lastMissingRange zeroJunk set 1 7).2.2 ∧
        (countMissingInRange zeroJunk set 1 7).2 = (Set.Icc 1 7 \ numbers).ncard ∧
        ((countMissingInRange zeroJunk set 1 7).2 = 0 ↔
          (firstMissingRange zeroJunk set 1 7).2.2 = (0, 0))) ↔
      ¬ SwallowedAtEnd set 1 7 :=
  missingRanges_exact zeroJunk (create_denotes _ (by decide)) (by decide) (by decide) (by decide)
    (by decide)

/-- `5-10` and the interval from 6 to 8: nothing is missing, and the answer is 11 and 8. -/
theorem firstMissingRange_swallowed :
    ¬ ∀ (junk : Junk) (set : MsgKeySet) (numbers : Set Int), Denotes set numbers →
      set.Representable → ∀ min max : Int, 0 < min → min ≤ max → max < 2 ^ 31 →
        FoundFirst numbers min max (firstMissingRange junk set min max).2.2 ∧
          FoundLast numbers min max (lastMissingRange junk set min max).2.2 ∧
          (countMissingInRange junk set min max).2 = (Set.Icc min max \ numbers).ncard ∧
          ((countMissingInRange junk set min max).2 = 0 ↔
            (firstMissingRange junk set min max).2.2 = (0, 0)) := by
  intro always
  have answer : (firstMissingRange zeroJunk (create zeroJunk ['5', '-', '1', '0']) 6 8).2.2 =
      (11, 8) := by decide
  obtain ⟨first, -⟩ := always zeroJunk _ _ (create_denotes ['5', '-', '1', '0'] (by decide))
    (by decide) 6 8 (by decide) (by decide) (by decide)
  rw [answer] at first
  rcases first with ⟨zeros, -⟩ | gap
  · cases zeros
  · exact absurd gap.order (by decide)

end MsgKeySet

end CommCentral.Base
