import CommCentral.Base.KeySetEdit
import CommCentral.Base.KeySetRange
import CommCentral.Lib.Run
import Mathlib.Order.Interval.Set.Basic
import Mathlib.Algebra.Order.Ring.Int

/-! `nsMsgKeySet` refines a set of integers. -/
namespace CommCentral.Base
open Lib List

/-- The calls that change a set or ask for a member. -/
inductive KeySetCall where
  | add (number : Int)
  | remove (number : Int)
  | addRange (start finish : Int)
  | isMember (number : Int)
deriving Repr, DecidableEq

namespace KeySetCall

/-- The set of integers after a call. -/
def meaning (numbers : Set Int) : KeySetCall → Set Int
  | add number => insert number numbers
  | remove number => numbers \ {number}
  | addRange start finish => numbers ∪ Set.Icc start finish
  | isMember _ => numbers

/-- The arguments are as the assertions ask for, and small enough for `int32_t`. -/
def Valid : KeySetCall → Prop
  | add number => 0 ≤ number ∧ number < 2 ^ 31 - 1
  | remove _ => True
  | addRange start finish => 0 ≤ start ∧ start ≤ finish ∧ finish < 2 ^ 31 - 1
  | isMember _ => True

end KeySetCall

namespace MsgKeySet

/-- `nsMsgKeySet()`. -/
def empty (junk : Junk) : MsgKeySet where
  data := ⟨(List.range initialSize).map junk.fresh, true⟩
  length := 0
  cachedValue := -1
  cachedValueIndex := 0

/-- The set after a call; `isMember` changes the cache. -/
def call (junk : Junk) (set : MsgKeySet) : KeySetCall → MsgKeySet
  | .add number => (add junk set number).1
  | .remove number => (remove junk set number).1
  | .addRange start finish => (addRange junk set start finish).1
  | .isMember number => (isMember junk set number).1

/-- The answers of `Add`, `Remove` and `IsMember` on a set of integers. -/
def Answers (junk : Junk) (set : MsgKeySet) (numbers : Set Int) : KeySetCall → Prop
  | .add number => ((add junk set number).2 = 1 ∧ number ∉ numbers) ∨
      ((add junk set number).2 = 0 ∧ number ∈ numbers)
  | .remove number => ((remove junk set number).2 = 1 ∧ number ∈ numbers) ∨
      ((remove junk set number).2 = 0 ∧ number ∉ numbers)
  | .addRange _ _ => True
  | .isMember number => (isMember junk set number).2 = true ↔ number ∈ numbers

/-- The words of the block are strictly increasing chunks with the numbers of the set. -/
def Denotes (set : MsgKeySet) (numbers : Set Int) : Prop :=
  ∃ chunks, Layout set.data set.length 0 chunks ∧ Ascending chunks ∧
    ∀ number, Holds chunks number ↔ number ∈ numbers

/-- The invariant of the runs: the numbers are below a limit, and also the place where a cached
search goes on is known. -/
structure RepresentsBelow (limit : Int) (set : MsgKeySet) (chunks : List Chunk)
    (numbers : Set Int) : Prop where
  layout : Layout set.data set.length 0 chunks
  ascending : Ascending chunks
  bounded : Bounded limit chunks
  holds : ∀ number, Holds chunks number ↔ number ∈ numbers
  room : 0 < set.data.size
  cache : 0 < set.cachedValue → ∃ front back, chunks = front ++ back ∧
    set.cachedValueIndex = (encode front).length ∧ ∀ chunk ∈ front, chunk.last < set.cachedValue

/-- With a limit that leaves room for the number after the last one. -/
abbrev Represents := RepresentsBelow (2 ^ 31 - 1)

variable (junk : Junk) {set : MsgKeySet} {chunks others : List Chunk}

lemma RepresentsBelow.denotes (represents : RepresentsBelow limit set chunks numbers) :
    Denotes set numbers :=
  ⟨chunks, represents.layout, represents.ascending, represents.holds⟩

private lemma negative_one : ¬ (0 : Int) < -1 := by decide

/-- Dropping the cache keeps everything else. -/
theorem RepresentsBelow.forget (represents : RepresentsBelow limit set chunks numbers) :
    RepresentsBelow limit { set with cachedValue := -1 } chunks numbers :=
  ⟨represents.layout, represents.ascending, represents.bounded, represents.holds, represents.room,
    fun positive => absurd positive negative_one⟩

/-- `Optimize` establishes the invariant. -/
theorem RepresentsBelow.optimize (int32 : limit ≤ 2 ^ 31)
    (layout : Layout set.data set.length 0 chunks)
    (ascending : Ascending chunks) (bounded : Bounded limit chunks)
    (holds : ∀ number, Holds chunks number ↔ number ∈ numbers) :
    ∃ others, RepresentsBelow limit (optimize junk set) others numbers := by
  obtain ⟨others, optimized⟩ := optimize_spec junk layout fun chunk mem =>
    Int.lt_of_lt_of_le (bounded chunk mem) int32
  obtain ⟨ascending', holds'⟩ := optimized.exact ascending
  refine ⟨others, optimized.layout, ascending', ?_, ?_, ?_, ?_⟩
  · exact Bounded.of_holds bounded (fun number => (holds' number).mp)
  · intro number
    rw [holds', holds]
  · rw [optimized.size]
    exact Nat.succ_pos _
  · rw [optimized.cache]
    intro positive
    exact absurd positive negative_one

lemma empty_represents : RepresentsBelow limit (empty junk) [] ∅ where
  layout := ⟨rfl, nil_prefix⟩
  ascending := List.Pairwise.nil
  bounded := by
    intro chunk mem
    cases mem
  holds := fun number => ⟨fun held => absurd held (not_holds_nil number), fun mem => mem.elim⟩
  room := by
    rw [Block.size, empty, length_map, length_range]
    decide
  cache := fun positive => absurd positive negative_one

/-- A cached search goes on behind chunks that end below the cached value. -/
def CacheWithin (set : MsgKeySet) (chunks : List Chunk) : Prop :=
  0 < set.cachedValue → ∃ front back, chunks = front ++ back ∧
    set.cachedValueIndex = (encode front).length ∧ ∀ chunk ∈ front, chunk.last < set.cachedValue

/-- `IsMember` stops where a search from the first chunk on stops, whatever shortcut earlier
calls left. -/
theorem isMember_scans (layout : Layout set.data set.length 0 chunks)
    (cache : CacheWithin set chunks) (number : Int) :
    ∃ front back, StopsAt number chunks front back ∧
      isMember junk set number = ({ set with
        cachedValue := number
        cachedValueIndex := (encode front).length }, startsBelow number back) := by
  obtain ⟨front, back, split, start, below⟩ : ∃ front back, chunks = front ++ back ∧
      (if set.cachedValue > 0 ∧ set.cachedValue < number then set.cachedValueIndex else 0) =
        (encode front).length ∧ ∀ chunk ∈ front, chunk.last < number := by
    split
    · rename_i cached
      obtain ⟨front, back, split, start, below⟩ := cache cached.1
      exact ⟨front, back, split, start, fun chunk mem => Int.lt_trans (below chunk mem) cached.2⟩
    · exact ⟨[], chunks, rfl, rfl, nofun⟩
  have whole : Layout set.data set.length 0 (front ++ back) := split ▸ layout
  have layout' := whole.append
  rw [Nat.zero_add] at layout'
  obtain ⟨passed, rest, stops, run⟩ := isMemberLoop_spec junk layout' number (set.length + 1)
    (Nat.lt_succ_of_le layout'.count_le)
  refine ⟨front ++ passed, rest, ⟨?_, ?_, stops.stopped⟩, ?_⟩
  · rw [split, stops.split, append_assoc]
  · intro chunk mem
    cases mem_append.mp mem with
    | inl mem => exact below chunk mem
    | inr mem => exact stops.passed chunk mem
  · rw [isMember, start, run, encode_append, length_append]

section

variable (represents : RepresentsBelow limit set chunks numbers)
include represents

lemma isMember_spec (number : Int) :
    ((isMember junk set number).2 = true ↔ number ∈ numbers) ∧
      RepresentsBelow limit (isMember junk set number).1 chunks numbers := by
  obtain ⟨front, back, stops, run⟩ := isMember_scans junk represents.layout represents.cache number
  rw [run]
  constructor
  · rw [← represents.holds, stops.holds_iff represents.ascending]
  · exact ⟨represents.layout, represents.ascending, represents.bounded, represents.holds,
      represents.room, fun _ => ⟨front, back, stops.split, rfl, stops.passed⟩⟩

lemma add_refines (int32 : limit ≤ 2 ^ 31) {number : Int} (nonnegative : 0 ≤ number)
    (small : number < limit) :
    (((add junk set number).2 = 1 ∧ number ∉ numbers) ∨
        ((add junk set number).2 = 0 ∧ number ∈ numbers)) ∧
      ∃ others, RepresentsBelow limit (add junk set number).1 others (insert number numbers) := by
  obtain ⟨front, back, stops, present, absent⟩ :=
    add_spec junk represents.layout represents.room nonnegative
  have member := stops.holds_iff represents.ascending
  rw [represents.holds] at member
  by_cases found : startsBelow number back = true
  · rw [present found]
    have inside := member.mpr found
    refine ⟨.inr ⟨rfl, inside⟩, chunks, ?_⟩
    rw [Set.insert_eq_of_mem inside]
    exact represents.forget
  · obtain ⟨edited, run, layout, _, _, _⟩ := absent found
    rw [run]
    refine ⟨.inl ⟨rfl, fun inside => found (member.mp inside)⟩, ?_⟩
    have ascending := represents.ascending
    have bounded := represents.bounded
    have holds := represents.holds
    rw [stops.split] at ascending bounded
    rw [ascending_append] at ascending
    obtain ⟨before, after, gap⟩ := ascending
    have above : ∀ chunk ∈ back, number < chunk.first := by
      intro chunk inside
      cases back with
      | nil => cases inside
      | cons first back =>
        have start : number < first.first := by
          simpa [startsBelow] using found
        cases mem_cons.mp inside with
        | inl same => rw [same]; exact start
        | inr later =>
          have ordered := first.ordered
          have next := ((ascending_cons ..).mp after).1 chunk later
          omega
    apply RepresentsBelow.optimize junk int32 layout
    · rw [ascending_append, ascending_append]
      refine ⟨before, ⟨pairwise_singleton _ _, after, ?_⟩, ?_⟩
      · intro literal inside later inside'
        rw [mem_singleton.mp inside]
        exact above later inside'
      · intro chunk inside later inside'
        cases mem_append.mp inside' with
        | inl same =>
          rw [mem_singleton.mp same]
          exact stops.passed chunk inside
        | inr inside' => exact gap chunk inside later inside'
    · apply Bounded.append bounded
      intro chunk inside
      rw [mem_singleton.mp inside]
      exact small
    · intro other
      rw [Set.mem_insert_iff, ← holds, stops.split]
      simp only [holds_append, holds_cons, not_holds_nil, or_false, Chunk.literal]
      rw [or_left_comm]
      apply or_congr_left
      omega

lemma remove_refines (int32 : limit ≤ 2 ^ 31) (number : Int) :
    (((remove junk set number).2 = 1 ∧ number ∈ numbers) ∨
        ((remove junk set number).2 = 0 ∧ number ∉ numbers)) ∧
      ∃ others, RepresentsBelow limit (remove junk set number).1 others (numbers \ {number}) := by
  rcases remove_spec junk represents.layout number with ⟨absent, run⟩ |
    ⟨edited, front, chunk, back, pieces, split, before, lower, upper, run, shortened⟩
  · rw [represents.holds] at absent
    rw [run]
    refine ⟨.inr ⟨rfl, absent⟩, chunks, ?_⟩
    rw [Set.sdiff_singleton_eq_self absent]
    exact represents.forget
  · have holds := represents.holds
    have ascending := represents.ascending
    have bounded := represents.bounded
    have remainder := shortened.remainder
    rw [split] at ascending bounded holds
    rw [ascending_append, ascending_append] at ascending
    obtain ⟨ascending₁, ⟨_, ascending₂, gap⟩, gap'⟩ := ascending
    have after : ¬ Holds back number := by
      intro held
      obtain ⟨other, mem, lower', _⟩ := (holds_iff ..).mp held
      have apart := gap chunk mem_cons_self other mem
      omega
    rw [run]
    refine ⟨.inl ⟨rfl, (holds number).mp ?_⟩, ?_⟩
    · simp only [holds_append, holds_cons]
      exact .inr (.inl (.inl ⟨lower, upper⟩))
    apply RepresentsBelow.optimize junk int32 shortened.layout
    · rw [ascending_append, ascending_append]
      refine ⟨ascending₁, ⟨remainder.ascending, ascending₂, ?_⟩, ?_⟩
      · intro piece mem later member'
        have apart := gap chunk mem_cons_self later member'
        have inner := (remainder.within mem).2
        omega
      · intro earlier mem piece member'
        cases mem_append.mp member' with
        | inl inside =>
          have apart := gap' earlier mem chunk (mem_append_left _ mem_cons_self)
          have inner := (remainder.within inside).1
          omega
        | inr inside => exact gap' earlier mem piece (mem_append_right _ inside)
    · exact remainder.bounded bounded
    · intro other
      rw [Set.mem_sdiff, Set.mem_singleton_iff, ← holds]
      simp only [holds_append, holds_cons, not_holds_nil, or_false, remainder.holds]
      constructor
      · rintro (held | ⟨inside, apart⟩ | held)
        · exact ⟨.inl held, fun same => before (same ▸ held)⟩
        · exact ⟨.inr (.inl inside), apart⟩
        · exact ⟨.inr (.inr held), fun same => after (same ▸ held)⟩
      · rintro ⟨held | inside | held, apart⟩
        · exact .inl held
        · exact .inr (.inl ⟨inside, apart⟩)
        · exact .inr (.inr held)

lemma addRange_refines (int32 : limit ≤ 2 ^ 31) {start finish : Int} (nonnegative : 0 ≤ start)
    (order : start ≤ finish) (small : finish < limit)
    (below : start < finish → Bounded (2 ^ 31 - 1) chunks) :
    ∃ others, RepresentsBelow limit (addRange junk set start finish).1 others
      (numbers ∪ Set.Icc start finish) := by
  rcases Int.lt_or_eq_of_le order with several | single
  · rcases addRange_spec junk represents.layout (below several).int32 nonnegative several with
      ⟨run, present⟩ | ⟨data, others, run, layout, size, _, exact⟩
    · rw [run, Set.union_eq_self_of_subset_right]
      · exact ⟨chunks, represents.forget⟩
      · intro number inside
        exact (represents.holds number).mp (present number inside.1 inside.2)
    · obtain ⟨union, ascending⟩ := exact (below several)
      rw [run]
      refine ⟨others, layout, ascending represents.ascending, ?_, ?_, ?_,
        fun positive => absurd positive negative_one⟩
      · intro other mem
        have inside : Holds others other.last :=
          (holds_iff ..).mpr ⟨other, mem, other.ordered, Int.le_refl _⟩
        rcases (union other.last).mp inside with held | ⟨_, upper⟩
        · obtain ⟨chunk, member', _, upper⟩ := (holds_iff ..).mp held
          exact Int.lt_of_le_of_lt upper (represents.bounded chunk member')
        · exact Int.lt_of_le_of_lt upper small
      · intro number
        rw [union, represents.holds]
        rfl
      · rw [size]
        exact Nat.succ_pos _
  · obtain ⟨_, others, represents'⟩ := add_refines junk represents.forget int32 nonnegative
      (Int.lt_of_le_of_lt order small)
    have run : addRange junk set start finish = add junk { set with cachedValue := -1 } start := by
      rw [addRange, if_neg (by omega), if_pos single]
    rw [run, ← single, Set.Icc_self, Set.union_singleton]
    exact ⟨others, represents'⟩

end

lemma call_refines (represents : Represents set chunks numbers) (request : KeySetCall)
    (valid : request.Valid) :
    Answers junk set numbers request ∧
      ∃ others, Represents (call junk set request) others (request.meaning numbers) := by
  have int32 : (2 ^ 31 - 1 : Int) ≤ 2 ^ 31 := by decide
  cases request with
  | add number => exact add_refines junk represents int32 valid.1 valid.2
  | remove number => exact remove_refines junk represents int32 number
  | addRange start finish =>
    exact ⟨trivial, addRange_refines junk represents int32 valid.1 valid.2.1 valid.2.2
      fun _ => represents.bounded⟩
  | isMember number =>
    obtain ⟨answer, represents'⟩ := isMember_spec junk represents number
    exact ⟨answer, chunks, represents'⟩

/-- The calls of a run, each with the values that the program does not determine in it. -/
abbrev KeySetSteps := List (KeySetCall × Junk)

def afterCalls (junk : Junk) (steps : KeySetSteps) : MsgKeySet :=
  run (fun set step => call step.2 set step.1) (empty junk) steps

/-- The set of integers that the calls describe. -/
def numbersAfter (steps : KeySetSteps) : Set Int :=
  run (fun numbers step => step.1.meaning numbers) ∅ steps

end MsgKeySet

end CommCentral.Base
