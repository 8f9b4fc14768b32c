import CommCentral.Base.KeySetEdit
import CommCentral.Base.KeySetCreate
import CommCentral.Base.KeySetRange
import CommCentral.Lib.Run

/-! The indices of `m_data` that the operations of `nsMsgKeySet` use. -/
namespace CommCentral.Base
open Lib List

/-- The ranges of numbers that words stand for. -/
def decode : List Int → List (Int × Int)
  | [] => []
  | [head] => if head < 0 then [] else [(head, head)]
  | head :: next :: rest =>
    if head < 0 then (next, next + -head) :: decode rest else (head, head) :: decode (next :: rest)

lemma decode_literal {head : Int} (nonnegative : ¬ head < 0) (rest) :
    decode (head :: rest) = (head, head) :: decode rest := by
  cases rest with
  | nil => simp [decode, nonnegative]
  | cons next rest => rw [decode, if_neg nonnegative]

lemma decode_encode (chunks) : decode (encode chunks) = chunks.map Chunk.bounds := by
  induction chunks with
  | nil => rfl
  | cons chunk chunks ih =>
    rw [encode_cons, map_cons]
    rcases Int.lt_or_eq_of_le chunk.ordered with several | single
    · have last : chunk.first + -(-(chunk.last - chunk.first)) = chunk.last := by omega
      rw [Chunk.words_range several, cons_append, singleton_append, decode,
        if_pos (by omega), ih, last, Chunk.bounds]
    · have nonnegative := chunk.nonnegative
      rw [Chunk.words_literal single, singleton_append, decode_literal (by omega), ih,
        Chunk.bounds, ← single]

/-- The operations that follow `Create`. -/
inductive KeySetEdit where
  | add (number : Int)
  | remove (number : Int)
  | addRange (start finish : Int)
  | setLastMember (newHighWaterMark : Int)
deriving Repr, DecidableEq

namespace MsgKeySet

def ranges (set : MsgKeySet) : List (Int × Int) := decode (set.data.words.take set.length)

/-- Every number of the set is an `int32_t`. -/
def Representable (set : MsgKeySet) : Prop := ∀ range ∈ set.ranges, range.2 < 2 ^ 31

/-- The last word is not a literal 0 behind other words. -/
def EndsPositive (set : MsgKeySet) : Prop := ∀ range ∈ set.ranges.tail.getLast?, 0 < range.2

/-- The block has room for what `Remove` does to the range with the number. -/
def RemoveFits (set : MsgKeySet) (number : Int) : Prop :=
  ∀ range ∈ set.ranges.find? (fun range => range.1 ≤ number && number ≤ range.2),
    range.1 < range.2 →
      RangeRoom set.data.size set.length range.1 range.2 number set.EndsPositive

/-- The arguments are `int32_t` numbers that the assertions allow, and `Remove` has room. -/
def Fits (set : MsgKeySet) : KeySetEdit → Prop
  | .add number => set.Representable ∧ number < 2 ^ 31
  | .remove number => set.Representable ∧ set.RemoveFits number
  | .addRange start finish => set.Representable ∧ (start < finish → 0 ≤ start) ∧ finish < 2 ^ 31
  | .setLastMember _ => True

instance (set : MsgKeySet) : Decidable set.Representable :=
  inferInstanceAs (Decidable (∀ range ∈ set.ranges, range.2 < 2 ^ 31))

instance (set : MsgKeySet) : Decidable set.EndsPositive :=
  inferInstanceAs (Decidable (∀ range ∈ set.ranges.tail.getLast?, 0 < range.2))

instance (set : MsgKeySet) (number : Int) : Decidable (set.RemoveFits number) :=
  Option.decidableForallMem _

instance (set : MsgKeySet) (request : KeySetEdit) : Decidable (set.Fits request) :=
  match request with
  | .add _ => inferInstanceAs (Decidable (_ ∧ _))
  | .remove _ => inferInstanceAs (Decidable (_ ∧ _))
  | .addRange .. => inferInstanceAs (Decidable (_ ∧ (_ → _) ∧ _))
  | .setLastMember _ => inferInstanceAs (Decidable True)

def edit (junk : Junk) (set : MsgKeySet) : KeySetEdit → MsgKeySet
  | .add number => (add junk set number).1
  | .remove number => (remove junk set number).1
  | .addRange start finish => (addRange junk set start finish).1
  | .setLastMember newHighWaterMark => setLastMember junk set newHighWaterMark

/-- Every index was inside the block, and the words in use are inside it. -/
def WithinAllocation (set : MsgKeySet) : Prop :=
  set.data.inBounds = true ∧ set.length ≤ set.data.size

instance (set : MsgKeySet) : Decidable set.WithinAllocation := inferInstanceAs (Decidable (_ ∧ _))

/-- The invariant of the runs. -/
structure Sound (set : MsgKeySet) (chunks : List Chunk) : Prop where
  layout : Layout set.data set.length 0 chunks
  room : 0 < set.data.size
  spare : 0 < set.length → 2 ≤ set.data.size
  inBounds : set.data.inBounds = true

variable (junk : Junk) {set : MsgKeySet} {chunks : List Chunk}

lemma Sound.withinAllocation (sound : Sound set chunks) : WithinAllocation set :=
  ⟨sound.inBounds, sound.layout.le_size (Nat.zero_le _)⟩

lemma Sound.forget (sound : Sound set chunks) : Sound { set with cachedValue := -1 } chunks :=
  ⟨sound.layout, sound.room, sound.spare, sound.inBounds⟩

lemma ranges_eq (layout : Layout set.data set.length 0 chunks) :
    set.ranges = chunks.map Chunk.bounds := by
  obtain ⟨rest, shape, ends⟩ := layout.shape
  rw [ranges, shape, ← ends, take_left, decode_encode]

lemma Representable.bounded (representable : set.Representable)
    (layout : Layout set.data set.length 0 chunks) : Bounded (2 ^ 31) chunks := by
  intro chunk mem
  apply representable (chunk.first, chunk.last)
  rw [ranges_eq layout]
  exact mem_map_of_mem mem

lemma Sound.optimize (layout : Layout set.data set.length 0 chunks)
    (bounded : Bounded (2 ^ 31) chunks)
    (room : set.length < set.data.size ∨ EndsNonzero chunks.tail) (inBounds : set.data.inBounds = true) :
    ∃ others, Sound (optimize junk set) others := by
  obtain ⟨others, optimized⟩ := optimize_spec junk layout bounded
  have size := optimized.size
  have shorter := optimized.shorter
  exact ⟨others, optimized.layout, by omega, by omega, optimized.inBounds room inBounds⟩

lemma add_sound (sound : Sound set chunks) (representable : set.Representable) {number : Int}
    (small : number < 2 ^ 31) : ∃ others, Sound (add junk set number).1 others := by
  by_cases negative : number < 0
  · rw [add, if_pos negative]
    exact ⟨chunks, sound⟩
  · have nonnegative := Int.not_lt.mp negative
    obtain ⟨front, back, stops, present, absent⟩ := add_spec junk sound.layout sound.room nonnegative
    by_cases found : startsBelow number back = true
    · rw [present found]
      exact ⟨chunks, sound.forget⟩
    · obtain ⟨edited, run, layout, length, size, inBounds⟩ := absent found
      have bounded := representable.bounded sound.layout
      rw [stops.split] at bounded
      have inside := sound.layout.le_size (Nat.zero_le _)
      have room := sound.room
      have spare := sound.spare
      rw [run]
      apply Sound.optimize junk layout
      · apply Bounded.append bounded
        intro chunk mem
        rw [mem_singleton.mp mem]
        exact small
      · left
        rw [size, length]
        split <;> omega
      · exact inBounds sound.inBounds

lemma EndsPositive.nonzero (positive : set.EndsPositive)
    (layout : Layout set.data set.length 0 chunks) : EndsNonzero chunks.tail := by
  intro chunk last
  apply positive (chunk.first, chunk.last)
  rw [ranges_eq layout, ← map_tail, getLast?_map, Option.mem_def.mp last]
  rfl

private lemma find?_range (back : List Chunk) {chunk : Chunk} {number : Int}
    (before : ¬ Holds front number) (lower : chunk.first ≤ number) (upper : number ≤ chunk.last) :
    ((front ++ ([chunk] ++ back)).map Chunk.bounds).find?
      (fun range => range.1 ≤ number && number ≤ range.2) = some (chunk.first, chunk.last) := by
  induction front with
  | nil =>
    rw [nil_append, singleton_append, map_cons, find?_cons_of_pos]
    · rfl
    · simp [Chunk.bounds, lower, upper]
  | cons first front ih =>
    rw [holds_cons, not_or] at before
    rw [cons_append, map_cons, find?_cons_of_neg]
    · exact ih before.2
    · intro found
      rw [Bool.and_eq_true] at found
      exact before.1 ⟨of_decide_eq_true found.1, of_decide_eq_true found.2⟩

lemma remove_sound (sound : Sound set chunks) (representable : set.Representable) {number : Int}
    (fits : set.RemoveFits number) : ∃ others, Sound (remove junk set number).1 others := by
  rcases remove_spec junk sound.layout number with ⟨_, run⟩ |
    ⟨edited, front, chunk, back, pieces, split, before, lower, upper, run, shortened⟩
  · rw [run]
    exact ⟨chunks, sound.forget⟩
  · have room : chunk.first < chunk.last →
        RangeRoom set.data.size set.length chunk.first chunk.last number (EndsNonzero back) := by
      intro several
      have found := find?_range back before lower upper
      rw [← split, ← ranges_eq sound.layout] at found
      apply (fits (chunk.first, chunk.last) found several).imp
      intro positive
      apply (positive.nonzero sound.layout).suffix
      rw [split]
      cases front with
      | nil => exact suffix_rfl
      | cons first front => exact (suffix_append [chunk] back).trans (suffix_append _ _)
    obtain ⟨inBounds, spare⟩ := shortened.inBounds room sound.inBounds
    have bounded := representable.bounded sound.layout
    rw [split] at bounded
    rw [run]
    apply Sound.optimize junk shortened.layout
    · exact shortened.remainder.bounded bounded
    · apply spare.imp id
      intro nonzero
      exact nonzero.suffix (tail_suffix _)
    · exact inBounds

lemma addRange_sound (sound : Sound set chunks) (representable : set.Representable)
    {start finish : Int} (nonnegative : start < finish → 0 ≤ start) (small : finish < 2 ^ 31) :
    ∃ others, Sound (addRange junk set start finish).1 others := by
  rcases Int.lt_trichotomy start finish with several | single | reversed
  · have bounded := representable.bounded sound.layout
    rcases addRange_spec junk sound.layout bounded (nonnegative several) several with
      ⟨run, _⟩ | ⟨data, others, run, layout, size, inBounds, _⟩
    · rw [run]
      exact ⟨chunks, sound.forget⟩
    · rw [run]
      exact ⟨others, layout, by simp only [size]; omega, by simp only [size]; omega,
        inBounds sound.inBounds⟩
  · have run : addRange junk set start finish = add junk { set with cachedValue := -1 } start := by
      rw [addRange, if_neg (by omega), if_pos single]
    rw [run]
    exact add_sound junk sound.forget representable (single ▸ small)
  · rw [addRange, if_pos reversed]
    exact ⟨chunks, sound.forget⟩

/-- The loop of the constructor writes the chunks of all entries, inside its block. -/
theorem createLoop_spec (fuel : Nat) (numbers : List Char) (data : Block)
    (chunks : List Chunk) (tail : Nat) (layout : Layout data tail 0 chunks) (large : 10 ≤ data.size)
    (inBounds : data.inBounds = true) :
    Layout (createLoop junk fuel numbers data tail).1
        (createLoop junk fuel numbers data tail).2 0 (chunks ++ readChunks fuel numbers) ∧
      10 ≤ (createLoop junk fuel numbers data tail).1.size ∧
      (createLoop junk fuel numbers data tail).1.inBounds = true := by
  induction fuel generalizing numbers data chunks tail with
  | zero =>
    rw [readChunks, append_nil]
    exact ⟨layout, large, inBounds⟩
  | succ fuel ih =>
    rw [createLoop, readChunks]
    by_cases none : numbers = []
    · rw [if_pos none, if_pos none, append_nil]
      exact ⟨layout, large, inBounds⟩
    · rw [if_neg none, if_neg none]
      have inside := layout.le_size (Nat.zero_le _)
      obtain ⟨grown, same⟩ : ∃ grown,
        grown = if data.size ≤ tail + 4 then data.grow junk else data := ⟨_, rfl⟩
      have layout' : Layout grown tail 0 chunks := by
        rw [same]
        split
        · exact layout.grow junk
        · exact layout
      have size : grown.size = if data.size ≤ tail + 4 then 2 * data.size else data.size := by
        rw [same, apply_ite Block.size, Block.size_grow]
      have room : 10 ≤ grown.size ∧ tail + 4 < grown.size := by
        rw [size]
        split <;> omega
      have inBounds' : grown.inBounds = true := by
        rw [same]
        split
        · exact inBounds
        · exact inBounds
      simp only [← same]
      by_cases illegal : (skipSpace numbers).head?.any (fun character => !character.isDigit) = true
      · rw [if_pos illegal, if_pos illegal, append_nil]
        exact ⟨layout', room.1, inBounds'⟩
      · rw [if_neg illegal, if_neg illegal, append_cons]
        obtain ⟨rest, shape, ends⟩ := layout'.shape
        have total := congrArg List.length shape
        rw [length_append, ends] at total
        have size' : grown.size = grown.words.length := rfl
        obtain ⟨filler, tail', rfl⟩ := exists_cons_of_length_pos
          (show 0 < rest.length by omega)
        rw [length_cons] at total
        obtain ⟨filler', rest', rfl⟩ := exists_cons_of_length_pos
          (show 0 < tail'.length by omega)
        have order := (readChunk (skipSpace numbers)).ordered
        by_cases single : (readEntry (skipSpace numbers)).2.1 = (readEntry (skipSpace numbers)).1
        · have words : (readChunk (skipSpace numbers)).words = [(readEntry (skipSpace numbers)).1] :=
            Chunk.words_literal single.symm
          rw [if_pos single]
          apply ih
          · refine Layout.snoc (?_ : _ = encode chunks ++ (_ ++ filler' :: rest')) ?_
            · rw [words, Block.words_store, shape, ← ends]
              simp
            · rw [words, ends]
              rfl
          · rw [Block.size_store]
            exact room.1
          · rw [Block.inBounds_store]
            exact ⟨inBounds', by omega⟩
        · have words : (readChunk (skipSpace numbers)).words =
              [-((readEntry (skipSpace numbers)).2.1 - (readEntry (skipSpace numbers)).1),
                (readEntry (skipSpace numbers)).1] :=
            Chunk.words_range (lt_of_le_of_ne order fun same => single same.symm)
          rw [if_neg single]
          apply ih
          · refine Layout.snoc (?_ : _ = encode chunks ++ (_ ++ rest')) ?_
            · rw [words, Block.words_store, Block.words_store, shape, ← ends]
              simp
            · rw [words, ends]
              rfl
          · rw [Block.size_store, Block.size_store]
            exact room.1
          · rw [Block.inBounds_store, Block.inBounds_store, Block.size_store]
            exact ⟨⟨inBounds', by omega⟩, by omega⟩

/-- Numbers at the end are dropped. -/
structure Trims (others chunks : List Chunk) : Prop where
  holds : ∀ number, Holds others number → Holds chunks number
  ascending : Ascending chunks → Ascending others

lemma Trims.refl (chunks) : Trims chunks chunks :=
  ⟨fun _ held => held, fun ordered => ordered⟩

lemma Trims.front (front back) : Trims front (front ++ back) :=
  ⟨fun number held => (holds_append front back number).mpr (.inl held),
    fun ordered => ((ascending_append front back).mp ordered).1⟩

/-- The last chunk starts where it started, and ends sooner. -/
theorem Trims.last {chunk cut : Chunk} (front : List Chunk) (first : cut.first = chunk.first)
    (last : cut.last ≤ chunk.last) : Trims (front ++ [cut]) (front ++ [chunk]) := by
  constructor
  · intro number held
    simp only [holds_append, holds_cons, not_holds_nil, or_false] at held ⊢
    cases held with
    | inl before => exact .inl before
    | inr within => exact .inr (by omega)
  · intro ordered
    rw [ascending_append] at ordered ⊢
    refine ⟨ordered.1, pairwise_singleton _ _, ?_⟩
    intro earlier mem later same
    rw [mem_singleton.mp same, first]
    exact ordered.2.2 earlier mem chunk (mem_singleton_self chunk)

lemma Trims.trans {less others chunks : List Chunk} (less_others : Trims less others)
    (others_chunks : Trims others chunks) : Trims less chunks :=
  ⟨fun number held => others_chunks.holds number (less_others.holds number held),
    fun ordered => less_others.ascending (others_chunks.ascending ordered)⟩

/-- The set is shorter, in the same block. -/
def Lowered (data : Block) (length : Nat) (chunks : List Chunk) (result : Block × Nat) :
    Prop :=
  ∃ others, Layout result.1 result.2 0 others ∧ result.1.size = data.size ∧ result.2 ≤ length ∧
    (data.inBounds = true → result.1.inBounds = true) ∧ Trims others chunks

lemma Trims.of_loweredTo (lowered : LoweredTo newHighWaterMark chunks others) :
    Trims others chunks := by
  induction lowered with
  | none => exact .refl []
  | only chunk => exact .refl [chunk]
  | drop _ _ _ trims => exact trims.trans (.front _ _)
  | shorten front first last less => exact .last front first (by omega)
  | stay front => exact .refl _

lemma create_spec (numbers) :
    Sound (create junk numbers)
      (readChunks ((skipSpace numbers).length + 1) (skipSpace numbers)) := by
  have layout : Layout ⟨(List.range initialSize).map junk.fresh, true⟩ 0 0 [] := ⟨rfl, nil_prefix⟩
  have large : 10 ≤ (⟨(List.range initialSize).map junk.fresh, true⟩ : Block).size := by
    rw [Block.size, length_map, length_range]
    exact Nat.le_refl _
  obtain ⟨layout', large', inBounds⟩ := createLoop_spec junk
    ((skipSpace numbers).length + 1) (skipSpace numbers) _ [] 0 layout large rfl
  rw [create]
  exact ⟨layout', Nat.lt_of_lt_of_le (by omega) large', fun _ => Nat.le_trans (by omega) large',
    inBounds⟩

lemma setLastMember_trims (layout : Layout set.data set.length 0 chunks)
    (newHighWaterMark : Int) :
    Lowered set.data set.length chunks
      ((setLastMember junk set newHighWaterMark).data,
        (setLastMember junk set newHighWaterMark).length) := by
  obtain ⟨others, lowered, layout', size, short, inBounds⟩ :=
    setLastMember_spec junk layout newHighWaterMark
  exact ⟨others, layout', size, short, inBounds, .of_loweredTo lowered⟩

lemma setLastMember_sound (sound : Sound set chunks) (newHighWaterMark : Int) :
    ∃ others, Sound (setLastMember junk set newHighWaterMark) others := by
  obtain ⟨others, layout, size, short, inBounds, -⟩ :=
    setLastMember_trims junk sound.layout newHighWaterMark
  refine ⟨others, layout, ?_, ?_, inBounds sound.inBounds⟩
  · rw [size]
    exact sound.room
  · intro positive
    rw [size]
    exact sound.spare (Nat.lt_of_lt_of_le positive short)

lemma edit_sound (sound : Sound set chunks) (request) (fits : set.Fits request) :
    ∃ others, Sound (edit junk set request) others := by
  cases request with
  | add number => exact add_sound junk sound fits.1 fits.2
  | remove number => exact remove_sound junk sound fits.1 fits.2
  | addRange start finish => exact addRange_sound junk sound fits.1 fits.2.1 fits.2.2
  | setLastMember newHighWaterMark => exact setLastMember_sound junk sound newHighWaterMark

/-- A step of a run with the values that the program does not determine in it. -/
def editStep (set : MsgKeySet) (step : KeySetEdit × Junk) : MsgKeySet := edit step.2 set step.1

/-- In every run of fitting operations on a set read from a string no index is outside the
block and the words in use are inside it. -/
theorem keySet_withinAllocation (junk : Junk) (numbers : List Char)
    (steps : List (KeySetEdit × Junk))
    (fits : Admissible editStep (fun set step => set.Fits step.1) (create junk numbers) steps)
    (taken : List (KeySetEdit × Junk)) (start : taken <+: steps) :
    WithinAllocation (run editStep (create junk numbers) taken) := by
  have preserved : ∀ (set : MsgKeySet) (step : KeySetEdit × Junk), (∃ chunks, Sound set chunks) →
      set.Fits step.1 → ∃ chunks, Sound (editStep set step) chunks := by
    rintro set step ⟨chunks, sound⟩ fits
    exact edit_sound step.2 sound step.1 fits
  obtain ⟨chunks, sound⟩ := run_invariant editStep _ preserved ⟨_, create_spec junk numbers⟩
    (fits.of_prefix editStep _ start)
  exact sound.withinAllocation

private def noJunk : Junk := ⟨fun _ => 0, fun _ => 0, fun _ => 0⟩

/-- `1-9,20`, then `Remove(5)` and `Add(10)`. -/
theorem keySet_withinAllocation_removeAdd :
    WithinAllocation (run editStep (create noJunk ['1', '-', '9', ',', '2', '0'])
      [(.remove 5, noJunk), (.add 10, noJunk)]) :=
  keySet_withinAllocation noJunk _ [(.remove 5, noJunk), (.add 10, noJunk)] (by decide) _
    prefix_rfl

/-- `AddRange(1, 10)` leaves a block of two words that are both in use; `Remove(5)` makes it
four words long and writes to index 4. -/
theorem remove_outside_allocation :
    ¬ WithinAllocation (run editStep (create noJunk [])
      [(.addRange 1 10, noJunk), (.remove 5, noJunk)]) := by
  decide

end MsgKeySet

end CommCentral.Base
