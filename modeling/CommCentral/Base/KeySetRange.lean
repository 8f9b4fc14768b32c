import CommCentral.Base.KeySetOptimize

/-! `AddRange`: the new range takes up the chunks that it overlaps or touches. -/
namespace CommCentral.Base
open List

/-- The chunks hold the numbers of other chunks and of a range. -/
def HoldsUnion (result chunks : List Chunk) (start finish : Int) : Prop :=
  ∀ number, Holds result number ↔ Holds chunks number ∨ (start ≤ number ∧ number ≤ finish)

namespace MsgKeySet

variable (junk : Junk) {data output : Block} {length position : Nat} {front chunks : List Chunk}

lemma words_emitRange (chunk : Chunk) (limit : Nat) (output : Block) :
    (emitRange limit chunk.first chunk.last output).words = output.words ++ chunk.words := by
  rw [emitRange, Chunk.words]
  split
  · rfl
  · rw [Block.words_push, Block.words_push, append_assoc]
    rfl

lemma inBounds_emitRange (chunk : Chunk) (limit : Nat) (output : Block)
    (room : output.size + chunk.words.length ≤ limit) (before : output.inBounds = true) :
    (emitRange limit chunk.first chunk.last output).inBounds = true := by
  rw [Chunk.words] at room
  rw [emitRange]
  split
  · rename_i single
    rw [if_pos single, length_singleton] at room
    rw [Block.inBounds_push]
    exact ⟨before, room⟩
  · rename_i several
    rw [if_neg several, length_cons, length_singleton] at room
    rw [Block.inBounds_push, Block.inBounds_push, Block.size_push]
    exact ⟨⟨before, by omega⟩, by omega⟩

lemma copyRest_spec (words) (rest) (shape : data.words.drop position = words ++ rest)
    (ends : position + words.length = length) (limit : Nat)
    (room : output.size + words.length ≤ limit) (fuel : Nat) (enough : words.length ≤ fuel) :
    ∃ output', copyRest junk length limit fuel data position output = (data, output') ∧
      output'.words = output.words ++ words ∧
      (output.inBounds = true → output'.inBounds = true) := by
  induction words generalizing position output fuel with
  | nil =>
    refine ⟨output, ?_, (append_nil _).symm, id⟩
    rw [length_nil] at ends
    cases fuel with
    | zero => rfl
    | succ fuel => rw [copyRest, if_neg (by omega)]
  | cons word words ih =>
    rw [length_cons] at ends enough room
    obtain ⟨fuel, rfl⟩ : ∃ rest, fuel = rest + 1 := ⟨fuel - 1, by omega⟩
    obtain ⟨inside, read, tail⟩ := word_of_drop shape junk.outside
    obtain ⟨output', run, words', bounds⟩ := ih tail (by omega)
      (show (output.push limit word).size + words.length ≤ limit by rw [Block.size_push]; omega)
      fuel (by omega)
    refine ⟨output', ?_, ?_, ?_⟩
    · rw [copyRest, if_pos (by omega), data.touch_of_lt inside, read, run]
    · rw [words', Block.words_push, append_assoc]
      rfl
    · intro before
      apply bounds
      rw [Block.inBounds_push]
      exact ⟨before, by omega⟩

/-- What the loop leaves in the new block. -/
structure Ranged (front chunks : List Chunk) (start finish : Int) (length : Nat)
    (output output' : Block) (others : List Chunk) : Prop where
  written : output'.words = encode (front ++ others)
  fits : output'.size ≤ length + 2
  writes : output.inBounds = true → output'.inBounds = true
  union : Bounded (2 ^ 31 - 1) chunks → HoldsUnion others chunks start finish
  ascending : Bounded (2 ^ 31 - 1) chunks → Ascending chunks → Ascending others

/-- The loop finds that the range is present, or it writes all chunks. -/
def RangeOutcome (data : Block) (front chunks : List Chunk) (start finish : Int) (length : Nat)
    (output : Block) (result : Block × Option Block) : Prop :=
  (result = (data, none) ∧ ∀ number, start ≤ number → number ≤ finish → Holds chunks number) ∨
    ∃ output' others, result = (data, some output') ∧
      Ranged front chunks start finish length output output' others

private lemma RangeOutcome.skip {chunk : Chunk} {start finish : Int}
    (before : Bounded (2 ^ 31 - 1) (chunk :: chunks) → start > chunk.last + 1)
    (writes : output.inBounds = true → output'.inBounds = true)
    (outcome : RangeOutcome data (front ++ [chunk]) chunks start finish length output' result) :
    RangeOutcome data front (chunk :: chunks) start finish length output result := by
  rcases outcome with ⟨same, present⟩ | ⟨written, others, same, ranged⟩
  · left
    refine ⟨same, fun number lower upper => ?_⟩
    rw [holds_cons]
    exact .inr (present number lower upper)
  · right
    refine ⟨written, chunk :: others, same, ?_, ranged.fits,
      fun before => ranged.writes (writes before), ?_, ?_⟩
    · rw [ranged.written, append_assoc, singleton_append]
    · intro bounded number
      rw [holds_cons, holds_cons, ranged.union bounded.tail number, or_assoc]
    · intro bounded ascending
      obtain ⟨later, ascending'⟩ := (ascending_cons ..).mp ascending
      refine (ascending_cons ..).mpr ⟨?_, ranged.ascending bounded.tail ascending'⟩
      intro other mem
      have held : Holds others other.first :=
        (holds_iff ..).mpr ⟨other, mem, Int.le_refl _, other.ordered⟩
      have apart := before bounded
      rcases (ranged.union bounded.tail other.first).mp held with inside | ⟨lower, _⟩
      · obtain ⟨origin, member', lower, _⟩ := (holds_iff ..).mp inside
        exact Int.lt_of_lt_of_le (later origin member') lower
      · omega

/-- A chunk that overlaps or touches the range becomes part of it. -/
private theorem RangeOutcome.absorb {chunk : Chunk} {start finish : Int} (_ : start ≤ finish)
    (near : start ≤ chunk.last + 1) (near' : chunk.first - 1 ≤ finish) (outcome : RangeOutcome data
      front chunks (if start < chunk.first then start else chunk.first) (if finish > chunk.last then
      finish else chunk.last) length output result) :
    RangeOutcome data front (chunk :: chunks) start finish length output result := by
  have ordered := chunk.ordered
  rcases outcome with ⟨same, present⟩ | ⟨written, others, same, ranged⟩
  · left
    refine ⟨same, fun number lower upper => ?_⟩
    rw [holds_cons]
    right
    apply present
    · split <;> omega
    · split <;> omega
  · right
    refine ⟨written, others, same, ranged.written, ranged.fits, ranged.writes, ?_, ?_⟩
    · intro bounded number
      have hull : ((if start < chunk.first then start else chunk.first) ≤ number ∧
            number ≤ (if finish > chunk.last then finish else chunk.last)) ↔
          (chunk.first ≤ number ∧ number ≤ chunk.last) ∨ (start ≤ number ∧ number ≤ finish) := by
        split <;> split <;> omega
      rw [ranged.union bounded.tail number, holds_cons, hull, or_left_comm, or_assoc]
    · intro bounded ascending
      exact ranged.ascending bounded.tail ((ascending_cons ..).mp ascending).2

lemma addRangeLoop_spec (layout : Layout data length position chunks)
    (inside : position ≤ data.size) (written : output.words = encode front)
    (fits : output.size ≤ position) (bounded : Bounded (2 ^ 31) chunks) {start finish : Int}
    (nonnegative : 0 ≤ start) (order : start < finish) (fuel : Nat)
    (enough : chunks.length < fuel) :
    RangeOutcome data front chunks start finish length output
      (addRangeLoop junk length (length + 2) fuel data position output start finish) := by
  induction chunks generalizing position output front start finish fuel with
  | nil =>
    obtain ⟨fuel, rfl⟩ := Nat.exists_eq_add_of_lt enough
    have ends := layout.nil_ends
    obtain ⟨range, first, last⟩ : ∃ range : Chunk, range.first = start ∧ range.last = finish :=
      ⟨⟨start, finish, nonnegative, Int.le_of_lt order⟩, rfl, rfl⟩
    have width : range.words.length = 2 := by
      rw [Chunk.words_range (by omega)]
      rfl
    have words := words_emitRange range (length + 2) output
    have bounds := inBounds_emitRange range (length + 2) output (by omega)
    rw [first, last] at words bounds
    right
    refine ⟨emitRange (length + 2) start finish output, [range], ?_, ?_, ?_, bounds, ?_, ?_⟩
    · rw [addRangeLoop, if_neg (by omega)]
    · rw [words, written]
      simp
    · rw [Block.size, words, length_append, width]
      exact Nat.add_le_add_right (Nat.le_trans fits (Nat.le_of_eq ends)) 2
    · intro _ number
      rw [holds_cons, first, last, or_comm]
    · intro _ _
      exact pairwise_singleton _ _
  | cons chunk chunks ih =>
    obtain ⟨fuel, rfl⟩ : ∃ rest, fuel = rest + 1 := ⟨fuel - 1, by omega⟩
    rw [length_cons] at enough
    have low := chunk.nonnegative
    have ordered := chunk.ordered
    have upper := bounded chunk mem_cons_self
    have round : ∀ next, Layout data length next chunks → next = position + chunk.words.length →
        addRangeLoop junk length (length + 2) (fuel + 1) data position output start finish =
          (if chunk.first ≤ start ∧ chunk.last ≥ finish then (data, none)
          else if start > add32 chunk.last 1 then
            addRangeLoop junk length (length + 2) fuel data next
              (emitRange (length + 2) chunk.first chunk.last output) start finish
          else if finish < chunk.first - 1 then
            let output := emitRange (length + 2) chunk.first chunk.last
              (emitRange (length + 2) start finish output)
            let copied := copyRest junk length (length + 2) length data next output
            (copied.1, some copied.2)
          else
            addRangeLoop junk length (length + 2) fuel data next output
              (if start < chunk.first then start else chunk.first)
              (if finish > chunk.last then finish else chunk.last)) →
        RangeOutcome data front (chunk :: chunks) start finish length output
          (addRangeLoop junk length (length + 2) (fuel + 1) data position output start finish) := by
      intro next layout' next' run
      rw [run]
      have ends := layout'.ends
      have size := layout.le_size inside
      by_cases present : chunk.first ≤ start ∧ chunk.last ≥ finish
      · rw [if_pos present]
        left
        refine ⟨rfl, fun number lower upper => ?_⟩
        rw [holds_cons]
        left
        omega
      · rw [if_neg present]
        by_cases before : start > add32 chunk.last 1
        · rw [if_pos before]
          have words := words_emitRange chunk (length + 2) output
          have before' : Bounded (2 ^ 31 - 1) (chunk :: chunks) → start > chunk.last + 1 := by
            intro small
            rw [add32_succ (Int.le_trans low ordered) (small chunk mem_cons_self)] at before
            exact before
          apply RangeOutcome.skip before'
            (inBounds_emitRange chunk (length + 2) output (by omega))
          apply ih layout' (by omega) _ _ bounded.tail nonnegative order fuel (by omega)
          · rw [words, written]
            simp
          · rw [Block.size, words, length_append]
            exact Nat.le_trans (Nat.add_le_add_right fits _) (Nat.le_of_eq next'.symm)
        · rw [if_neg before]
          have near : start ≤ chunk.last + 1 := by
            rcases Int.lt_or_eq_of_le (Int.le_sub_one_of_lt upper) with small | largest
            · rw [add32_succ (Int.le_trans low ordered) small] at before
              exact Int.not_lt.mp before
            · rw [largest, add32_succ_max] at before
              omega
          by_cases passed : finish < chunk.first - 1
          · rw [if_pos passed]
            obtain ⟨range, rangeFirst, rangeLast⟩ : ∃ range : Chunk, range.first = start ∧
                range.last = finish :=
              ⟨⟨start, finish, nonnegative, Int.le_of_lt order⟩, rfl, rfl⟩
            have width : range.words.length = 2 := by
              rw [Chunk.words_range (by omega)]
              rfl
            obtain ⟨rest, shape⟩ := layout'.holds
            have words := words_emitRange range (length + 2) output
            have bounds := inBounds_emitRange range (length + 2) output (by omega)
            rw [rangeFirst, rangeLast] at words bounds
            have words' := words_emitRange chunk (length + 2)
              (emitRange (length + 2) start finish output)
            have size' : (emitRange (length + 2) start finish output).size = output.size + 2 := by
              rw [Block.size, words, length_append, width]
              rfl
            have bounds' := inBounds_emitRange chunk (length + 2)
              (emitRange (length + 2) start finish output) (by omega)
            have size'' : (emitRange (length + 2) chunk.first chunk.last
                (emitRange (length + 2) start finish output)).size =
                output.size + 2 + chunk.words.length := by
              rw [Block.size, words', length_append, ← size']
              rfl
            obtain ⟨copied, copy, words'', bounds''⟩ := copyRest_spec junk (encode chunks) rest
              shape.symm ends (length + 2)
              (show (emitRange (length + 2) chunk.first chunk.last
                (emitRange (length + 2) start finish output)).size + _ ≤ _ by omega) length (by omega)
            simp only [copy]
            right
            refine ⟨copied, range :: chunk :: chunks, rfl, ?_, ?_,
              fun before => bounds'' (bounds' (bounds before)), ?_, ?_⟩
            · rw [words'', words', words, written]
              simp
            · rw [Block.size, words'', length_append]
              change (emitRange (length + 2) chunk.first chunk.last
                (emitRange (length + 2) start finish output)).size + _ ≤ _
              omega
            · intro _ number
              rw [holds_cons, rangeFirst, rangeLast, or_comm]
            · intro _ ascending
              refine (ascending_cons ..).mpr ⟨?_, ascending⟩
              intro other mem
              rcases mem_cons.mp mem with same | mem
              · rw [same, rangeLast]
                omega
              · have later := ((ascending_cons ..).mp ascending).1 other mem
                omega
          · rw [if_neg passed]
            apply RangeOutcome.absorb (Int.le_of_lt order) near (by omega)
            apply ih layout' (by omega) written (by omega) bounded.tail _ _ fuel (by omega)
            · split <;> omega
            · split <;> split <;> omega
    rcases layout_cases junk layout with
      ⟨before, touched, single, head, positive, width, next⟩ |
      ⟨before, touched, several, head, negative, touched', first, width, next⟩
    · apply round _ next (by rw [width])
      simp only [addRangeLoop, if_pos before, touched, head, positive, decide_false,
        Bool.false_eq_true, if_false, ← single]
    · have sum : -(-(chunk.last - chunk.first)) + chunk.first = chunk.last := by omega
      apply round _ next (by rw [width])
      simp only [addRangeLoop, if_pos before, touched, head, negative, decide_true, if_true,
        touched', first, sum]

/-- `AddRange` of at least two numbers: nothing changes, or there is a new block. -/
theorem addRange_spec {set : MsgKeySet} (layout : Layout set.data set.length 0 chunks)
    (bounded : Bounded (2 ^ 31) chunks) {start finish : Int} (nonnegative : 0 ≤ start)
    (order : start < finish) :
    (addRange junk set start finish = ({ set with cachedValue := -1 }, 0) ∧
        ∀ number, start ≤ number → number ≤ finish → Holds chunks number) ∨
      ∃ data others, addRange junk set start finish =
          ({ set with data := data, length := (encode others).length, cachedValue := -1 }, 1) ∧
        Layout data (encode others).length 0 others ∧ data.size = set.length + 2 ∧
        (set.data.inBounds = true → data.inBounds = true) ∧
        (Bounded (2 ^ 31 - 1) chunks → HoldsUnion others chunks start finish ∧
          (Ascending chunks → Ascending others)) := by
  have outcome := addRangeLoop_spec junk layout (Nat.zero_le _)
    (show (⟨[], true⟩ : Block).words = encode [] from rfl) (Nat.zero_le _) bounded nonnegative order
    (set.length + 1) (Nat.lt_succ_of_le layout.count_le)
  rw [addRange, if_neg (by omega), if_neg (by omega)]
  dsimp only
  rcases outcome with ⟨run, present⟩ | ⟨output, others, run, ranged⟩
  · left
    rw [run]
    exact ⟨rfl, present⟩
  · right
    have written : output.words = encode others := ranged.written
    have fits := ranged.fits
    refine ⟨{ (output.finish junk (set.length + 2)) with
      inBounds := set.data.inBounds && output.inBounds }, others, ?_, ?_, ?_, ?_,
      fun small => ⟨ranged.union small, ranged.ascending small⟩⟩
    · rw [run, ← written]
      rfl
    · exact Layout.of_shape (congrArg (· ++ _) written) rfl
    · simp only [Block.size, Block.finish, length_append, length_map,
        length_range] at fits ⊢
      omega
    · intro before
      simp only [Bool.and_eq_true]
      exact ⟨before, ranged.writes rfl⟩

end MsgKeySet

end CommCentral.Base
