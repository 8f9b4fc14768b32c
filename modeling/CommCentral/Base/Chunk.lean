import CommCentral.Base.WordBlock
import CommCentral.Lib.Ranges

/-! The chunks that the words of a key set stand for. -/
namespace CommCentral.Base
open Lib List

/-- A literal or a range of article numbers. -/
structure Chunk where
  first : Int
  last : Int
  nonnegative : 0 ≤ first
  ordered : first ≤ last
deriving DecidableEq

namespace Chunk

/-- One word for a literal, two for a range. -/
def words (chunk : Chunk) : List Int :=
  if chunk.first = chunk.last then [chunk.first] else [-(chunk.last - chunk.first), chunk.first]

def bounds (chunk : Chunk) : Int × Int := (chunk.first, chunk.last)

def literal (number : Int) (nonnegative : 0 ≤ number) : Chunk :=
  ⟨number, number, nonnegative, Int.le_refl number⟩

lemma words_literal {chunk : Chunk} (single : chunk.first = chunk.last) :
    chunk.words = [chunk.first] := by
  rw [words, if_pos single]

@[simp] lemma words_literal_mk (number : Int) (nonnegative : 0 ≤ number) :
    (literal number nonnegative).words = [number] := words_literal rfl

lemma words_range {chunk : Chunk} (several : chunk.first < chunk.last) :
    chunk.words = [-(chunk.last - chunk.first), chunk.first] := by
  rw [words, if_neg (Int.ne_of_lt several)]

lemma words_length_pos (chunk : Chunk) : 0 < chunk.words.length := by
  unfold words
  split
  · exact Nat.succ_pos _
  · exact Nat.succ_pos _

end Chunk

def encode (chunks : List Chunk) : List Int := chunks.flatMap Chunk.words

@[simp] lemma encode_nil : encode [] = [] := rfl

@[simp] lemma encode_cons (chunk : Chunk) (chunks : List Chunk) :
    encode (chunk :: chunks) = chunk.words ++ encode chunks := rfl

@[simp] lemma encode_append (front back : List Chunk) :
    encode (front ++ back) = encode front ++ encode back := flatMap_append

lemma length_le_encode (chunks) : chunks.length ≤ (encode chunks).length := by
  induction chunks with
  | nil => exact Nat.le_refl _
  | cons chunk chunks ih =>
    have positive := chunk.words_length_pos
    rw [encode_cons, length_append, length_cons]
    omega

def Holds (chunks : List Chunk) (number : Int) : Prop := Covered (chunks.map Chunk.bounds) number

@[simp] lemma not_holds_nil (number : Int) : ¬ Holds [] number := not_covered_nil number

@[simp] lemma holds_cons (chunk : Chunk) (chunks : List Chunk) (number : Int) :
    Holds (chunk :: chunks) number ↔
      (chunk.first ≤ number ∧ number ≤ chunk.last) ∨ Holds chunks number := covered_cons ..

@[simp] lemma holds_append (front back : List Chunk) (number : Int) :
    Holds (front ++ back) number ↔ Holds front number ∨ Holds back number := by
  rw [Holds, map_append, covered_append, Holds, Holds]

lemma holds_iff (chunks) (number : Int) :
    Holds chunks number ↔ ∃ chunk ∈ chunks, chunk.first ≤ number ∧ number ≤ chunk.last := by
  simp [Holds, Covered, Chunk.bounds]

/-- Strictly increasing and pairwise disjoint. -/
def Ascending (chunks : List Chunk) : Prop :=
  chunks.Pairwise (fun chunk later => chunk.last < later.first)

lemma ascending_append (front back) :
    Ascending (front ++ back) ↔ Ascending front ∧ Ascending back ∧
      ∀ chunk ∈ front, ∀ later ∈ back, chunk.last < later.first := pairwise_append

lemma ascending_cons (chunk) (chunks) :
    Ascending (chunk :: chunks) ↔
      (∀ later ∈ chunks, chunk.last < later.first) ∧ Ascending chunks := pairwise_cons

/-- From index `position` up to `length` the block holds the words of the chunks. -/
structure Layout (block : Block) (length position : Nat) (chunks : List Chunk) : Prop where
  ends : position + (encode chunks).length = length
  holds : encode chunks <+: block.words.drop position

variable {block : Block} {length position : Nat} {chunk : Chunk} {chunks : List Chunk}

section

variable (layout : Layout block length position chunks)
include layout

lemma Layout.congr (same : other.words = block.words) : Layout other length position chunks :=
  ⟨layout.ends, same ▸ layout.holds⟩

lemma Layout.count_le : chunks.length ≤ length := by
  have count := length_le_encode chunks
  have ends := layout.ends
  omega

lemma Layout.le_size (inside : position ≤ block.size) : length ≤ block.size := by
  have ends := layout.ends
  have short := layout.holds.length_le
  rw [length_drop] at short
  simp only [Block.size] at inside ⊢
  omega

end

lemma Layout.append {front back : List Chunk}
    (layout : Layout block length position (front ++ back)) :
    Layout block length (position + (encode front).length) back := by
  obtain ⟨ends, rest, shape⟩ := layout
  refine ⟨?_, rest, ?_⟩
  · rw [encode_append, length_append] at ends
    omega
  · rw [← drop_drop, ← shape, encode_append, append_assoc, drop_left]

lemma Layout.shape (layout : Layout block length 0 chunks) :
    ∃ rest, block.words = encode chunks ++ rest ∧ (encode chunks).length = length := by
  obtain ⟨ends, rest, shape⟩ := layout
  exact ⟨rest, shape.symm, by omega⟩

lemma Layout.of_shape (shape : block.words = encode chunks ++ rest)
    (ends : (encode chunks).length = length) : Layout block length 0 chunks :=
  ⟨by omega, rest, shape.symm⟩

lemma Layout.snoc (shape : block.words = encode chunks ++ (chunk.words ++ rest))
    (ends : (encode chunks).length + chunk.words.length = length) :
    Layout block length 0 (chunks ++ [chunk]) := by
  have both : encode (chunks ++ [chunk]) = encode chunks ++ chunk.words := by simp
  refine Layout.of_shape (by rw [both, append_assoc]; exact shape) ?_
  rw [both, length_append, ends]

lemma Layout.of_middle {front back : List Int}
    (shape : block.words = front ++ (encode chunks ++ back)) :
    Layout block (front.length + (encode chunks).length) front.length chunks :=
  ⟨rfl, back, by rw [shape, drop_left]⟩

lemma word_of_drop {head : Int} {tail : List Int}
    (shape : block.words.drop position = head :: tail) (outside : Nat → Int) :
    position < block.size ∧ block.word outside position = head ∧
      block.words.drop (position + 1) = tail := by
  have inside : position < block.words.length := by
    by_contra beyond
    rw [drop_eq_nil_of_le (Nat.le_of_not_lt beyond)] at shape
    cases shape
  rw [drop_eq_getElem_cons inside, List.cons.injEq] at shape
  refine ⟨inside, ?_, shape.2⟩
  rw [Block.word, getD_eq_getElem _ _ inside, shape.1]

/-- What the code reads where a literal stands. -/
theorem Layout.literal (layout : Layout block length position (chunk :: chunks))
    (single : chunk.first = chunk.last) (outside : Nat → Int) :
    position < length ∧ position < block.size ∧ block.word outside position = chunk.first ∧
      Layout block length (position + 1) chunks := by
  obtain ⟨ends, rest, shape⟩ := layout
  rw [encode_cons, Chunk.words_literal single] at ends shape
  obtain ⟨inside, head, tail⟩ := word_of_drop shape.symm outside
  simp only [length_append, length_singleton] at ends
  exact ⟨by omega, inside, head, by omega, rest, tail.symm⟩

/-- What the code reads where a range stands. -/
theorem Layout.range (layout : Layout block length position (chunk :: chunks))
    (several : chunk.first < chunk.last) (outside : Nat → Int) :
    position < length ∧ position + 1 < block.size ∧
      block.word outside position = -(chunk.last - chunk.first) ∧
      block.word outside (position + 1) = chunk.first ∧
      Layout block length (position + 2) chunks := by
  obtain ⟨ends, rest, shape⟩ := layout
  rw [encode_cons, Chunk.words_range several] at ends shape
  obtain ⟨_, head, tail⟩ := word_of_drop shape.symm outside
  obtain ⟨inside, start, tail⟩ := word_of_drop tail outside
  simp only [length_append, length_cons, length_nil] at ends
  exact ⟨by omega, inside, head, start, by omega, rest, tail.symm⟩

/-- Behind the last chunk there is nothing to read. -/
theorem Layout.nil_ends (layout : Layout block length position []) : position = length :=
  layout.ends

end CommCentral.Base
