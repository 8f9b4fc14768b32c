import CommCentral.Lib.Decision
import Mathlib

/-! A heap block of `int32_t` words that is read and written by index. -/
namespace CommCentral.Base
open List

/-- The words of the block. `inBounds` records whether every index used so far was below
the size that the block had at that moment. -/
structure Block where
  words : List Int
  inBounds : Bool
deriving Repr, DecidableEq

/-- Values that the program does not determine: of a word outside the block, of the
words that `PR_REALLOC` adds and of the words that `PR_Malloc` returns. -/
structure Junk where
  outside : Nat → Int
  grown : Nat → Int
  fresh : Nat → Int

/-- The sum of two `int32_t`. -/
def add32 (left right : Int) : Int := Int.bmod (left + right) (2 ^ 32)

namespace Block

def size (block : Block) : Nat := block.words.length

/-- Record the use of an index. -/
def touch (block : Block) (index : Nat) : Block :=
  { block with inBounds := block.inBounds && decide (index < block.size) }

def word (block : Block) (outside : Nat → Int) (index : Nat) : Int :=
  block.words.getD index (outside index)

/-- A write outside the block does not change it. -/
def store (block : Block) (index : Nat) (value : Int) : Block :=
  { (block.touch index) with words := block.words.set index value }

/-- Copy the word at index `source` to index `target`. -/
def copyWord (outside : Nat → Int) (source target : Nat) (block : Block) : Block :=
  (block.touch source).store target (block.word outside source)

/-- `m_data[index] = m_data[index + 1]` for `count` indices from `index` up. -/
def closeGap (outside : Nat → Int) (block : Block) (index : Nat) : Nat → Block
  | 0 => block
  | count + 1 => closeGap outside (block.copyWord outside (index + 1) index) (index + 1) count

/-- `m_data[index] = m_data[index - width]` for `count` indices from `index` down. -/
def openGap (outside : Nat → Int) (width : Nat) (block : Block) (index : Nat) : Nat → Block
  | 0 => block
  | count + 1 =>
    openGap outside width (block.copyWord outside (index - width) index) (index - 1) count

/-- `Grow`: the block gets twice its size. -/
def grow (junk : Junk) (block : Block) : Block :=
  { block with
    words := block.words ++
      (List.range block.size).map (fun index => junk.grown (block.size + index)) }

/-- Append a word to the part of a fresh block that is written so far. -/
def push (limit : Nat) (value : Int) (written : Block) : Block where
  words := written.words ++ [value]
  inBounds := written.inBounds && decide (written.size < limit)

/-- The whole block of `limit` words of which `written` is the first part. -/
def finish (junk : Junk) (limit : Nat) (written : Block) : Block :=
  { written with
    words := written.words ++
      (List.range (limit - written.size)).map (fun index => junk.fresh (written.size + index)) }

variable (block : Block) (outside : Nat → Int) (junk : Junk)

@[simp] lemma words_touch (index : Nat) : (block.touch index).words = block.words := rfl

@[simp] lemma size_touch (index : Nat) : (block.touch index).size = block.size := rfl

@[simp] lemma word_touch (index other : Nat) :
    (block.touch index).word outside other = block.word outside other := rfl

@[simp] lemma words_store (index : Nat) (value : Int) :
    (block.store index value).words = block.words.set index value := rfl

@[simp] lemma size_store (index : Nat) (value : Int) :
    (block.store index value).size = block.size := by
  simp [size]

lemma touch_of_lt (inside : index < block.size) : block.touch index = block := by
  simp [touch, inside]

lemma inBounds_touch (index : Nat) :
    (block.touch index).inBounds = true ↔ block.inBounds = true ∧ index < block.size := by
  simp [touch]

lemma inBounds_store (index : Nat) (value : Int) :
    (block.store index value).inBounds = true ↔ block.inBounds = true ∧ index < block.size := by
  simp [store, touch]

@[simp] lemma words_push (limit : Nat) (value : Int) :
    (block.push limit value).words = block.words ++ [value] := rfl

@[simp] lemma size_push (limit : Nat) (value : Int) :
    (block.push limit value).size = block.size + 1 := by
  simp [size]

@[simp] lemma size_grow : (block.grow junk).size = 2 * block.size := by
  simp only [grow, size, length_append, length_map, length_range]
  omega

lemma inBounds_push (limit : Nat) (value : Int) :
    (block.push limit value).inBounds = true ↔ block.inBounds = true ∧ block.size < limit := by
  simp [push]

variable (source target : Nat)

lemma words_copyWord :
    (block.copyWord outside source target).words =
      block.words.set target (block.word outside source) := rfl

@[simp] lemma size_copyWord (source target : Nat) :
    (block.copyWord outside source target).size = block.size := by
  simp [copyWord]

lemma inBounds_copyWord :
    (block.copyWord outside source target).inBounds = true ↔
      block.inBounds = true ∧ source < block.size ∧ target < block.size := by
  rw [copyWord, inBounds_store, inBounds_touch, size_touch, and_assoc]

@[simp] lemma size_closeGap (index count : Nat) :
    (block.closeGap outside index count).size = block.size := by
  induction count generalizing block index with
  | zero => rfl
  | succ count ih => rw [closeGap, ih, size_copyWord]

variable (index count : Nat)

lemma inBounds_closeGap :
    (block.closeGap outside index count).inBounds = true ↔
      block.inBounds = true ∧ (0 < count → index + count < block.size) := by
  induction count generalizing block index with
  | zero => simp [closeGap]
  | succ count ih =>
    rw [closeGap, ih, inBounds_copyWord, size_copyWord]
    constructor
    · rintro ⟨⟨before, source, target⟩, rest⟩
      refine ⟨before, fun _ => ?_⟩
      rcases Nat.eq_zero_or_pos count with rfl | positive
      · exact source
      · have bound := rest positive
        omega
    · rintro ⟨before, bound⟩
      have last := bound (Nat.succ_pos count)
      exact ⟨⟨before, by omega, by omega⟩, fun _ => by omega⟩

variable (front : List Int)

/-- Closing the gap moves the words after it one index down; one word is left over. -/
theorem words_closeGap (gap : Int) (back tail : List Int)
    (shape : block.words = front ++ gap :: (back ++ tail)) :
    ∃ left, (block.closeGap outside front.length back.length).words =
      front ++ (back ++ left :: tail) := by
  induction back generalizing block front gap with
  | nil => exact ⟨gap, shape⟩
  | cons first back ih =>
    have moved : (block.copyWord outside (front.length + 1) front.length).words =
        (front ++ [first]) ++ first :: (back ++ tail) := by
      have read : block.word outside (front.length + 1) = first := by
        simp [word, shape]
      rw [words_copyWord, read, shape]
      simp
    obtain ⟨left, closed⟩ := ih _ (front ++ [first]) first moved
    refine ⟨left, ?_⟩
    rw [length_append, length_singleton] at closed
    rw [length_cons, closeGap, closed]
    simp

lemma closeGap_succ :
    block.closeGap outside index (count + 1) =
      (block.closeGap outside index count).copyWord outside (index + count + 1) (index + count) := by
  induction count generalizing block index with
  | zero => rfl
  | succ count ih =>
    rw [closeGap, ih, closeGap]
    congr 1
    · omega
    · omega

/-- One word more than the words after the gap is moved; it replaces the word left over. -/
theorem words_closeGap_succ (gap : Int) (back tail : List Int)
    (shape : block.words = front ++ gap :: (back ++ tail)) :
    ∃ left, (block.closeGap outside front.length (back.length + 1)).words =
      front ++ (back ++ left :: tail) := by
  obtain ⟨left, closed⟩ := words_closeGap block outside front gap back tail shape
  rw [closeGap_succ, words_copyWord, closed, set_append_right _ _ (Nat.le_add_right ..),
    Nat.add_sub_cancel_left, set_append_right _ _ (Nat.le_refl _), Nat.sub_self,
    set_cons_zero]
  exact ⟨_, rfl⟩

@[simp] lemma size_openGap (width index count : Nat) :
    (block.openGap outside width index count).size = block.size := by
  induction count generalizing block index with
  | zero => rfl
  | succ count ih => rw [openGap, ih, size_copyWord]

variable (width index count : Nat)

lemma inBounds_openGap (room : count ≤ index) :
    (block.openGap outside width index count).inBounds = true ↔
      block.inBounds = true ∧ (0 < count → index < block.size) := by
  induction count generalizing block index with
  | zero => simp [openGap]
  | succ count ih =>
    rw [openGap, ih _ _ (by omega), inBounds_copyWord, size_copyWord]
    constructor
    · rintro ⟨⟨before, _, target⟩, _⟩
      exact ⟨before, fun _ => target⟩
    · rintro ⟨before, bound⟩
      have first := bound (Nat.succ_pos count)
      exact ⟨⟨before, by omega, first⟩, fun _ => by omega⟩

lemma getElem?_openGap (width index count position : Nat) (positive : 0 < width)
    (room : count + width ≤ index + 1) (inside : index < block.size + width) :
    (block.openGap outside width index count).words[position]? =
      if index < position + count ∧ position ≤ index ∧ position < block.size then
        block.words[position - width]?
      else block.words[position]? := by
  induction count generalizing block index with
  | zero =>
    rw [if_neg (by omega)]
    rfl
  | succ count ih =>
    have source : index - width < block.words.length := by
      simp only [size] at inside
      omega
    rw [openGap, ih _ _ (by omega) (by rw [size_copyWord]; omega), size_copyWord, words_copyWord,
      word, getD_eq_getElem _ _ source]
    simp only [getElem?_set, size] at inside ⊢
    grind

lemma words_openGap (front head back tail) (shape : block.words = front ++ (head ++ (back ++ tail)))
    (positive : 0 < width) (room : width ≤ tail.length) (low : front.length + count ≤ index + 1)
    (reach : index < front.length + head.length + width + count)
    (top : front.length + head.length + width + back.length ≤ index + 1)
    (inside : index < block.size + width) (below : count + width ≤ index + 1) :
    ∃ gap rest, (block.openGap outside width index count).words =
      front ++ (gap ++ (back ++ rest)) ∧ gap.length = head.length + width := by
  have total := congrArg List.length shape
  simp only [length_append] at total
  have moved := fun position =>
    getElem?_openGap block outside width index count position positive below inside
  have opened := size_openGap block outside width index count
  generalize block.openGap outside width index count = result at moved opened
  have total' : block.size = block.words.length := rfl
  simp only [size] at opened
  have kept : result.words.take front.length = front := by
    refine ext_getElem? (fun position => ?_)
    rw [getElem?_take]
    split
    · rename_i before
      rw [moved, if_neg (by omega), shape, getElem?_append_left before]
    · rw [getElem?_eq_none (by omega)]
  have shifted : (result.words.drop (front.length + (head.length + width))).take back.length =
      back := by
    refine ext_getElem? (fun position => ?_)
    rw [getElem?_take]
    split
    · rename_i before
      have source : front.length + (head.length + width) + position - width =
          front.length + (head.length + position) := by omega
      rw [getElem?_drop, moved, if_pos (by omega), shape, source,
        getElem?_append_right (Nat.le_add_right ..), Nat.add_sub_cancel_left,
        getElem?_append_right (Nat.le_add_right ..), Nat.add_sub_cancel_left,
        getElem?_append_left before]
    · rw [getElem?_eq_none (by omega)]
  have parts := take_append_drop back.length
    (result.words.drop (front.length + (head.length + width)))
  rw [shifted] at parts
  refine ⟨(result.words.drop front.length).take (head.length + width),
    (result.words.drop (front.length + (head.length + width))).drop back.length, ?_, ?_⟩
  · calc result.words
      _ = result.words.take front.length ++
            ((result.words.drop front.length).take (head.length + width) ++
              (result.words.drop front.length).drop (head.length + width)) := by
          rw [take_append_drop, take_append_drop]
      _ = _ := by rw [kept, drop_drop, parts]
  · rw [length_take, length_drop]
    omega

end Block

end CommCentral.Base
