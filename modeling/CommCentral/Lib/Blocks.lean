import Mathlib.Data.List.Basic
import Mathlib.Tactic.Common

/-! Streams cut into blocks of a fixed size: the complete blocks, the items left
over, and what becomes of them when more items arrive. -/

namespace CommCentral.Lib
open List

variable {α : Type u}

def blocks (size : Nat) (items : List α) : List (List α) :=
  if _ : 0 < size ∧ size ≤ items.length then
    items.take size :: blocks size (items.drop size)
  else []
termination_by items.length
decreasing_by simp only [length_drop]; omega

/-- The items after the last complete block. -/
def leftover (size : Nat) (items : List α) : List α :=
  if _ : 0 < size ∧ size ≤ items.length then leftover size (items.drop size) else items
termination_by items.length
decreasing_by simp only [length_drop]; omega

section
variable {size : Nat}

lemma blocks_short (short : items.length < size) : blocks size items = [] := by
  rw [blocks, dif_neg]
  omega

lemma leftover_short (short : items.length < size) : leftover size items = items := by
  rw [leftover, dif_neg]
  omega

lemma blocks_cons (positive : 0 < size) (sized : block.length = size) (items) :
    blocks size (block ++ items) = block :: blocks size items := by
  have whole : 0 < size ∧ size ≤ (block ++ items).length := by
    simp only [length_append]
    omega
  rw [blocks, dif_pos whole, take_left' sized, drop_left' sized]

lemma leftover_cons (positive : 0 < size) (sized : block.length = size) (items) :
    leftover size (block ++ items) = leftover size items := by
  have whole : 0 < size ∧ size ≤ (block ++ items).length := by
    simp only [length_append]
    omega
  rw [leftover, dif_pos whole, drop_left' sized]

end

variable {size : Nat}

lemma blocks_unique (positive : 0 < size) {parts : List (List α)}
    (sized : ∀ block ∈ parts, block.length = size) (short : rest.length < size) :
    blocks size (parts.flatten ++ rest) = parts ∧
      leftover size (parts.flatten ++ rest) = rest := by
  induction parts with
  | nil => exact ⟨blocks_short short, leftover_short short⟩
  | cons block parts ih =>
    have blockSized := sized block (mem_cons_self ..)
    obtain ⟨sameBlocks, sameRest⟩ := ih fun other mem => sized other (mem_cons_of_mem block mem)
    rw [flatten_cons, append_assoc, blocks_cons positive blockSized,
      leftover_cons positive blockSized, sameBlocks, sameRest]
    exact ⟨rfl, rfl⟩

/-- Every list is its complete blocks and a short rest. -/
theorem blocks_decompose (positive : 0 < size) (items : List α) :
    (∀ block ∈ blocks size items, block.length = size) ∧
      (leftover size items).length < size ∧
      (blocks size items).flatten ++ leftover size items = items := by
  induction items using blocks.induct size with
  | case1 items whole ih =>
    obtain ⟨sized, short, joined⟩ := ih
    have headSized : (items.take size).length = size := by
      rw [length_take]
      omega
    rw [← take_append_drop size items, blocks_cons positive headSized,
      leftover_cons positive headSized]
    refine ⟨?_, short, ?_⟩
    · intro block mem
      cases mem_cons.mp mem with
      | inl head => rw [head, headSized]
      | inr tail => exact sized block tail
    · rw [flatten_cons, append_assoc, joined]
  | case2 items notWhole =>
    have short : items.length < size := by omega
    rw [blocks_short short, leftover_short short]
    exact ⟨fun block mem => absurd mem not_mem_nil, short, rfl⟩

/-- Blocks of a stream that arrives in two pieces: the items left over from the
first piece go in front of the second. -/
theorem blocks_append (positive : 0 < size) (items more : List α) :
    blocks size (items ++ more) =
        blocks size items ++ blocks size (leftover size items ++ more) ∧
      leftover size (items ++ more) = leftover size (leftover size items ++ more) := by
  obtain ⟨sized, -, joined⟩ := blocks_decompose positive items
  obtain ⟨moreSized, moreShort, moreJoined⟩ :=
    blocks_decompose positive (leftover size items ++ more)
  have allSized : ∀ block ∈ blocks size items ++ blocks size (leftover size items ++ more),
      block.length = size := by
    intro block mem
    cases mem_append.mp mem with
    | inl inFirst => exact sized block inFirst
    | inr inSecond => exact moreSized block inSecond
  have whole : (blocks size items ++ blocks size (leftover size items ++ more)).flatten ++
      leftover size (leftover size items ++ more) = items ++ more := by
    rw [flatten_append, append_assoc, moreJoined, ← append_assoc, joined]
  have unique := blocks_unique positive allSized moreShort
  rw [whole] at unique
  exact unique

lemma flatten_length {parts : List (List α)}
    (sized : ∀ block ∈ parts, block.length = size) :
    parts.flatten.length = size * parts.length := by
  induction parts with
  | nil => rfl
  | cons block parts ih =>
    rw [flatten_cons, length_append, sized block (mem_cons_self ..),
      ih fun other mem => sized other (mem_cons_of_mem block mem), length_cons,
      Nat.mul_add, Nat.mul_one, Nat.add_comm]

lemma leftover_length (positive : 0 < size) (items : List α) :
    (leftover size items).length = items.length % size := by
  obtain ⟨sized, short, joined⟩ := blocks_decompose positive items
  have lengths := congrArg List.length joined
  rw [length_append, flatten_length sized] at lengths
  rw [← lengths, Nat.mul_add_mod, Nat.mod_eq_of_lt short]

/-- The complete blocks are the front of the list, the rest is its end. -/
theorem blocks_split (positive : 0 < size) (items : List α) :
    (blocks size items).flatten = items.take (items.length - items.length % size) ∧
      leftover size items = items.drop (items.length - items.length % size) := by
  obtain ⟨-, -, joined⟩ := blocks_decompose positive items
  have lengths := congrArg List.length joined
  rw [length_append, leftover_length positive] at lengths
  have front : (blocks size items).flatten.length = items.length - items.length % size := by
    omega
  have whole := joined.trans
    (take_append_drop (items.length - items.length % size) items).symm
  have frontLength : (blocks size items).flatten.length =
      (items.take (items.length - items.length % size)).length := by
    rw [length_take, front]
    omega
  exact append_inj whole frontLength

lemma leftover_length_lt (positive : 0 < size) (items : List α) :
    (leftover size items).length < size :=
  (blocks_decompose positive items).2.1

end CommCentral.Lib
