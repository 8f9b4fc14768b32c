import Mathlib.Data.List.Basic
import Mathlib.Tactic.Common

/-! Memory of a fixed size whose accesses are checked: an access out of range
has no result. -/

namespace CommCentral.Lib
open List

variable {α : Type u}

/-- Appends to the written prefix of a buffer. -/
def push (capacity : Nat) (written : List α) (item : α) : Option (List α) :=
  if written.length < capacity then some (written ++ [item]) else none

/-- Appends the items one by one. -/
def pushAll (capacity : Nat) : List α → List α → Option (List α)
  | written, [] => some written
  | written, item :: items =>
    (push capacity written item).bind fun written => pushAll capacity written items

/-- Writes one cell. -/
def store (memory : List α) (index : Nat) (item : α) : Option (List α) :=
  if index < memory.length then some (memory.set index item) else none

/-- Writes consecutive cells. -/
def overwrite (memory : List α) (start : Nat) (items : List α) : Option (List α) :=
  if start + items.length ≤ memory.length then
    some (memory.take start ++ items ++ memory.drop (start + items.length))
  else none

/-- Reads consecutive cells. -/
def fetch (memory : List α) (start count : Nat) : Option (List α) :=
  if start + count ≤ memory.length then some ((memory.drop start).take count) else none

section
variable {written memory items : List α} {index start : Nat}

lemma push_of_lt (room : written.length < capacity) :
    push capacity written item = some (written ++ [item]) :=
  if_pos room

lemma pushAll_of_le (room : written.length + items.length ≤ capacity) :
    pushAll capacity written items = some (written ++ items) := by
  induction items generalizing written with
  | nil => rw [pushAll, append_nil]
  | cons item items ih =>
    rw [length_cons] at room
    have space : written.length < capacity := by omega
    have rest : (written ++ [item]).length + items.length ≤ capacity := by
      rw [length_append, length_singleton]
      omega
    rw [pushAll, push_of_lt space, Option.bind_some, ih rest, append_assoc,
      singleton_append]

lemma store_of_lt (inside : index < memory.length) :
    store memory index item = some (memory.set index item) :=
  if_pos inside

lemma store_middle {before after : List α} (item : α) :
    store (before ++ old :: after) before.length item = some (before ++ item :: after) := by
  have inside : before.length < (before ++ old :: after).length := by
    rw [length_append, length_cons]
    omega
  rw [store_of_lt inside, set_append_right _ _ (Nat.le_refl _), Nat.sub_self, set_cons_zero]

lemma overwrite_middle {before old after : List α} (length : old.length = items.length) :
    overwrite (before ++ old ++ after) before.length items = some (before ++ items ++ after) := by
  have inside : before.length + items.length ≤ (before ++ old ++ after).length := by
    rw [length_append, length_append]
    omega
  have front : (before ++ old ++ after).take before.length = before := by
    rw [append_assoc, take_left]
  rw [overwrite, if_pos inside, front, ← length, ← length_append, drop_left]

lemma fetch_middle {before after : List α} :
    fetch (before ++ items ++ after) before.length items.length = some items := by
  have inside : before.length + items.length ≤ (before ++ items ++ after).length := by
    rw [length_append, length_append]
    omega
  rw [fetch, if_pos inside, append_assoc, drop_left, take_left]

/-- The cells behind the written ones keep their contents. -/
theorem overwrite_spec (inside : start + items.length ≤ memory.length) :
    ∃ memory', overwrite memory start items = some memory' ∧
      memory'.length = memory.length ∧
      (∀ index, start + items.length ≤ index → memory'.drop index = memory.drop index) ∧
      ∀ count, count ≤ items.length →
        memory'.take (start + count) = memory.take start ++ items.take count := by
  have front : (memory.take start).length = start := by
    rw [length_take]
    omega
  refine ⟨_, if_pos inside, ?_, ?_, ?_⟩
  · simp only [length_append, length_drop, front]
    omega
  · intro index after
    obtain ⟨more, rfl⟩ := Nat.exists_eq_add_of_le after
    have written : (memory.take start ++ items).length = start + items.length := by
      rw [length_append, front]
    rw [← written, drop_length_add_append, written, drop_drop]
  · intro count within
    have shifted : start + count = (memory.take start).length + count := by rw [front]
    rw [append_assoc, shifted, take_length_add_append,
      take_append_of_le_length within]

end

end CommCentral.Lib
