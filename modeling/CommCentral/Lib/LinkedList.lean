import Mathlib.Logic.Function.Basic
import Mathlib.Tactic.Common

/-! Lists that are linked in both directions through two fields of their items. -/
namespace CommCentral.Lib
open List Function

universe u

/-- What a field for an item holds. -/
inductive Link (Item : Type u)
  | absent
  | null
  | item (target : Item)
  deriving DecidableEq

variable {Item : Type u}

def firstLink (below : Link Item) : List Item → Link Item
  | [] => below
  | first :: _ => .item first

/-- The last item, or what stands before the list. -/
def lastLink (above : Link Item) : List Item → Link Item
  | [] => above
  | first :: rest => lastLink (.item first) rest

/-- The fields of the items of a part of a list, which stands between two links. -/
def Segment (prev next : Item → Link Item) (above : Link Item) :
    (items : List Item) → (below : Link Item) → Prop
  | [], _ => True
  | first :: rest, below =>
    prev first = above ∧ next first = firstLink below rest ∧
      Segment prev next (.item first) rest below

structure Linked (head tail : Link Item) (prev next : Item → Link Item) (items : List Item) :
    Prop where
  head_eq : head = firstLink .null items
  tail_eq : tail = lastLink .null items
  fields : Segment prev next .null items .null

/-- A field of the item of a link is written. Without an item there is no such field. -/
def writeField [DecidableEq Item] (field : Item → Link Item) (target value : Link Item) :
    Option (Item → Link Item) :=
  match target with
  | .item item => some (Function.update field item value)
  | _ => none

variable {prev next prev' next' : Item → Link Item} {above below value : Link Item}
variable {items others before after rest : List Item} {item first last : Item}

@[simp] lemma firstLink_cons : firstLink below (first :: rest) = .item first := rfl

@[simp] lemma lastLink_concat : lastLink above (items ++ [last]) = .item last := by
  induction items generalizing above with
  | nil => rfl
  | cons first rest ih => exact ih

lemma lastLink_append : lastLink above (items ++ others) =
    lastLink (lastLink above items) others := by
  induction items generalizing above with
  | nil => rfl
  | cons first rest ih => exact ih

lemma firstLink_append : firstLink below (items ++ others) =
    firstLink (firstLink below others) items := by
  cases items with
  | nil => rfl
  | cons first rest => rfl

lemma lastLink_eq (some : items ≠ []) : ∃ last ∈ items, ∀ above, lastLink above items =
    .item last := by
  rcases eq_nil_or_concat items with nil | ⟨others, last, rfl⟩
  · exact absurd nil some
  · rw [concat_eq_append]
    exact ⟨last, mem_append_right _ mem_cons_self, fun _ => lastLink_concat⟩

/-- Two parts of a list stand next to one another. -/
theorem segment_append : Segment prev next above (items ++ others) below ↔
    Segment prev next above items (firstLink below others) ∧
      Segment prev next (lastLink above items) others below := by
  induction items generalizing above with
  | nil => exact (iff_of_eq (true_and _)).symm
  | cons first rest ih =>
    rw [cons_append, Segment, Segment, ih, firstLink_append, lastLink, and_assoc, and_assoc]

/-- Only the fields of its own items count for a part of a list. -/
theorem Segment.frame (segment : Segment prev next above items below)
    (samePrev : ∀ item ∈ items, prev' item = prev item)
    (sameNext : ∀ item ∈ items, next' item = next item) :
    Segment prev' next' above items below := by
  induction items generalizing above with
  | nil => trivial
  | cons first rest ih =>
    refine ⟨?_, ?_, ih segment.2.2 ?_ ?_⟩
    · rw [samePrev first mem_cons_self]
      exact segment.1
    · rw [sameNext first mem_cons_self]
      exact segment.2.1
    · exact fun item mem => samePrev item (mem_cons_of_mem _ mem)
    · exact fun item mem => sameNext item (mem_cons_of_mem _ mem)

section Update

variable [DecidableEq Item]

lemma Segment.frame_prev (segment : Segment prev next above items below)
    (other : item ∉ items) : Segment (Function.update prev item value) next above items below := by
  refine segment.frame ?_ fun _ _ => rfl
  intro mem inItems
  have different : mem ≠ item := by
    intro same
    rw [same] at inItems
    exact other inItems
  rw [update_of_ne different]

lemma Segment.frame_next (segment : Segment prev next above items below)
    (other : item ∉ items) : Segment prev (Function.update next item value) above items below := by
  refine segment.frame (fun _ _ => rfl) ?_
  intro mem inItems
  have different : mem ≠ item := by
    intro same
    rw [same] at inItems
    exact other inItems
  rw [update_of_ne different]

/-- The first item may stand after another one. -/
theorem Segment.relink_first (segment : Segment prev next above (first :: rest) below)
    (value : Link Item) (once : first ∉ rest) :
    Segment (Function.update prev first value) next value (first :: rest) below :=
  ⟨update_self first value prev, segment.2.1, segment.2.2.frame_prev once⟩

/-- The last item may stand before another one. -/
theorem Segment.relink_last (segment : Segment prev next above (items ++ [last]) below)
    (value : Link Item) (once : last ∉ items) :
    Segment prev (Function.update next last value) above (items ++ [last]) value := by
  obtain ⟨early, late⟩ := segment_append.mp segment
  refine segment_append.mpr ⟨early.frame_next once, late.1, ?_, trivial⟩
  exact update_self last value next

/-- The last item of a part of a list is written, whichever it is. -/
theorem Segment.relink_lastLink (segment : Segment prev next above items below)
    (value : Link Item) (once : items.Nodup) (last : Item) (isLast : lastLink above items = .item last)
    (some : items ≠ []) : Segment prev (Function.update next last value) above items value := by
  rcases eq_nil_or_concat items with nil | ⟨others, other, rfl⟩
  · exact absurd nil some
  · rw [concat_eq_append] at segment once isLast ⊢
    rw [lastLink_concat] at isLast
    cases isLast
    apply segment.relink_last
    intro mem
    exact (nodup_append.mp once).2.2 last mem last mem_cons_self rfl

end Update

end CommCentral.Lib
