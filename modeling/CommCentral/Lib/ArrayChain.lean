import Mathlib.Data.List.Nodup
import Mathlib.Tactic.Common

/-! Chains of entries that link to one another by their places in an array. Place 0 ends a
chain. -/
namespace CommCentral.Lib
open List

universe u

variable {Entry : Type u}

/-- The places and entries of the chain that a link starts. -/
def Chain (next : Entry → Nat) (store : List Entry) : (link : Nat) → List (Nat × Entry) → Prop
  | link, [] => link = 0
  | link, first :: rest =>
    link = first.1 ∧ first.1 ≠ 0 ∧ store[first.1]? = some first.2 ∧
      Chain next store (next first.2) rest

variable {next : Entry → Nat} {store changed : List Entry}
variable {chain before after : List (Nat × Entry)} {entry replaced : Entry}

lemma Chain.eq_nil (linked : Chain next store 0 chain) : chain = [] := by
  cases chain with
  | nil => rfl
  | cons first rest => exact absurd linked.1.symm linked.2.1

lemma Chain.in_store (linked : Chain next store link chain) (inChain : mem ∈ chain) :
    store[mem.1]? = some mem.2 := by
  induction chain generalizing link with
  | nil => cases inChain
  | cons first rest ih =>
    cases mem_cons.mp inChain with
    | inl here =>
      rw [here]
      exact linked.2.2.1
    | inr there => exact ih linked.2.2.2 there

lemma Chain.lt_length (linked : Chain next store link chain) (inChain : mem ∈ chain) :
    mem.1 < store.length :=
  (List.getElem?_eq_some_iff.mp (linked.in_store inChain)).1

lemma Chain.ne_zero (linked : Chain next store link chain) (inChain : mem ∈ chain) :
    mem.1 ≠ 0 := by
  induction chain generalizing link with
  | nil => cases inChain
  | cons first rest ih =>
    cases mem_cons.mp inChain with
    | inl here =>
      rw [here]
      exact linked.2.1
    | inr there => exact ih linked.2.2.2 there

/-- Only the entries of its own places count for a chain. -/
theorem Chain.frame (linked : Chain next store link chain)
    (same : ∀ mem ∈ chain, changed[mem.1]? = store[mem.1]?) :
    Chain next changed link chain := by
  induction chain generalizing link with
  | nil => exact linked
  | cons first rest ih =>
    refine ⟨linked.1, linked.2.1, ?_, ih linked.2.2.2 ?_⟩
    · rw [same first mem_cons_self]
      exact linked.2.2.1
    · exact fun mem inRest => same mem (mem_cons_of_mem _ inRest)

lemma Chain.replace (linked : Chain next store link (before ++ (place, entry) :: after))
    (once : ((before ++ (place, entry) :: after).map Prod.fst).Nodup)
    (sameNext : next replaced = next entry) :
    Chain next (store.set place replaced) link (before ++ (place, replaced) :: after) := by
  induction before generalizing link with
  | nil =>
    obtain ⟨start, nonzero, found, rest⟩ := linked
    refine ⟨start, nonzero, ?_, ?_⟩
    · exact getElem?_set_self (List.getElem?_eq_some_iff.mp found).1
    · rw [sameNext]
      refine rest.frame ?_
      intro mem inRest
      refine getElem?_set_ne ?_
      intro same
      exact (nodup_cons.mp once).1 (mem_map.mpr ⟨mem, inRest, same.symm⟩)
  | cons first rest ih =>
    obtain ⟨start, nonzero, found, others⟩ := linked
    obtain ⟨absent, onceRest⟩ := nodup_cons.mp once
    refine ⟨start, nonzero, ?_, ih others onceRest⟩
    rw [getElem?_set_ne]
    · exact found
    · intro same
      exact absent (mem_map.mpr ⟨(place, entry),
        mem_append_right _ mem_cons_self, same⟩)

lemma chain_new (ended : next entry = 0) (some : store ≠ []) :
    Chain next (store ++ [entry]) store.length [(store.length, entry)] := by
  refine ⟨rfl, ?_, ?_, ended⟩
  · exact fun none => some (length_eq_zero_iff.mp none)
  · exact getElem?_concat_length

lemma Chain.concat {last : Entry} (linked : Chain next store link (before ++ [(place, last)]))
    (once : ((before ++ [(place, last)]).map Prod.fst).Nodup)
    (toNew : next replaced = store.length) (ended : next entry = 0) (some : store ≠ []) :
    Chain next ((store ++ [entry]).set place replaced) link
      (before ++ [(place, replaced), (store.length, entry)]) := by
  induction before generalizing link with
  | nil =>
    obtain ⟨start, nonzero, found, -⟩ := linked
    have within := (List.getElem?_eq_some_iff.mp found).1
    refine ⟨start, nonzero, ?_, ?_⟩
    · apply getElem?_set_self
      rw [length_append]
      exact Nat.lt_add_right _ within
    · rw [toNew]
      refine (chain_new ended some).frame ?_
      intro mem isNew
      rw [mem_singleton.mp isNew]
      exact getElem?_set_ne (Nat.ne_of_lt within)
  | cons first rest ih =>
    obtain ⟨start, nonzero, found, others⟩ := linked
    obtain ⟨absent, onceRest⟩ := nodup_cons.mp once
    refine ⟨start, nonzero, ?_, ih others onceRest⟩
    rw [getElem?_set_ne, getElem?_append_left (List.getElem?_eq_some_iff.mp found).1]
    · exact found
    · intro same
      exact absent (mem_map.mpr ⟨(place, last),
        mem_append_right _ mem_cons_self, same⟩)

end CommCentral.Lib
