import CommCentral.Gloda.LRUOrder

/-! Runs of the cache of a gloda noun: it holds the items used last, in the order of their use. -/
namespace CommCentral.Gloda

open Lib List
open RecentItems (newItems)

/-- One item was used again after every use of another. -/
def UsedBefore (history : List Nat) (older newer : Nat) : Prop :=
  ∃ before after, history = before ++ newer :: after ∧ older ∉ after

section

lemma UsedBefore.concat (before : UsedBefore history older newer) (other : older ≠ item) :
    UsedBefore (history ++ [item]) older newer := by
  obtain ⟨early, late, rfl, absent⟩ := before
  refine ⟨early, late ++ [item], append_assoc _ _ _, ?_⟩
  intro mem
  rcases mem_append.mp mem with inLate | last
  · exact absent inLate
  · exact other (mem_singleton.mp last)

lemma pairwise_concat (ordered : items.Pairwise (UsedBefore history)) (absent : item ∉ items) :
    (items ++ [item]).Pairwise (UsedBefore (history ++ [item])) := by
  refine pairwise_append.mpr ⟨?_, pairwise_singleton _ _, ?_⟩
  · refine ordered.imp_of_mem ?_
    intro older newer mem _ before
    refine before.concat ?_
    intro same
    rw [same] at mem
    exact absent mem
  · intro older _ newer last
    rw [mem_singleton.mp last]
    exact ⟨history, [], rfl, not_mem_nil⟩

lemma pairwise_newItems (ordered : items.Pairwise (UsedBefore history)) (added) :
    (items ++ newItems items added).Pairwise (UsedBefore (history ++ newItems items added)) := by
  induction added generalizing items history with
  | nil =>
    rw [newItems, append_nil, append_nil]
    exact ordered
  | cons first rest ih =>
    rw [newItems]
    split
    · exact ih ordered
    · rename_i absent
      have grown := ih (pairwise_concat ordered absent)
      rw [append_assoc, append_assoc] at grown
      exact grown

lemma nodup_newItems (once : items.Nodup) (added) : (items ++ newItems items added).Nodup := by
  induction added generalizing items with
  | nil =>
    rw [newItems, append_nil]
    exact once
  | cons first rest ih =>
    rw [newItems]
    split
    · exact ih once
    · rename_i absent
      have grown : (items ++ [first]).Nodup := by
        rw [← concat_eq_append, nodup_concat]
        exact ⟨absent, once⟩
      have all := ih grown
      rw [append_assoc] at all
      exact all

end

/-- The items that a call uses: those an `add` finds missing, and one that is hit. -/
def LRUCacheCollection.used (cache : LRUCacheCollection) : CacheCall → List Nat
  | .add items => newItems (cache.idMap.sort (· ≤ ·)) items
  | .hit item => [item]
  | _ => []

/-- A call on a cache, with all items used so far. -/
def logged (state : LRUCacheCollection × List Nat) (call : CacheCall) :
    Option (LRUCacheCollection × List Nat) :=
  (state.1.call call).map fun next => (next, state.2 ++ state.1.used call)

lemma newItems_congr (same : ∀ item, item ∈ items ↔ item ∈ others) (added) :
    newItems items added = newItems others added := by
  induction added generalizing items others with
  | nil => rfl
  | cons first rest ih =>
    rw [newItems, newItems, ih same]
    have grown : newItems (items ++ [first]) rest = newItems (others ++ [first]) rest := by
      apply ih
      intro item
      rw [mem_append, mem_append, same]
    rw [grown]
    exact if_congr (same first) rfl rfl

/-- What a run keeps: the cache holds its items in the order of their last use, and has room for
them. -/
structure Ordered (maxCacheSize : Nat) (state : LRUCacheCollection × List Nat)
    (recent : RecentItems) : Prop where
  holds : state.1.Holds recent
  max_eq : state.1.maxCacheSize = maxCacheSize
  bounded : recent.items.length ≤ maxCacheSize
  order : recent.items.Pairwise (UsedBefore state.2)

lemma used_add {cache : LRUCacheCollection} (holds : cache.Holds recent) (items) :
    cache.used (.add items) = newItems recent.items items := by
  apply newItems_congr
  intro item
  rw [Finset.mem_sort]
  exact holds.wellLinked.inMap item

lemma logged_ordered {call : CacheCall} (ordered : Ordered maxCacheSize state recent)
    (room : 1 ≤ maxCacheSize) (allows : state.1.Allows call) :
    ∃ after, logged state call = some after ∧
      Ordered maxCacheSize after (recent.call maxCacheSize call) := by
  obtain ⟨holds, rfl, bounded, order⟩ := ordered
  obtain ⟨next, taken, maxSame, nextHolds⟩ := LRUCacheCollection.call_holds holds room allows
  rw [logged, taken]
  refine ⟨_, rfl, nextHolds, maxSame, ?_, ?_⟩
  · cases call with
    | add items =>
      let grown := recent.items ++ newItems recent.items items
      change (grown.drop (grown.length - state.1.maxCacheSize)).length ≤ state.1.maxCacheSize
      rw [length_drop]
      omega
    | hit item =>
      have member := (holds.wellLinked.inMap item).mp allows
      have some := length_pos_of_mem member
      change (recent.items.erase item ++ [item]).length ≤ _
      rw [length_append, length_erase_of_mem member, length_singleton]
      omega
    | deleted item => exact (length_erase_le).trans bounded
    | commitDirty => exact bounded
    | setDirty item => exact bounded
  · cases call with
    | add items =>
      change (List.drop _ _).Pairwise (UsedBefore (state.2 ++ state.1.used (.add items)))
      rw [used_add holds]
      exact (pairwise_newItems order items).drop
    | hit item =>
      refine pairwise_concat (order.sublist (erase_sublist)) ?_
      exact holds.wellLinked.once.not_mem_erase
    | deleted item =>
      change List.Pairwise (UsedBefore (state.2 ++ [])) _
      rw [append_nil]
      exact order.sublist (erase_sublist)
    | commitDirty | setDirty item =>
      change List.Pairwise (UsedBefore (state.2 ++ [])) _
      rw [append_nil]
      exact order

lemma create_ordered (cacheSize : Nat) :
    Ordered (max 32 cacheSize) (LRUCacheCollection.create cacheSize, []) {} := by
  refine ⟨LRUCacheCollection.create_holds cacheSize, ?_, Nat.zero_le _, List.Pairwise.nil⟩
  change (if cacheSize < 32 then 32 else cacheSize) = max 32 cacheSize
  split
  · omega
  · omega

lemma run_ordered (allowed : AdmissibleSome (fun state => state.1.Allows) logged
      (LRUCacheCollection.create cacheSize, []) calls) :
    ∃ last, runSome logged (LRUCacheCollection.create cacheSize, []) calls = some last ∧
      ∃ recent, Ordered (max 32 cacheSize) last recent := by
  refine runSome_invariant _ logged ?_ ⟨{}, create_ordered cacheSize⟩ allowed
  rintro state call ⟨recent, ordered⟩ allows
  obtain ⟨after, taken, next⟩ := logged_ordered ordered (by omega) allows
  exact ⟨after, taken, _, next⟩

/-- In every run a cache is well linked, has room for its items and keeps them in the order in
which they were last hit or put into it. An `add` then evicts the oldest items, no more than it
has to, and writes back those of them that are dirty, each once. -/
theorem cache_keeps_recent (cacheSize : Nat) (calls : List CacheCall)
    (allowed : AdmissibleSome (fun state => state.1.Allows) logged
      (LRUCacheCollection.create cacheSize, []) calls) :
    ∃ cache history items,
      runSome logged (LRUCacheCollection.create cacheSize, []) calls = some (cache, history) ∧
      cache.WellLinked items ∧ cache.maxCacheSize = max 32 cacheSize ∧
      cache.size ≤ cache.maxCacheSize ∧ items.Pairwise (UsedBefore history) ∧
      ∀ added, ∃ next evicted kept, cache.add added = some next ∧ next.WellLinked kept ∧
        next.size ≤ cache.maxCacheSize ∧ items ++ newItems items added = evicted ++ kept ∧
        (evicted = [] ∨ next.size = cache.maxCacheSize) ∧ evicted.Nodup ∧
        next.objUpdated = cache.objUpdated ++ evicted.filter cache.dirty ∧
        ∀ item, next.dirty item = (cache.dirty item && item ∉ evicted) := by
  obtain ⟨⟨cache, history⟩, runs, recent, ordered⟩ := run_ordered allowed
  have wellLinked := ordered.holds.wellLinked
  have maxEq : cache.maxCacheSize = max 32 cacheSize := ordered.max_eq
  refine ⟨cache, history, recent.items, runs, wellLinked, maxEq, ?_, ordered.order, ?_⟩
  · have bounded := ordered.bounded
    rw [wellLinked.counted, maxEq]
    omega
  · intro added
    obtain ⟨next, adds, -, nextHolds⟩ :=
      LRUCacheCollection.add_holds added ordered.holds (by rw [maxEq]; omega)
    let grown := recent.items ++ newItems recent.items added
    let excess := grown.length - cache.maxCacheSize
    have size : next.size = ((grown.drop excess).length : Nat) := nextHolds.wellLinked.counted
    rw [length_drop] at size
    refine ⟨next, grown.take excess, grown.drop excess, adds, nextHolds.wellLinked, ?_,
      (take_append_drop _ _).symm, ?_, ?_, ?_, ?_⟩
    · omega
    · rcases Nat.eq_zero_or_pos excess with none | some
      · exact .inl (by rw [none]; rfl)
      · exact .inr (by omega)
    · exact (nodup_newItems wellLinked.once added).sublist (take_sublist _ _)
    · rw [nextHolds.written_eq, ordered.holds.written_eq, ordered.holds.dirty_eq]
      rfl
    · intro item
      rw [nextHolds.dirty_eq, ordered.holds.dirty_eq]
      rfl

/-- Two items, of which the first becomes dirty and is hit, and the second is deleted. -/
def someCalls : List CacheCall := [.add [1, 2], .setDirty 1, .hit 1, .deleted 2]

lemma someCalls_allowed : AdmissibleSome (fun state => state.1.Allows) logged
    (LRUCacheCollection.create 40, []) someCalls := by
  decide +kernel

theorem cache_keeps_recent_some : ∃ cache history items,
    runSome logged (LRUCacheCollection.create 40, []) someCalls = some (cache, history) ∧
      cache.WellLinked items ∧ items.Pairwise (UsedBefore history) := by
  obtain ⟨cache, history, items, runs, wellLinked, -, -, order, -⟩ :=
    cache_keeps_recent 40 someCalls someCalls_allowed
  exact ⟨cache, history, items, runs, wellLinked, order⟩

/-- All items that a call names for use, those that are in the cache already too. -/
def CacheCall.named : CacheCall → List Nat
  | .add items => items
  | .hit item => [item]
  | _ => []

def addedAgain : List CacheCall := [.add [1], .add [2], .add [1]]

lemma addedAgain_items
    (runs : runSome logged (LRUCacheCollection.create 32, []) addedAgain = some (cache, history))
    (wellLinked : cache.WellLinked items) : ∃ rest, items = 1 :: 2 :: rest := by
  have head : cache.head = .item 1 := by
    cases runs
    rfl
  have next : cache.lruNext 1 = .item 2 := by
    cases runs
    rfl
  obtain ⟨headEq, -, fields⟩ := wellLinked.linked
  cases items with
  | nil => cases head.symm.trans headEq
  | cons first others =>
    cases head.symm.trans headEq
    cases others with
    | nil => cases next.symm.trans fields.2.1
    | cons second rest =>
      cases next.symm.trans fields.2.1
      exact ⟨rest, rfl⟩

lemma addedAgain_named : ¬ UsedBefore (addedAgain.flatMap CacheCall.named) 1 2 := by
  rintro ⟨before, after, uses, absent⟩
  change [1, 2, 1] = before ++ 2 :: after at uses
  match before with
  | [] => cases uses
  | [_] =>
    cases uses
    exact absent mem_cons_self
  | [_, _] => cases uses
  | _ :: _ :: _ :: early =>
    have length := congrArg List.length uses
    rw [length_append] at length
    change 3 = early.length + 3 + (after.length + 1) at length
    omega

/-- An item that is added again keeps its place. -/
theorem added_again_stays : ¬ ∀ cacheSize calls,
    AdmissibleSome (fun state => state.1.Allows) logged
      (LRUCacheCollection.create cacheSize, []) calls →
    ∃ cache history items,
      runSome logged (LRUCacheCollection.create cacheSize, []) calls = some (cache, history) ∧
      cache.WellLinked items ∧ items.Pairwise (UsedBefore (calls.flatMap CacheCall.named)) := by
  intro always
  have allowed : AdmissibleSome (fun state => state.1.Allows) logged
      (LRUCacheCollection.create 32, []) addedAgain := by
    decide +kernel
  obtain ⟨cache, history, items, runs, wellLinked, order⟩ := always 32 addedAgain allowed
  obtain ⟨rest, rfl⟩ := addedAgain_items runs wellLinked
  exact addedAgain_named ((pairwise_cons.mp order).1 2 mem_cons_self)

end CommCentral.Gloda
