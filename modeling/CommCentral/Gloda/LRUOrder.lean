import CommCentral.Gloda.LRUCache
import CommCentral.Lib.Run

/-! The cache of a gloda noun is well linked and keeps the order in which its items were used. -/
namespace CommCentral.Gloda

open Lib List Function

/-- What the cache is for: items from the oldest to the newest, which of all items are dirty,
and those written so far. -/
structure RecentItems where
  items : List Nat := []
  dirty : Nat → Bool := fun _ => false
  written : List Nat := []

namespace RecentItems

/-- The items that an `add` finds missing. -/
def newItems (items : List Nat) : List Nat → List Nat
  | [] => []
  | item :: rest =>
    if item ∈ items then newItems items rest else item :: newItems (items ++ [item]) rest

variable (recent : RecentItems)

/-- Items are written if they are dirty, and are not dirty any more. -/
def write (items : List Nat) : RecentItems :=
  { recent with
    dirty := fun item => recent.dirty item && item ∉ items
    written := recent.written ++ items.filter recent.dirty }

/-- The oldest items leave. -/
def evict (count : Nat) : RecentItems :=
  { recent.write (recent.items.take count) with items := recent.items.drop count }

def call (maxCacheSize : Nat) : CacheCall → RecentItems
  | .add items =>
    let grown := { recent with items := recent.items ++ newItems recent.items items }
    grown.evict (grown.items.length - maxCacheSize)
  | .hit item => { recent with items := recent.items.erase item ++ [item] }
  | .deleted item => { recent with items := recent.items.erase item }
  | .commitDirty => recent.write (recent.items.toFinset.sort (· ≤ ·))
  | .setDirty item => { recent with dirty := Function.update recent.dirty item true }

end RecentItems

lemma RecentItems.evict_zero (recent : RecentItems) : recent.evict 0 = recent := by
  have kept : (fun item => recent.dirty item && decide (item ∉ recent.items.take 0)) =
      recent.dirty :=
    funext fun item => Bool.and_true _
  exact congrArg₂ (RecentItems.mk recent.items) kept (append_nil _)

lemma RecentItems.write_cons (recent : RecentItems) {items : List Nat} (other : first ∉ items) :
    (recent.write [first]).write items = recent.write (first :: items) := by
  obtain ⟨held, dirty, written⟩ := recent
  have kept : ∀ item ∈ items, (dirty item && decide (item ∉ [first])) = dirty item := by
    intro item mem
    have different : item ∉ [first] := by
      intro same
      rw [mem_singleton.mp same] at mem
      exact other mem
    rw [decide_eq_true different, Bool.and_true]
  have cleaned : ∀ item, ((dirty item && decide (item ∉ [first])) && decide (item ∉ items)) =
      (dirty item && decide (item ∉ first :: items)) := by
    intro item
    rw [Bool.and_assoc, ← Bool.decide_and]
    congr 2
    rw [mem_singleton, mem_cons, not_or]
  have writes : written ++ [first].filter dirty ++ items.filter
      (fun item => dirty item && decide (item ∉ [first])) =
        written ++ (first :: items).filter dirty := by
    rw [append_assoc, filter_congr kept, ← filter_append]
    rfl
  exact congrArg₂ (RecentItems.mk held) (funext cleaned) writes

lemma RecentItems.evict_succ (recent : RecentItems) (items : recent.items = first :: rest)
    (once : recent.items.Nodup) (count : Nat) :
    (recent.evict 1).evict count = recent.evict (count + 1) := by
  obtain ⟨_, dirty, written⟩ := recent
  cases items
  have other : first ∉ rest.take count := fun mem => (nodup_cons.mp once).1 (mem_of_mem_take mem)
  exact congrArg (fun written : RecentItems => { written with items := rest.drop count })
    (RecentItems.write_cons ⟨rest, dirty, written⟩ other)

namespace LRUCacheCollection

/-- The list of a cache from its head on is a list of items, each in it once: those of the map. -/
structure WellLinked (cache : LRUCacheCollection) (items : List Nat) : Prop where
  linked : Linked cache.head cache.tail cache.lruPrev cache.lruNext items
  once : items.Nodup
  inMap : ∀ item, item ∈ cache.idMap ↔ item ∈ items
  counted : cache.size = items.length

structure Holds (cache : LRUCacheCollection) (recent : RecentItems) : Prop where
  wellLinked : cache.WellLinked recent.items
  dirty_eq : cache.dirty = recent.dirty
  written_eq : cache.objUpdated = recent.written

lemma segment_addItem {prev next : Nat → Link Nat} {items : List Nat} {item last : Nat}
    (fields : Segment prev next .null items .null) (once : items.Nodup) (absent : item ∉ items)
    (isLast : lastLink .null items = .item last) (some : items ≠ []) :
    Segment (Function.update prev item (.item last))
      (Function.update (Function.update next last (.item item)) item .null) .null
      (items ++ [item]) .null := by
  have relinked := fields.relink_lastLink (.item item) once last isLast some
  refine segment_append.mpr ⟨(relinked.frame_prev absent).frame_next absent, ?_, ?_, trivial⟩
  · rw [isLast]
    exact update_self item _ prev
  · exact update_self item _ _

lemma WellLinked.concat {cache added : LRUCacheCollection} {items : List Nat} {item : Nat}
    (wellLinked : cache.WellLinked items) (absent : item ∉ items)
    (linked : Linked added.head added.tail added.lruPrev added.lruNext (items ++ [item]))
    (inMap : added.idMap = insert item cache.idMap) (counted : added.size = cache.size + 1) :
    added.WellLinked (items ++ [item]) := by
  refine ⟨linked, ?_, ?_, ?_⟩
  · rw [← concat_eq_append, nodup_concat]
    exact ⟨absent, wellLinked.once⟩
  · intro other
    rw [inMap, Finset.mem_insert, wellLinked.inMap, mem_append, mem_singleton]
    exact Or.comm
  · rw [counted, wellLinked.counted, length_append, length_singleton]
    rfl

variable {cache : LRUCacheCollection}

lemma addItem_first {item : Nat} (new : item ∉ cache.idMap)
    (tail : cache.tail = .null) :
    cache.addItem item = some { cache with
      head := .item item
      tail := .item item
      size := cache.size + 1
      idMap := insert item cache.idMap
      lruPrev := Function.update cache.lruPrev item .null
      lruNext := Function.update cache.lruNext item .null } := by
  obtain ⟨⟩ := cache
  cases tail
  exact (if_neg new).trans rfl

lemma addItem_later {item last : Nat} (new : item ∉ cache.idMap)
    (tail : cache.tail = .item last) :
    cache.addItem item = some { cache with
      tail := .item item
      size := cache.size + 1
      idMap := insert item cache.idMap
      lruPrev := Function.update cache.lruPrev item (.item last)
      lruNext := Function.update (Function.update cache.lruNext last (.item item)) item .null } := by
  obtain ⟨⟩ := cache
  cases tail
  exact (if_neg new).trans rfl

lemma addItem_holds {item : Nat}
    (holds : cache.Holds recent) (absent : item ∉ recent.items) :
    ∃ added, cache.addItem item = some added ∧ added.maxCacheSize = cache.maxCacheSize ∧
      added.Holds { recent with items := recent.items ++ [item] } := by
  obtain ⟨wellLinked, dirtyEq, writtenEq⟩ := holds
  have new : item ∉ cache.idMap := fun mem => absent ((wellLinked.inMap item).mp mem)
  have tail := wellLinked.linked.tail_eq
  by_cases none : recent.items = []
  · rw [none] at tail
    refine ⟨_, addItem_first new tail, rfl, wellLinked.concat absent ?_ rfl rfl, dirtyEq, writtenEq⟩
    rw [none]
    exact ⟨rfl, rfl, update_self item _ _, update_self item _ _, trivial⟩
  · obtain ⟨last, mem, isLast⟩ := lastLink_eq none
    rw [isLast] at tail
    refine ⟨_, addItem_later new tail, rfl, wellLinked.concat absent ?_ rfl rfl, dirtyEq, writtenEq⟩
    refine ⟨?_, lastLink_concat.symm, ?_⟩
    · rw [firstLink_append]
      obtain ⟨first, rest, items⟩ := exists_cons_of_ne_nil none
      rw [items]
      exact wellLinked.linked.head_eq.trans (by rw [items]; rfl)
    · exact segment_addItem wellLinked.linked.fields wellLinked.once absent (isLast .null) none

/-- The first loop of `add`. -/
theorem addItems_hold (items : List Nat)
    (holds : cache.Holds recent) :
    ∃ added, items.foldlM addItem cache = some added ∧ added.maxCacheSize = cache.maxCacheSize ∧
      added.Holds { recent with
        items := recent.items ++ RecentItems.newItems recent.items items } := by
  induction items generalizing cache recent with
  | nil =>
    refine ⟨cache, rfl, rfl, ?_⟩
    rw [RecentItems.newItems, append_nil]
    exact holds
  | cons item rest ih =>
    rw [foldlM_cons, RecentItems.newItems]
    split
    · rename_i present
      have same : cache.addItem item = some cache :=
        if_pos ((holds.wellLinked.inMap item).mpr present)
      rw [same]
      exact ih holds
    · rename_i absent
      obtain ⟨first, added, maxSame, firstHolds⟩ := addItem_holds holds absent
      obtain ⟨last, addedRest, sizeSame, lastHolds⟩ := ih firstHolds
      rw [added]
      refine ⟨last, addedRest, sizeSame.trans maxSame, ?_⟩
      rw [append_assoc] at lastHolds
      exact lastHolds

lemma flush_eq (cache : LRUCacheCollection) (item : Nat) :
    cache.flush item = { cache with
      dirty := fun other => cache.dirty other && other ∉ [item]
      objUpdated := cache.objUpdated ++ [item].filter cache.dirty } := by
  rw [flush]
  split
  · rename_i isDirty
    have cleaned : Function.update cache.dirty item false =
        fun other => cache.dirty other && other ∉ [item] := by
      funext other
      by_cases same : other = item
      · rw [same, update_self, decide_eq_false (not_not.mpr mem_cons_self),
          Bool.and_false]
      · have otherItem : other ∉ [item] := fun mem => same (mem_singleton.mp mem)
        rw [update_of_ne same, decide_eq_true otherItem, Bool.and_true]
    rw [cleaned, filter_cons_of_pos isDirty]
    rfl
  · rename_i isClean
    have kept : cache.dirty = fun other => cache.dirty other && other ∉ [item] := by
      funext other
      by_cases same : other = item
      · rw [same, Bool.eq_false_of_not_eq_true isClean, Bool.false_and]
      · have otherItem : other ∉ [item] := fun mem => same (mem_singleton.mp mem)
        rw [decide_eq_true otherItem, Bool.and_true]
    rw [← kept, filter_cons_of_neg isClean, filter_nil, append_nil]

/-- The head of a list of two or more items leaves it. -/
theorem evict_eq (head : cache.head = .item first) (next : cache.lruNext first = .item second) :
    cache.evict = some { cache with
      head := .item second
      size := cache.size - 1
      idMap := cache.idMap.erase first
      lruPrev := Function.update (Function.update cache.lruPrev second .null) first .absent
      lruNext := Function.update cache.lruNext first .absent
      dirty := fun other => cache.dirty other && other ∉ [first]
      objUpdated := cache.objUpdated ++ [first].filter cache.dirty } := by
  rw [evict, head]
  simp only [writePrev, writeNext, writeField, next, flush_eq, Option.map_some]
  rfl

lemma evict_holds (holds : cache.Holds recent) (items : recent.items = first :: second :: rest) :
    ∃ smaller, cache.evict = some smaller ∧ smaller.maxCacheSize = cache.maxCacheSize ∧
      smaller.Holds (recent.evict 1) := by
  obtain ⟨_, dirty, written⟩ := recent
  cases items
  obtain ⟨⟨⟨headEq, tailEq, fields⟩, once, inMap, counted⟩, dirtyEq, writtenEq⟩ := holds
  obtain ⟨absent, onceRest⟩ := nodup_cons.mp once
  refine ⟨_, evict_eq headEq fields.2.1, rfl, ⟨⟨rfl, tailEq, ?_⟩, onceRest, ?_, ?_⟩, ?_, ?_⟩
  · have relinked := fields.2.2.relink_first .null (nodup_cons.mp onceRest).1
    exact (relinked.frame_prev absent).frame_next absent
  · intro item
    rw [Finset.mem_erase, inMap]
    constructor
    · exact fun ⟨different, mem⟩ => (mem_cons.mp mem).resolve_left different
    · intro mem
      refine ⟨?_, mem_cons_of_mem first mem⟩
      intro same
      rw [same] at mem
      exact absent mem
  · change cache.size - 1 = _
    rw [counted]
    change ((rest.length + 1 + 1 : Nat) : Int) - 1 = ((rest.length + 1 : Nat) : Int)
    omega
  · change (fun other => cache.dirty other && decide (other ∉ [first])) = _
    rw [dirtyEq]
    rfl
  · change cache.objUpdated ++ [first].filter cache.dirty = _
    rw [dirtyEq, writtenEq]
    rfl

/-- The loop evicts as many of the oldest items as there are too many. -/
theorem evictWhile_holds (holds : cache.Holds recent) (room : 1 ≤ cache.maxCacheSize)
    (enough : steps = recent.items.length - cache.maxCacheSize) :
    ∃ smaller, evictWhile steps cache = some smaller ∧
      smaller.maxCacheSize = cache.maxCacheSize ∧ smaller.Holds (recent.evict steps) := by
  induction steps generalizing cache recent with
  | zero =>
    rw [RecentItems.evict_zero]
    exact ⟨cache, rfl, rfl, holds⟩
  | succ steps ih =>
    have more : (cache.maxCacheSize : Int) < cache.size := by
      rw [holds.wellLinked.counted]
      omega
    rw [evictWhile, if_pos more]
    match items : recent.items with
    | [] =>
      rw [items] at enough
      cases enough.trans (Nat.zero_sub _)
    | [first] =>
      rw [items, length_singleton] at enough
      omega
    | first :: second :: rest =>
      obtain ⟨smaller, evicted, maxSame, smallerHolds⟩ := evict_holds holds items
      rw [evicted]
      have fewer : steps = (recent.evict 1).items.length - smaller.maxCacheSize := by
        change steps = (recent.items.drop 1).length - smaller.maxCacheSize
        rw [length_drop, maxSame]
        omega
      obtain ⟨last, evictedRest, sizeSame, lastHolds⟩ := ih smallerHolds (maxSame ▸ room) fewer
      rw [RecentItems.evict_succ recent items holds.wellLinked.once] at lastHolds
      exact ⟨last, evictedRest, sizeSame.trans maxSame, lastHolds⟩

lemma add_holds (items) (holds : cache.Holds recent) (room : 1 ≤ cache.maxCacheSize) :
    ∃ added, cache.add items = some added ∧ added.maxCacheSize = cache.maxCacheSize ∧
      added.Holds (recent.call cache.maxCacheSize (.add items)) := by
  obtain ⟨grown, loop, maxSame, grownHolds⟩ := addItems_hold items holds
  rw [add, loop]
  have steps : (grown.size - grown.maxCacheSize).toNat =
      (recent.items ++ RecentItems.newItems recent.items items).length - grown.maxCacheSize := by
    rw [grownHolds.wellLinked.counted]
    exact Int.toNat_sub _ _
  obtain ⟨added, evicted, sizeSame, addedHolds⟩ :=
    evictWhile_holds grownHolds (maxSame ▸ room) steps
  refine ⟨added, evicted, sizeSame.trans maxSame, ?_⟩
  rw [steps, maxSame] at addedHolds
  exact addedHolds

lemma flush_holds (item : Nat)
    (holds : cache.Holds recent) : (cache.flush item).Holds (recent.write [item]) := by
  obtain ⟨⟨⟨headEq, tailEq, fields⟩, once, inMap, counted⟩, dirtyEq, writtenEq⟩ := holds
  rw [flush_eq, dirtyEq, writtenEq]
  exact ⟨⟨⟨headEq, tailEq, fields⟩, once, inMap, counted⟩, rfl, rfl⟩

lemma flushAll_holds {items : List Nat}
    (holds : cache.Holds recent) (once : items.Nodup) :
    (items.foldl flush cache).maxCacheSize = cache.maxCacheSize ∧
      (items.foldl flush cache).Holds (recent.write items) := by
  induction items generalizing cache recent with
  | nil =>
    have none : recent.write [] = recent :=
      congrArg₂ (RecentItems.mk recent.items) (funext fun _ => Bool.and_true _) (append_nil _)
    rw [none]
    exact ⟨rfl, holds⟩
  | cons first rest ih =>
    obtain ⟨other, onceRest⟩ := nodup_cons.mp once
    obtain ⟨maxSame, restHolds⟩ := ih (flush_holds first holds) onceRest
    rw [RecentItems.write_cons recent other] at restHolds
    refine ⟨maxSame.trans ?_, restHolds⟩
    rw [flush_eq]

lemma commitDirty_holds
    (holds : cache.Holds recent) :
    cache.commitDirty.maxCacheSize = cache.maxCacheSize ∧
      cache.commitDirty.Holds (recent.call cache.maxCacheSize .commitDirty) := by
  have ids : cache.idMap = recent.items.toFinset := by
    ext item
    rw [holds.wellLinked.inMap, mem_toFinset]
  rw [commitDirty, ids]
  exact flushAll_holds holds (Finset.sort_nodup _ _)

section Unlink

variable {before after : List Nat} {item last second : Nat}

lemma unlinkBefore_spec (fields : Segment cache.lruPrev cache.lruNext .null
      (before ++ item :: after) .null) (once : (before ++ item :: after).Nodup)
    (head : cache.head = firstLink .null (before ++ item :: after)) :
    ∃ lruNext, cache.unlinkBefore item = some { cache with
        head := firstLink .null (before ++ after)
        lruNext := lruNext } ∧
      Segment cache.lruPrev lruNext .null before (firstLink .null after) ∧
      ∀ other ∉ before, lruNext other = cache.lruNext other := by
  obtain ⟨early, prev, next, -⟩ := segment_append.mp fields
  by_cases none : before = []
  · rw [none, lastLink] at prev
    refine ⟨cache.lruNext, ?_, ?_, fun _ _ => rfl⟩
    · rw [unlinkBefore, if_neg (not_not.mpr prev), next, none]
      rfl
    · rw [none]
      trivial
  · obtain ⟨last, mem, isLast⟩ := lastLink_eq none
    rw [isLast] at prev
    have written : cache.unlinkBefore item = some { cache with
        lruNext := Function.update cache.lruNext last (cache.lruNext item) } := by
      have some : cache.lruPrev item ≠ .null := by
        rw [prev]
        intro same
        cases same
      rw [unlinkBefore, if_pos some, prev]
      rfl
    have sameHead : cache.head = firstLink .null (before ++ after) := by
      obtain ⟨first, rest, items⟩ := exists_cons_of_ne_nil none
      rw [head, items]
      rfl
    refine ⟨Function.update cache.lruNext last (cache.lruNext item), ?_, ?_, ?_⟩
    · rw [written, ← sameHead]
    · rw [next]
      exact early.relink_lastLink _ (nodup_append.mp once).1 last (isLast _) none
    · intro other outside
      refine update_of_ne ?_ _ _
      intro same
      rw [same] at outside
      exact outside mem

lemma deleted_last (unlinks : cache.unlinkBefore item = some unlinked)
    (next : unlinked.lruNext item = .null) :
    cache.deleted item = some { unlinked with
      tail := unlinked.lruPrev item
      size := unlinked.size - 1
      idMap := unlinked.idMap.erase item
      lruPrev := Function.update unlinked.lruPrev item .absent
      lruNext := Function.update unlinked.lruNext item .absent } := by
  rw [deleted, unlinks]
  change (if unlinked.lruNext item ≠ .null then _ else _) = _
  rw [if_neg (not_not.mpr next)]
  rfl

lemma deleted_inner (unlinks : cache.unlinkBefore item = some unlinked)
    (next : unlinked.lruNext item = .item second) :
    cache.deleted item = some { unlinked with
      size := unlinked.size - 1
      idMap := unlinked.idMap.erase item
      lruPrev := Function.update (Function.update unlinked.lruPrev second (unlinked.lruPrev item))
        item .absent
      lruNext := Function.update unlinked.lruNext item .absent } := by
  have some : unlinked.lruNext item ≠ .null := by
    rw [next]
    exact nofun
  rw [deleted, unlinks]
  change (if unlinked.lruNext item ≠ .null then _ else _) = _
  rw [if_pos some, next]
  rfl

lemma hit_inner (moves : ¬ (cache.head = cache.tail ∨ cache.tail = .item item))
    (unlinks : cache.unlinkBefore item = some unlinked)
    (next : unlinked.lruNext item = .item second) (tail : unlinked.tail = .item last) :
    cache.hit item = some { unlinked with
      tail := .item item
      lruPrev := Function.update
        (Function.update unlinked.lruPrev second (unlinked.lruPrev item)) item (.item last)
      lruNext := Function.update (Function.update unlinked.lruNext last (.item item)) item .null } := by
  rw [hit, if_neg moves, unlinks]
  simp only [writePrev, writeNext, writeField, next, tail, Option.map_some, Option.bind_eq_bind,
    Option.bind_some]
  rfl

/-- The list without an item, once the links around it are written. -/
theorem segment_unlinked {prev next next' : Nat → Link Nat}
    (fields : Segment prev next .null (before ++ item :: second :: after) .null)
    (once : (before ++ item :: second :: after).Nodup)
    (early : Segment prev next' .null before (firstLink .null (second :: after)))
    (kept : ∀ other ∉ before, next' other = next other) :
    Segment (Function.update prev second (lastLink .null before)) next' .null
      (before ++ second :: after) .null := by
  obtain ⟨onceBefore, onceAfter, apart⟩ := nodup_append.mp once
  obtain ⟨-, -, -, late⟩ := segment_append.mp fields
  have secondOther : second ∉ before := fun mem =>
    apart second mem second (mem_cons_of_mem _ mem_cons_self) rfl
  have lateKept : Segment prev next' (.item item) (second :: after) .null := by
    refine late.frame (fun _ _ => rfl) ?_
    intro other mem
    apply kept
    intro inBefore
    exact apart other inBefore other (mem_cons_of_mem _ mem) rfl
  refine segment_append.mpr ⟨early.frame_prev secondOther, ?_⟩
  exact lateKept.relink_first _ (nodup_cons.mp (nodup_cons.mp onceAfter).2).1

lemma erase_middle (once : (before ++ item :: after).Nodup) :
    (before ++ item :: after).erase item = before ++ after := by
  have other : item ∉ before := fun mem =>
    (nodup_append.mp once).2.2 item mem item mem_cons_self rfl
  rw [erase_append_right _ other, erase_cons_head]

lemma WellLinked.erase {smaller : LRUCacheCollection} (wellLinked : cache.WellLinked items)
    (mem : item ∈ items)
    (linked : Linked smaller.head smaller.tail smaller.lruPrev smaller.lruNext (items.erase item))
    (inMap : smaller.idMap = cache.idMap.erase item) (counted : smaller.size = cache.size - 1) :
    smaller.WellLinked (items.erase item) := by
  refine ⟨linked, wellLinked.once.erase item, ?_, ?_⟩
  · intro other
    rw [inMap, Finset.mem_erase, wellLinked.inMap, wellLinked.once.mem_erase_iff]
  · have length := length_erase_of_mem mem
    have some := length_pos_of_mem mem
    rw [counted, wellLinked.counted, length]
    omega

lemma deleted_wellLinked (wellLinked : cache.WellLinked (before ++ item :: after)) :
    ∃ smaller, cache.deleted item = some smaller ∧ smaller.maxCacheSize = cache.maxCacheSize ∧
      smaller.dirty = cache.dirty ∧ smaller.objUpdated = cache.objUpdated ∧
      smaller.WellLinked ((before ++ item :: after).erase item) := by
  have mem : item ∈ before ++ item :: after := mem_append_right _ mem_cons_self
  obtain ⟨headEq, tailEq, fields⟩ := wellLinked.linked
  have erased := erase_middle wellLinked.once
  have absent : item ∉ before ++ after := by
    rw [← erased]
    exact wellLinked.once.not_mem_erase
  have other : item ∉ before := fun inBefore => absent (mem_append_left _ inBefore)
  obtain ⟨lruNext, unlinks, early, kept⟩ := unlinkBefore_spec fields wellLinked.once headEq
  obtain ⟨-, prev, next, -⟩ := segment_append.mp fields
  cases after with
  | nil =>
    have last : lruNext item = .null := (kept item other).trans next
    refine ⟨_, deleted_last unlinks last, rfl, rfl, rfl, wellLinked.erase mem ?_ rfl rfl⟩
    rw [erased]
    refine ⟨rfl, ?_, (?_ : Segment _ _ _ _ _)⟩
    · rw [append_nil]
      exact prev
    · rw [append_nil] at absent ⊢
      exact (early.frame_prev absent).frame_next absent
  | cons second rest =>
    have inner : lruNext item = .item second := (kept item other).trans next
    refine ⟨_, deleted_inner unlinks inner, rfl, rfl, rfl, wellLinked.erase mem ?_ rfl rfl⟩
    rw [erased]
    refine ⟨rfl, ?_, ?_⟩
    · rw [lastLink_append]
      exact tailEq.trans lastLink_append
    · have unlinked := segment_unlinked fields wellLinked.once early kept
      rw [← prev] at unlinked
      exact (unlinked.frame_prev absent).frame_next absent

lemma WellLinked.reorder {moved : LRUCacheCollection} (wellLinked : cache.WellLinked items)
    (perm : items.Perm others)
    (linked : Linked moved.head moved.tail moved.lruPrev moved.lruNext others)
    (inMap : moved.idMap = cache.idMap) (counted : moved.size = cache.size) :
    moved.WellLinked others := by
  refine ⟨linked, perm.nodup_iff.mp wellLinked.once, ?_, ?_⟩
  · intro other
    rw [inMap, wellLinked.inMap, perm.mem_iff]
  · rw [counted, wellLinked.counted, perm.length_eq]

lemma hit_wellLinked (wellLinked : cache.WellLinked (before ++ item :: second :: after)) :
    ∃ moved, cache.hit item = some moved ∧ moved.maxCacheSize = cache.maxCacheSize ∧
      moved.dirty = cache.dirty ∧ moved.objUpdated = cache.objUpdated ∧
      moved.WellLinked (before ++ second :: after ++ [item]) := by
  obtain ⟨headEq, tailEq, fields⟩ := wellLinked.linked
  obtain ⟨-, onceAfter, apart⟩ := nodup_append.mp wellLinked.once
  have absent : item ∉ before ++ second :: after := by
    rw [← erase_middle wellLinked.once]
    exact wellLinked.once.not_mem_erase
  have other : item ∉ before := fun inBefore => absent (mem_append_left _ inBefore)
  obtain ⟨last, inAfter, isLast⟩ := lastLink_eq (cons_ne_nil second after)
  have tail : cache.tail = .item last := by
    rw [tailEq, lastLink_append]
    exact isLast .null
  have notTail : cache.tail ≠ .item item := by
    rw [tail]
    intro same
    cases same
    exact absent (mem_append_right _ inAfter)
  have notHead : cache.head ≠ cache.tail := by
    rw [tail, headEq]
    intro same
    cases before with
    | nil =>
      cases same
      exact absent inAfter
    | cons first rest =>
      cases same
      exact apart last mem_cons_self last (mem_cons_of_mem _ inAfter) rfl
  obtain ⟨lruNext, unlinks, early, kept⟩ := unlinkBefore_spec fields wellLinked.once headEq
  obtain ⟨-, prev, next, -⟩ := segment_append.mp fields
  have inner : lruNext item = .item second := (kept item other).trans next
  have moves : ¬ (cache.head = cache.tail ∨ cache.tail = .item item) := not_or.mpr ⟨notHead, notTail⟩
  have perm : (before ++ item :: second :: after).Perm (before ++ second :: after ++ [item]) :=
    perm_middle.trans (perm_append_singleton _ _).symm
  refine ⟨_, hit_inner moves unlinks inner tail, rfl, rfl, rfl,
    wellLinked.reorder perm ⟨?_, lastLink_concat.symm, ?_⟩ rfl rfl⟩
  · rw [append_assoc, firstLink_append, firstLink_append]
    rfl
  · have unlinked := segment_unlinked fields wellLinked.once early kept
    rw [← prev] at unlinked
    have once : (before ++ second :: after).Nodup := by
      rw [← erase_middle wellLinked.once]
      exact wellLinked.once.erase item
    refine segment_addItem unlinked once absent ?_ (append_ne_nil_of_right_ne_nil _ nofun)
    rw [lastLink_append]
    exact isLast .null

lemma hit_holds (holds : cache.Holds recent) (mem : item ∈ recent.items) :
    ∃ moved, cache.hit item = some moved ∧ moved.maxCacheSize = cache.maxCacheSize ∧
      moved.Holds (recent.call cache.maxCacheSize (.hit item)) := by
  obtain ⟨before, after, items⟩ := append_of_mem mem
  have wellLinked := holds.wellLinked
  rw [items] at wellLinked
  have erased := erase_middle wellLinked.once
  cases after with
  | nil =>
    have newest : cache.tail = .item item := wellLinked.linked.tail_eq.trans lastLink_concat
    refine ⟨cache, if_pos (.inr newest), rfl, ?_, holds.dirty_eq, holds.written_eq⟩
    change cache.WellLinked (recent.items.erase item ++ [item])
    rw [items, erased, append_nil]
    exact wellLinked
  | cons second rest =>
    obtain ⟨moved, hits, maxSame, dirtySame, writtenSame, last⟩ := hit_wellLinked wellLinked
    rw [← erased, ← items] at last
    exact ⟨moved, hits, maxSame, last, dirtySame.trans holds.dirty_eq,
      writtenSame.trans holds.written_eq⟩

lemma deleted_holds (holds : cache.Holds recent) (mem : item ∈ recent.items) :
    ∃ smaller, cache.deleted item = some smaller ∧ smaller.maxCacheSize = cache.maxCacheSize ∧
      smaller.Holds (recent.call cache.maxCacheSize (.deleted item)) := by
  obtain ⟨before, after, items⟩ := append_of_mem mem
  have wellLinked := holds.wellLinked
  rw [items] at wellLinked
  obtain ⟨smaller, deletes, maxSame, dirtySame, writtenSame, erased⟩ := deleted_wellLinked wellLinked
  rw [← items] at erased
  exact ⟨smaller, deletes, maxSame, erased, dirtySame.trans holds.dirty_eq,
    writtenSame.trans holds.written_eq⟩

end Unlink

/-- Items of a call have to be in the map, except new ones. -/
def Allows (cache : LRUCacheCollection) : CacheCall → Prop
  | .hit item => item ∈ cache.idMap
  | .deleted item => item ∈ cache.idMap
  | _ => True

instance decidableAllows (cache : LRUCacheCollection) :
    (call : CacheCall) → Decidable (cache.Allows call)
  | .hit item => inferInstanceAs (Decidable (item ∈ cache.idMap))
  | .deleted item => inferInstanceAs (Decidable (item ∈ cache.idMap))
  | .add _ | .commitDirty | .setDirty _ => inferInstanceAs (Decidable True)

lemma call_holds {call : CacheCall} (holds : cache.Holds recent) (room : 1 ≤ cache.maxCacheSize)
    (allows : cache.Allows call) :
    ∃ next, cache.call call = some next ∧ next.maxCacheSize = cache.maxCacheSize ∧
      next.Holds (recent.call cache.maxCacheSize call) := by
  cases call with
  | add items => exact add_holds items holds room
  | hit item => exact hit_holds holds ((holds.wellLinked.inMap item).mp allows)
  | deleted item => exact deleted_holds holds ((holds.wellLinked.inMap item).mp allows)
  | commitDirty => exact ⟨_, rfl, commitDirty_holds holds⟩
  | setDirty item =>
    refine ⟨_, rfl, rfl, ⟨holds.wellLinked.linked, holds.wellLinked.once, holds.wellLinked.inMap,
      holds.wellLinked.counted⟩, ?_, holds.written_eq⟩
    change Function.update cache.dirty item true = _
    rw [holds.dirty_eq]
    rfl

lemma create_holds (cacheSize : Nat) : (create cacheSize).Holds {} := by
  refine ⟨⟨⟨rfl, rfl, trivial⟩, nodup_nil, ?_, rfl⟩, rfl, rfl⟩
  intro item
  exact iff_of_false (Finset.notMem_empty item) not_mem_nil

end LRUCacheCollection

end CommCentral.Gloda
