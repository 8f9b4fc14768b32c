import CommCentral.Gloda.LRUOrder
import CommCentral.Lib.KeyedList

/-! `GlodaCollectionManager`: the items of a noun are looked up by their ids in its cache and in the
collections that are alive, so that there is one object for an id. -/
namespace CommCentral.Gloda

open Lib List

/-- An object, told from others by its address, and its gloda id. -/
structure GlodaItem where
  address : Nat
  id : Nat
deriving DecidableEq

structure IdMap where
  get : Nat → Option GlodaItem
  keyed : ∀ {id item}, get id = some item → item.id = id

def IdMap.only (item : GlodaItem) : IdMap where
  get id := if id = item.id then some item else none
  keyed := by
    intro id other found
    split at found
    · rename_i isKey
      cases found
      exact isKey.symm
    · cases found

/-- The cache of a noun: the list that orders its items, and the item that its `_idMap` has for an
id in it. -/
structure GlodaCache where
  lru : LRUCacheCollection
  object : Nat → GlodaItem
  keyed : ∀ id, (object id).id = id

namespace GlodaCache

def create (cacheSize : Nat) : GlodaCache where
  lru := .create cacheSize
  object id := ⟨0, id⟩
  keyed _ := rfl

variable (cache : GlodaCache)

/-- `_idMap[id]` -/
def get (id : Nat) : Option GlodaItem :=
  if id ∈ cache.lru.idMap then some (cache.object id) else none

def hit (item : GlodaItem) : Option GlodaCache :=
  (cache.lru.hit item.id).map fun lru => { cache with lru := lru }

/-- Items are skipped whose ids are there already, and an id takes the first of several items. -/
def add (items : List GlodaItem) : Option GlodaCache :=
  (cache.lru.add (items.map GlodaItem.id)).map fun lru =>
    { lru := lru
      object := fun id =>
        if id ∈ cache.lru.idMap then cache.object id
        else (itemAt GlodaItem.id items id).getD (cache.object id)
      keyed := by
        intro id
        split
        · exact cache.keyed id
        · cases added : itemAt GlodaItem.id items id with
          | none => exact cache.keyed id
          | some item => exact (itemAt_key added).2 }

/-- The list of the cache is in order, as after any calls. -/
def Sound : Prop := ∃ recent, cache.lru.Holds recent ∧ 1 ≤ cache.lru.maxCacheSize

end GlodaCache

/-- What `cacheLookupMany` returns, with the map that it writes into. -/
structure Lookup where
  foundCount : Int
  notFoundCount : Int
  notFound : List Nat
  targetMap : Nat → Option GlodaItem

/-- The loop of `cacheLookupMany` over the keys with the cache. -/
def lookupInCache : List Nat → GlodaCache → Lookup → Option (GlodaCache × Lookup)
  | [], cache, lookup => some (cache, lookup)
  | key :: keys, cache, lookup =>
    match cache.get key with
    | none =>
      lookupInCache keys cache { lookup with
        notFoundCount := lookup.notFoundCount + 1
        notFound := lookup.notFound ++ [key] }
    | some cacheValue => do
      let cache ← cache.hit cacheValue
      lookupInCache keys cache { lookup with
        foundCount := lookup.foundCount + 1
        targetMap := Function.update lookup.targetMap key (some cacheValue) }

/-- `if (cache) cache.add(items)` -/
def addIfCached (cache : Option GlodaCache) (items : List GlodaItem) : Option (Option GlodaCache) :=
  match cache with
  | none => some none
  | some cache => (cache.add items).map some

/-- A key that was not found is found after all. -/
def Lookup.resolve (lookup : Lookup) (key : Nat) (collValue : GlodaItem) : Lookup where
  foundCount := lookup.foundCount + 1
  notFoundCount := lookup.notFoundCount - 1
  notFound := lookup.notFound.erase key
  targetMap := Function.update lookup.targetMap key (some collValue)

/-- The loop over the keys that are not found yet, with one collection. -/
def lookupInCollection (collection : IdMap) :
    List Nat → Option GlodaCache → Lookup → Option (Option GlodaCache × Lookup)
  | [], cache, lookup => some (cache, lookup)
  | key :: keys, cache, lookup =>
    match collection.get key with
    | none => lookupInCollection collection keys cache lookup
    | some collValue => do
      let cache ← addIfCached cache [collValue]
      lookupInCollection collection keys cache (lookup.resolve key collValue)

def lookupInCollections :
    List IdMap → Option GlodaCache → Lookup → Option (Option GlodaCache × Lookup)
  | [], cache, lookup => some (cache, lookup)
  | collection :: collections, cache, lookup => do
    let (cache, lookup) ← lookupInCollection collection lookup.notFound cache lookup
    lookupInCollections collections cache lookup

def cacheLookupMany (cache : Option GlodaCache) (collections : List IdMap) (idMap : List Nat)
    (targetMap : Nat → Option GlodaItem) (doCache : Bool) :
    Option (Option GlodaCache × Lookup) := do
  let lookup : Lookup := ⟨0, 0, [], targetMap⟩
  let (cache, lookup) ←
    match cache with
    | none => some (none, lookup)
    | some cache =>
      (lookupInCache idMap cache lookup).map fun (cache, lookup) => (some cache, lookup)
  let (cached, lookup) ← lookupInCollections collections (if doCache then cache else none) lookup
  return (if doCache then cached else cache, lookup)

def cacheLookupManyList (cache : Option GlodaCache) (collections : List IdMap) (ids : List Nat) :
    Option (Option GlodaCache × (Nat → Option GlodaItem)) :=
  (cacheLookupMany cache collections ids.dedup (fun _ => none) false).map fun (cache, lookup) =>
    (cache, lookup.targetMap)

/-- The item that the cache or the first collection that has one has for an id. -/
def knownItem (cache : Option GlodaCache) (collections : List IdMap) (id : Nat) :
    Option GlodaItem :=
  (cache.bind (·.get id)).or (collections.findSome? (·.get id))

section Cache

variable {cache : GlodaCache}

lemma create_sound (cacheSize : Nat) : (GlodaCache.create cacheSize).Sound := by
  refine ⟨_, LRUCacheCollection.create_holds cacheSize, ?_⟩
  change 1 ≤ if cacheSize < 32 then 32 else cacheSize
  split
  · decide
  · omega

lemma GlodaCache.get_id {id : Nat} (found : cache.get id = some item) : item.id = id := by
  rw [GlodaCache.get] at found
  split at found
  · exact Option.some.inj found ▸ cache.keyed id
  · cases found

lemma GlodaCache.Sound.hit (sound : cache.Sound) {id : Nat} (found : cache.get id = some item) :
    ∃ after, cache.hit item = some after ∧ after.Sound ∧ after.get = cache.get := by
  obtain ⟨recent, holds, room⟩ := sound
  have isKey := GlodaCache.get_id found
  have inMap : id ∈ cache.lru.idMap := by
    rw [GlodaCache.get] at found
    split at found
    · assumption
    · cases found
  have member := (holds.wellLinked.inMap id).mp inMap
  obtain ⟨lru, taken, maxSame, after⟩ := LRUCacheCollection.hit_holds holds member
  refine ⟨{ cache with lru := lru }, ?_, ⟨_, after, maxSame ▸ room⟩, ?_⟩
  · rw [GlodaCache.hit, isKey, taken]
    rfl
  · funext other
    have same : other ∈ lru.idMap ↔ other ∈ cache.lru.idMap := by
      rw [after.wellLinked.inMap, holds.wellLinked.inMap]
      change other ∈ recent.items.erase id ++ [id] ↔ _
      by_cases isItem : other = id
      · simp [isItem, member]
      · simp [mem_erase_of_ne isItem, isItem]
    exact if_congr same rfl rfl

lemma GlodaCache.Sound.add (sound : cache.Sound) (items) :
    ∃ after, cache.add items = some after ∧ after.Sound := by
  obtain ⟨recent, holds, room⟩ := sound
  obtain ⟨lru, taken, maxSame, after⟩ :=
    LRUCacheCollection.add_holds (items.map GlodaItem.id) holds room
  rw [GlodaCache.add, taken]
  exact ⟨_, rfl, _, after, maxSame ▸ room⟩

end Cache

lemma or_findSome?_cons (known : Option GlodaItem) (collection : IdMap)
    (collections : List IdMap) (id : Nat) :
    (known.or (collection.get id)).or (collections.findSome? (·.get id)) =
      known.or ((collection :: collections).findSome? (·.get id)) := by
  rw [Option.or_assoc, findSome?_cons]
  cases collection.get id with
  | none => rw [Option.none_or]
  | some item => rw [Option.some_or]

/-- The keys that were asked for are divided into those that are known and those that are not. -/
structure Lookup.Divides (keys : List Nat) (known : Nat → Option GlodaItem) (lookup : Lookup) :
    Prop where
  total : lookup.foundCount + lookup.notFoundCount = keys.length
  notFound : lookup.notFound = keys.filter fun key => (known key).isNone
  target : ∀ key ∈ keys, ∀ item, known key = some item → lookup.targetMap key = some item

lemma lookupInCache_divides (sound : cache.Sound) {keys handled : List Nat} {lookup : Lookup}
    (divides : lookup.Divides handled cache.get) :
    ∃ after result, lookupInCache keys cache lookup = some (after, result) ∧ after.Sound ∧
      after.get = cache.get ∧ result.Divides (handled ++ keys) cache.get := by
  induction keys generalizing cache handled lookup with
  | nil =>
    rw [append_nil]
    exact ⟨cache, lookup, rfl, sound, rfl, divides⟩
  | cons key keys ih =>
    obtain ⟨total, notFound, target⟩ := divides
    have split : handled ++ key :: keys = handled ++ [key] ++ keys := by simp
    rw [split, lookupInCache]
    cases found : cache.get key with
    | none =>
      apply ih sound
      refine ⟨?_, ?_, ?_⟩
      · rw [length_append, length_singleton]
        change lookup.foundCount + (lookup.notFoundCount + 1) = _
        omega
      · simp [notFound, found]
      · intro other mem item isItem
        rcases mem_append.mp mem with earlier | last
        · exact target other earlier item isItem
        · rw [mem_singleton.mp last, found] at isItem
          cases isItem
    | some cacheValue =>
      obtain ⟨hit, taken, hitSound, same⟩ := sound.hit found
      have grown : Lookup.Divides (handled ++ [key]) hit.get { lookup with
          foundCount := lookup.foundCount + 1
          targetMap := Function.update lookup.targetMap key (some cacheValue) } := by
        rw [same]
        refine ⟨?_, ?_, ?_⟩
        · rw [length_append, length_singleton]
          change lookup.foundCount + 1 + lookup.notFoundCount = _
          omega
        · simp [notFound, found]
        · intro other mem item isItem
          change Function.update lookup.targetMap key (some cacheValue) other = some item
          by_cases isKey : other = key
          · subst isKey
            rw [Function.update_self, ← found, isItem]
          · rw [Function.update_of_ne isKey]
            have earlier := (mem_append.mp mem).resolve_right fun last =>
              isKey (mem_singleton.mp last)
            exact target other earlier item isItem
      obtain ⟨after, result, ran, afterSound, afterSame, divides⟩ := ih hitSound grown
      rw [same] at divides
      refine ⟨after, result, ?_, afterSound, afterSame.trans same, divides⟩
      dsimp only
      rw [taken]
      exact ran

/-- Every cache there is is in order. -/
def AllSound (cache : Option GlodaCache) : Prop := ∀ present ∈ cache, present.Sound

lemma addIfCached_sound (sound : AllSound cache) (items) :
    ∃ after, addIfCached cache items = some after ∧ AllSound after := by
  cases cache with
  | none => exact ⟨none, rfl, nofun⟩
  | some present =>
    obtain ⟨after, added, afterSound⟩ := (sound present rfl).add items
    rw [addIfCached, added]
    refine ⟨some after, rfl, ?_⟩
    rintro _ ⟨⟩
    exact afterSound

/-- What one collection does for the keys that were not found: those before the keys of the loop
have been looked up in it already. -/
structure Lookup.Follows (collection : IdMap) (keys before : List Nat) (result lookup : Lookup) :
    Prop where
  total : result.foundCount + result.notFoundCount = lookup.foundCount + lookup.notFoundCount
  notFound : result.notFound = before ++ keys.filter fun key => (collection.get key).isNone
  target : ∀ key item, result.targetMap key = some item ↔
    if key ∈ keys ∧ (collection.get key).isSome then collection.get key = some item
    else lookup.targetMap key = some item

lemma lookupInCollection_follows (collection) {keys before : List Nat} (sound : AllSound cache)
    {lookup : Lookup} (notFound : lookup.notFound = before ++ keys)
    (distinct : (before ++ keys).Nodup) :
    ∃ after result, lookupInCollection collection keys cache lookup = some (after, result) ∧
      AllSound after ∧ result.Follows collection keys before lookup := by
  induction keys generalizing cache before lookup with
  | nil =>
    refine ⟨cache, lookup, rfl, sound, rfl, notFound, ?_⟩
    simp
  | cons key keys ih =>
    rw [lookupInCollection]
    have fresh : key ∉ keys := by
      have later := (nodup_append.mp distinct).2.1
      exact (nodup_cons.mp later).1
    cases found : collection.get key with
    | none =>
      have split : before ++ key :: keys = before ++ [key] ++ keys := by simp
      rw [split] at notFound distinct
      obtain ⟨after, result, ran, afterSound, total, left, target⟩ := ih sound notFound distinct
      refine ⟨after, result, ran, afterSound, total, ?_, ?_⟩
      · simp [left, found]
      · intro other item
        rw [target]
        by_cases isKey : other = key
        · simp [isKey, found, fresh]
        · simp [isKey]
    | some collValue =>
      obtain ⟨cached, added, cachedSound⟩ := addIfCached_sound sound [collValue]
      have notBefore : key ∉ before := fun mem =>
        (nodup_append.mp distinct).2.2 key mem key mem_cons_self rfl
      have erased : (lookup.resolve key collValue).notFound = before ++ keys := by
        rw [Lookup.resolve, notFound, erase_append_right _ notBefore, erase_cons_head]
      have others := distinct.sublist ((sublist_cons_self key keys).append_left before)
      obtain ⟨after, result, ran, afterSound, total, left, target⟩ := ih cachedSound erased others
      refine ⟨after, result, ?_, afterSound, ?_, ?_, ?_⟩
      · dsimp only
        rw [added]
        exact ran
      · rw [total]
        change lookup.foundCount + 1 + (lookup.notFoundCount - 1) = _
        omega
      · simp [left, found]
      · intro other item
        rw [target]
        by_cases isKey : other = key
        · simp [isKey, found, fresh, Lookup.resolve]
        · simp [isKey, Lookup.resolve]

lemma Lookup.Divides.follows {keys : List Nat} {known : Nat → Option GlodaItem}
    {lookup result : Lookup} (divides : lookup.Divides keys known)
    (follows : result.Follows collection lookup.notFound [] lookup) :
    result.Divides keys fun id => (known id).or (collection.get id) := by
  refine ⟨follows.total.trans divides.total, ?_, ?_⟩
  · rw [follows.notFound, divides.notFound, nil_append, filter_filter]
    apply filter_congr
    intro key _
    cases known key with
    | none => simp
    | some item => simp
  · intro key mem item isItem
    rw [follows.target, divides.notFound]
    cases isKnown : known key with
    | none =>
      rw [isKnown, Option.none_or] at isItem
      simp [mem, isKnown, isItem]
    | some earlier =>
      rw [isKnown, Option.some_or] at isItem
      have target := divides.target key mem earlier isKnown
      simp [target, isKnown, isItem]

variable (collections : List IdMap)

lemma lookupInCollections_divides {keys : List Nat} (distinct : keys.Nodup)
    {known : Nat → Option GlodaItem} (sound : AllSound cache) {lookup : Lookup}
    (divides : lookup.Divides keys known) :
    ∃ after result, lookupInCollections collections cache lookup = some (after, result) ∧
      AllSound after ∧
      result.Divides keys fun id => (known id).or (collections.findSome? (·.get id)) := by
  induction collections generalizing known cache lookup with
  | nil =>
    refine ⟨cache, lookup, rfl, sound, ?_⟩
    simpa using divides
  | cons collection collections ih =>
    have left : ([] ++ lookup.notFound).Nodup := by
      rw [nil_append, divides.notFound]
      exact distinct.filter _
    obtain ⟨next, found, ran, nextSound, follows⟩ :=
      lookupInCollection_follows collection sound rfl left
    obtain ⟨after, result, rest, afterSound, all⟩ := ih nextSound (divides.follows follows)
    refine ⟨after, result, ?_, afterSound, ?_⟩
    · rw [lookupInCollections, ran]
      exact rest
    · simpa only [or_findSome?_cons] using all

lemma lookupInCollections_nil (cache) {lookup : Lookup} (left : lookup.notFound = []) :
    lookupInCollections collections cache lookup = some (cache, lookup) := by
  induction collections with
  | nil => rfl
  | cons collection collections ih =>
    rw [lookupInCollections, left]
    exact ih

/-- Without a cache, nothing is looked up. -/
theorem cacheLookupMany_none (idMap : List Nat) (targetMap : Nat → Option GlodaItem)
    (doCache : Bool) :
    cacheLookupMany none collections idMap targetMap doCache =
      some (none, ⟨0, 0, [], targetMap⟩) := by
  cases doCache with
  | true | false => exact congrArg (Option.bind · _) (lookupInCollections_nil collections none rfl)

lemma cacheLookupMany_divides {cache : GlodaCache} (sound : cache.Sound) (collections)
    {idMap : List Nat} (distinct : idMap.Nodup) (targetMap : Nat → Option GlodaItem)
    (doCache : Bool) :
    ∃ after result,
      cacheLookupMany (some cache) collections idMap targetMap doCache = some (after, result) ∧
      result.Divides idMap (knownItem (some cache) collections) := by
  have start : Lookup.Divides [] cache.get ⟨0, 0, [], targetMap⟩ := ⟨rfl, rfl, nofun⟩
  obtain ⟨hit, lookup, looked, hitSound, -, divides⟩ := lookupInCache_divides sound start
  have cachedSound : AllSound (if doCache = true then some hit else none) := by
    cases doCache with
    | true =>
      rintro _ ⟨⟩
      exact hitSound
    | false => nofun
  obtain ⟨after, result, ran, -, all⟩ :=
    lookupInCollections_divides collections distinct cachedSound divides
  refine ⟨if doCache then after else some hit, result, ?_, all⟩
  rw [cacheLookupMany, looked]
  exact congrArg (Option.bind · _) ran

/-- What is asked for by an id is nowhere. -/
def Unknown (cache : Option GlodaCache) (collections : List IdMap) (id : Nat) : Prop :=
  (∀ present ∈ cache, present.get id = none) ∧ ∀ collection ∈ collections, collection.get id = none

lemma knownItem_eq_none_iff {collections : List IdMap} {id : Nat} :
    knownItem cache collections id = none ↔ Unknown cache collections id := by
  rw [knownItem, Option.or_eq_none_iff, Option.bind_eq_none_iff, findSome?_eq_none_iff]
  rfl

lemma knownItem_id {collections : List IdMap} {id : Nat}
    {item : GlodaItem} (known : knownItem cache collections id = some item) : item.id = id := by
  rcases Option.or_eq_some_iff.mp known with inCache | ⟨-, inCollection⟩
  · obtain ⟨present, -, found⟩ := Option.bind_eq_some_iff.mp inCache
    exact GlodaCache.get_id found
  · obtain ⟨collection, -, found⟩ := exists_of_findSome?_eq_some inCollection
    exact collection.keyed found

/-- The numbers that are returned add up, the keys that were not found are those that are nowhere,
and each other one has an item with the right id in the target map. -/
structure Partitions (cache : Option GlodaCache) (collections : List IdMap) (idMap : List Nat)
    (result : Lookup) : Prop where
  total : result.foundCount + result.notFoundCount = idMap.length
  notFound : ∀ id, id ∈ result.notFound ↔ id ∈ idMap ∧ Unknown cache collections id
  target : ∀ id ∈ idMap, ¬ Unknown cache collections id →
    ∃ item, result.targetMap id = some item ∧ item.id = id

/-- A request is partitioned exactly if there is a cache for the noun or nothing is asked for. -/
theorem cacheLookupMany_partitions_iff (cache : Option GlodaCache) (sound : AllSound cache)
    (collections : List IdMap) (idMap : List Nat) (distinct : idMap.Nodup)
    (targetMap : Nat → Option GlodaItem) (doCache : Bool) :
    (∃ after result, cacheLookupMany cache collections idMap targetMap doCache =
        some (after, result) ∧ Partitions cache collections idMap result) ↔
      cache.isSome ∨ idMap = [] := by
  cases cache with
  | none =>
    rw [cacheLookupMany_none]
    constructor
    · rintro ⟨after, result, returned, total, -, -⟩
      cases returned
      have length : idMap.length = 0 := by
        have sum : (0 : Int) + 0 = idMap.length := total
        omega
      exact .inr (length_eq_zero_iff.mp length)
    · rintro (present | rfl)
      · cases present
      · exact ⟨_, _, rfl, rfl, by simp, nofun⟩
  | some cache =>
    refine ⟨fun _ => .inl rfl, fun _ => ?_⟩
    obtain ⟨after, result, ran, total, notFound, target⟩ :=
      cacheLookupMany_divides (sound cache rfl) collections distinct targetMap doCache
    refine ⟨after, result, ran, total, ?_, ?_⟩
    · intro id
      rw [notFound, mem_filter, Option.isNone_iff_eq_none, knownItem_eq_none_iff]
    · intro id mem known
      rw [← knownItem_eq_none_iff] at known
      obtain ⟨item, isItem⟩ := Option.ne_none_iff_exists'.mp known
      exact ⟨item, target id mem item isItem, knownItem_id isItem⟩

lemma create_allSound (cacheSize : Nat) : AllSound (some (.create cacheSize)) := by
  rintro _ ⟨⟩
  exact create_sound cacheSize

/-- An item in a collection, and an id that is nowhere. -/
theorem cacheLookupMany_fresh :
    ∃ after result,
      cacheLookupMany (some (.create 32)) [.only ⟨1, 7⟩] [5, 7] (fun _ => none) true =
        some (after, result) ∧
      Partitions (some (.create 32)) [.only ⟨1, 7⟩] [5, 7] result := by
  exact (cacheLookupMany_partitions_iff _ (create_allSound 32) _ _ (by decide) _ _).mpr (.inl rfl)

/-- The noun of the item has no cache. -/
theorem cacheLookupMany_uncached :
    ¬ ∃ after result,
      cacheLookupMany none [.only ⟨1, 7⟩] [7] (fun _ => none) true = some (after, result) ∧
        Partitions none [.only ⟨1, 7⟩] [7] result := by
  rintro ⟨after, result, returned, total, -, -⟩
  rw [cacheLookupMany_none] at returned
  cases returned
  exact absurd total (by decide)

end CommCentral.Gloda
