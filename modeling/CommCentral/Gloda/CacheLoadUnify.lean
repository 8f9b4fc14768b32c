import CommCentral.Gloda.CollectionManager

/-! `cacheLoadUnify`: items that were loaded are replaced by the objects that the cache or a
collection has for their ids. -/
namespace CommCentral.Gloda

open Lib List

/-- The locals of `cacheLoadUnify`: the items of the caller, which of them are not resolved, with
their indices, how many these are, and the items to put into the cache. -/
structure Unification where
  items : List GlodaItem
  unresolved : List (GlodaItem × Nat)
  numUnresolved : Int
  needToCache : List GlodaItem := []

/-- The loop over the items with the cache. -/
def unifyInCache : List (GlodaItem × Nat) → GlodaCache → Unification →
    Option (GlodaCache × Unification)
  | [], cache, unification => some (cache, unification)
  | (item, iItem) :: rest, cache, unification =>
    match cache.get item.id with
    | some realItem => do
      let cache ← cache.hit realItem
      unifyInCache rest cache { unification with items := unification.items.set iItem realItem }
    | none =>
      unifyInCache rest cache { unification with
        unresolved := unification.unresolved ++ [(item, iItem)]
        numUnresolved := unification.numUnresolved + 1 }

def Unification.resolve (unification : Unification) (iItem : Nat) (realItem : GlodaItem) :
    Unification where
  items := unification.items.set iItem realItem
  unresolved := removeItem Prod.snd unification.unresolved iItem
  numUnresolved := unification.numUnresolved - 1
  needToCache := unification.needToCache ++ [realItem]

/-- The loop over the items that were not resolved before, with one collection. It ends with the
last of them. -/
def unifyInCollection (collection : IdMap) :
    List (GlodaItem × Nat) → Unification → Unification
  | [], unification => unification
  | (item, iItem) :: rest, unification =>
    match collection.get item.id with
    | none => unifyInCollection collection rest unification
    | some realItem =>
      let unification := unification.resolve iItem realItem
      if unification.numUnresolved = 0 then unification
      else unifyInCollection collection rest unification

def unifyInCollections (collections : List IdMap) (unification : Unification) : Unification :=
  collections.foldl (fun unification collection =>
    unifyInCollection collection unification.unresolved unification) unification

def cacheLoadUnify (cache : Option GlodaCache) (collections : List IdMap) (items : List GlodaItem)
    (cacheIfMissing : Bool) : Option (Option GlodaCache × List GlodaItem) := do
  let (cache, unification) ←
    match cache with
    | some cache =>
      (unifyInCache items.zipIdx cache ⟨items, [], 0, []⟩).map fun (cache, unification) =>
        (some cache, unification)
    | none => some (none, ⟨items, items.zipIdx, items.length, []⟩)
  -- "we're done if everyone was a hit"
  if cache.isSome && unification.numUnresolved = 0 then
    return (cache, unification.items)
  let unification := unifyInCollections collections unification
  let cache ←
    if cacheIfMissing then
      addIfCached cache (unification.needToCache ++ unification.unresolved.map Prod.fst)
    else some cache
  return (cache, unification.items)

def cacheLoadUnifyOne (cache : Option GlodaCache) (collections : List IdMap) (item : GlodaItem) :
    Option (Option GlodaCache × GlodaItem) :=
  (cacheLoadUnify cache collections [item] true).map fun (cache, items) => (cache, items.headD item)

def realItem (known : Nat → Option GlodaItem) (item : GlodaItem) : GlodaItem :=
  (known item.id).getD item

/-- The items are resolved as far as they are known. -/
structure Unification.Resolves (original : List GlodaItem) (known : Nat → Option GlodaItem)
    (unification : Unification) : Prop where
  items : unification.items = original.map (realItem known)
  unresolved : unification.unresolved =
    original.zipIdx.filter fun entry => (known entry.1.id).isNone
  numUnresolved : unification.numUnresolved = unification.unresolved.length

/-- The writes of a loop over entries, each to the index of an item that is found. -/
def replaceFound (get : Nat → Option GlodaItem) (entries : List (GlodaItem × Nat))
    (items : List GlodaItem) : List GlodaItem :=
  entries.foldl (fun items entry =>
    match get entry.1.id with
    | some realItem => items.set entry.2 realItem
    | none => items) items

lemma getElem?_replaceFound (get : Nat → Option GlodaItem) {entries : List (GlodaItem × Nat)}
    (distinct : (entries.map Prod.snd).Nodup) (items) (index : Nat) :
    (replaceFound get entries items)[index]? =
      match itemAt Prod.snd entries index with
      | some entry => items[index]?.map fun old => (get entry.1.id).getD old
      | none => items[index]? := by
  induction entries generalizing items with
  | nil => rfl
  | cons entry rest ih =>
    rw [map_cons, nodup_cons] at distinct
    rw [replaceFound, foldl_cons]
    refine (ih distinct.2 _).trans ?_
    rw [itemAt_cons]
    by_cases isIndex : entry.2 = index
    · have absent : itemAt Prod.snd rest index = none :=
        itemAt_eq_none_iff.mpr (isIndex ▸ distinct.1)
      rw [if_pos isIndex, absent]
      dsimp only
      cases get entry.1.id with
      | none => simp
      | some real =>
        rw [isIndex, getElem?_set]
        by_cases inside : index < items.length
        · simp [inside]
        · simp [inside]
    · rw [if_neg isIndex]
      cases get entry.1.id with
      | none => rfl
      | some real =>
        dsimp only
        rw [getElem?_set_ne isIndex]

/-- The entries of items that are not known, each at its own index. -/
theorem unknownEntries_nodup (original : List GlodaItem) (keep : GlodaItem × Nat → Bool) :
    ((original.zipIdx.filter keep).map Prod.snd).Nodup := by
  have all : (original.zipIdx.map Prod.snd).Nodup := by
    rw [zipIdx_map_snd]
    exact nodup_range'
  exact all.sublist (filter_sublist.map Prod.snd)

/-- Where the items are resolved as far as they are known, and the others are looked up elsewhere,
they are resolved as far as they are known at either place. -/
theorem replaceFound_unresolved (original : List GlodaItem) (known get : Nat → Option GlodaItem) :
    replaceFound get (original.zipIdx.filter fun entry => (known entry.1.id).isNone)
        (original.map (realItem known)) =
      original.map (realItem fun id => (known id).or (get id)) := by
  apply ext_getElem?
  intro index
  have distinct := unknownEntries_nodup original fun entry => (known entry.1.id).isNone
  rw [getElem?_replaceFound get distinct, getElem?_map, getElem?_map]
  cases atIndex : original[index]? with
  | none =>
    split
    · rfl
    · rfl
  | some item =>
    cases isKnown : known item.id with
    | none =>
      have mem : (item, index) ∈
          original.zipIdx.filter fun entry => (known entry.1.id).isNone := by
        rw [mem_filter, mem_zipIdx_iff_getElem?]
        exact ⟨atIndex, Option.isNone_iff_eq_none.mpr isKnown⟩
      have found := itemAt_of_mem distinct mem
      dsimp only at found
      rw [found]
      simp [realItem, isKnown]
    | some real =>
      have absent : itemAt Prod.snd
          (original.zipIdx.filter fun entry => (known entry.1.id).isNone) index = none := by
        rw [itemAt_eq_none_iff]
        intro isEntry
        obtain ⟨⟨other, otherIndex⟩, mem, rfl⟩ := mem_map.mp isEntry
        obtain ⟨inside, unknown⟩ := mem_filter.mp mem
        rw [mem_zipIdx_iff_getElem?] at inside
        cases atIndex.symm.trans inside
        simp [isKnown] at unknown
      rw [absent]
      simp [realItem, isKnown]

lemma unifyInCache_spec (sound : cache.Sound) (entries) (unification) :
    ∃ after result, unifyInCache entries cache unification = some (after, result) ∧
      after.Sound ∧ result.items = replaceFound cache.get entries unification.items ∧
      result.unresolved = unification.unresolved ++
        entries.filter (fun entry => (cache.get entry.1.id).isNone) ∧
      result.numUnresolved = unification.numUnresolved +
        (entries.filter fun entry => (cache.get entry.1.id).isNone).length := by
  induction entries generalizing cache unification with
  | nil => exact ⟨cache, unification, rfl, sound, rfl, by simp, by simp⟩
  | cons entry rest ih =>
    obtain ⟨item, iItem⟩ := entry
    rw [unifyInCache]
    cases found : cache.get item.id with
    | none =>
      obtain ⟨after, result, ran, afterSound, items, unresolved, count⟩ :=
        ih sound { unification with
          unresolved := unification.unresolved ++ [(item, iItem)]
          numUnresolved := unification.numUnresolved + 1 }
      refine ⟨after, result, ran, afterSound, ?_, ?_, ?_⟩
      · rw [items, replaceFound, replaceFound, foldl_cons, found]
      · simp [unresolved, found]
      · rw [count, filter_cons_of_pos (by simp [found]), length_cons]
        push_cast
        omega
    | some real =>
      obtain ⟨hit, taken, hitSound, same⟩ := sound.hit found
      obtain ⟨after, result, ran, afterSound, items, unresolved, count⟩ :=
        ih hitSound { unification with
          items := unification.items.set iItem real }
      rw [same] at items unresolved count
      refine ⟨after, result, ?_, afterSound, ?_, ?_, ?_⟩
      · dsimp only
        rw [taken]
        exact ran
      · rw [items, replaceFound, replaceFound, foldl_cons, found]
      · simp [unresolved, found]
      · rw [count, filter_cons_of_neg (by simp [found])]

lemma unifyInCollection_spec (collection) {entries before : List (GlodaItem × Nat)}
    {unification : Unification} (unresolved : unification.unresolved = before ++ entries)
    (distinct : ((before ++ entries).map Prod.snd).Nodup)
    (count : unification.numUnresolved = (before ++ entries).length) :
    (unifyInCollection collection entries unification).items =
        replaceFound collection.get entries unification.items ∧
      (unifyInCollection collection entries unification).unresolved =
        before ++ entries.filter (fun entry => (collection.get entry.1.id).isNone) ∧
      (unifyInCollection collection entries unification).numUnresolved =
        (unifyInCollection collection entries unification).unresolved.length := by
  induction entries generalizing before unification with
  | nil =>
    refine ⟨rfl, unresolved, ?_⟩
    rw [unifyInCollection, unresolved]
    exact count
  | cons entry rest ih =>
    obtain ⟨item, iItem⟩ := entry
    rw [unifyInCollection]
    cases found : collection.get item.id with
    | none =>
      have split : before ++ (item, iItem) :: rest = before ++ [(item, iItem)] ++ rest := by simp
      rw [split] at unresolved distinct count
      obtain ⟨items, left, number⟩ := ih unresolved distinct count
      refine ⟨?_, ?_, number⟩
      · rw [items, replaceFound, replaceFound, foldl_cons, found]
      · simp [left, found]
    | some real =>
      have removed : (unification.resolve iItem real).unresolved = before ++ rest := by
        rw [Unification.resolve, unresolved]
        exact removeItem_present distinct
      have fewer : (unification.resolve iItem real).numUnresolved = (before ++ rest).length := by
        rw [Unification.resolve, count]
        simp
        omega
      have items : ∀ result : List GlodaItem,
          result = replaceFound collection.get rest (unification.resolve iItem real).items →
            result = replaceFound collection.get ((item, iItem) :: rest) unification.items := by
        intro result isResult
        rw [isResult, replaceFound, replaceFound, foldl_cons, found]
        rfl
      have filtered : ((item, iItem) :: rest).filter
          (fun entry => (collection.get entry.1.id).isNone) =
            rest.filter fun entry => (collection.get entry.1.id).isNone :=
        filter_cons_of_neg (by simp [found])
      dsimp only
      by_cases last : (unification.resolve iItem real).numUnresolved = 0
      · rw [if_pos last]
        have none_left : before ++ rest = [] := by
          rw [fewer] at last
          exact length_eq_zero_iff.mp (Int.ofNat_eq_zero.mp last)
        obtain ⟨rfl, rfl⟩ := append_eq_nil_iff.mp none_left
        exact ⟨items _ rfl, removed.trans (by simp [found]), fewer.trans (by rw [removed])⟩
      · rw [if_neg last]
        have others : ((before ++ rest).map Prod.snd).Nodup := by
          refine distinct.sublist (List.Sublist.map Prod.snd ?_)
          exact (sublist_cons_self _ _).append_left before
        obtain ⟨itemsEq, left, number⟩ := ih removed others fewer
        exact ⟨items _ itemsEq, left.trans (by rw [filtered]), number⟩

lemma Unification.Resolves.inCollection {known : Nat → Option GlodaItem}
    (resolves : unification.Resolves original known) (collection) :
    (unifyInCollection collection unification.unresolved unification).Resolves original
      fun id => (known id).or (collection.get id) := by
  obtain ⟨items, unresolved, count⟩ := resolves
  have distinct : (([] ++ unification.unresolved).map Prod.snd).Nodup := by
    rw [nil_append, unresolved]
    exact unknownEntries_nodup original _
  obtain ⟨itemsEq, left, number⟩ := unifyInCollection_spec collection rfl distinct count
  refine ⟨?_, ?_, number⟩
  · rw [itemsEq, items, unresolved]
    exact replaceFound_unresolved original known collection.get
  · rw [left, unresolved, nil_append, filter_filter]
    apply filter_congr
    intro entry _
    cases known entry.1.id with
    | none => simp
    | some item => simp

lemma Unification.Resolves.inCollections {known : Nat → Option GlodaItem}
    (resolves : unification.Resolves original known) (collections) :
    (unifyInCollections collections unification).Resolves original
      fun id => (known id).or (collections.findSome? (·.get id)) := by
  induction collections generalizing known unification with
  | nil => simpa [unifyInCollections] using resolves
  | cons collection collections ih =>
    rw [unifyInCollections, foldl_cons, ← unifyInCollections]
    simpa only [or_findSome?_cons] using ih (resolves.inCollection collection)

lemma inCollections_resolved (resolved : unification.unresolved = []) (collections) :
    unifyInCollections collections unification = unification := by
  induction collections with
  | nil => rfl
  | cons collection collections ih =>
    rw [unifyInCollections, foldl_cons, resolved]
    exact ih

lemma resolves_start (items) :
    Unification.Resolves items (fun _ => none) ⟨items, items.zipIdx, items.length, []⟩ := by
  refine ⟨?_, ?_, ?_⟩
  · exact (map_id items).symm
  · exact (filter_true items.zipIdx).symm
  · simp

lemma cacheLoadUnify_eq (sound : AllSound cache) (collections) (items) (cacheIfMissing : Bool) :
    ∃ after, cacheLoadUnify cache collections items cacheIfMissing =
        some (after, items.map (realItem (knownItem cache collections))) ∧ AllSound after := by
  cases cache with
  | none =>
    have resolves := (resolves_start items).inCollections collections
    refine ⟨none, ?_, nofun⟩
    rw [cacheLoadUnify]
    cases cacheIfMissing with
    | false | true => exact congrArg (fun items => some (none, items)) resolves.items
  | some cache =>
    obtain ⟨hit, unification, ran, hitSound, itemsEq, unresolved, count⟩ :=
      unifyInCache_spec (sound cache rfl) items.zipIdx ⟨items, [], 0, []⟩
    have resolves : unification.Resolves items cache.get := by
      refine ⟨itemsEq.trans ?_, unresolved, ?_⟩
      · have start := replaceFound_unresolved items (fun _ => none) cache.get
        have whole : items.map (realItem fun _ => none) = items := map_id items
        simpa [whole] using start
      · rw [count, unresolved]
        simp
    have known : (fun id => (cache.get id).or (collections.findSome? (·.get id))) =
        knownItem (some cache) collections := rfl
    have all := (resolves.inCollections collections).items
    rw [known] at all
    rw [cacheLoadUnify, ran]
    by_cases done : unification.numUnresolved = 0
    · have resolved : unification.unresolved = [] := by
        have length := resolves.numUnresolved
        rw [done] at length
        exact length_eq_zero_iff.mp (Int.ofNat_eq_zero.mp length.symm)
      rw [inCollections_resolved resolved] at all
      refine ⟨some hit, ?_, ?_⟩
      · rw [← all]
        simp [done]
      · rintro _ ⟨⟩
        exact hitSound
    · have hitSound' : AllSound (some hit) := by
        rintro _ ⟨⟩
        exact hitSound
      rw [← all]
      cases cacheIfMissing with
      | false => exact ⟨some hit, by simp [done], hitSound'⟩
      | true =>
        obtain ⟨after, added, afterSound⟩ := addIfCached_sound hitSound'
          ((unifyInCollections collections unification).needToCache ++
            (unifyInCollections collections unification).unresolved.map Prod.fst)
        exact ⟨after, by simp [done, added], afterSound⟩

def Knows (cache : Option GlodaCache) (collections : List IdMap) (item : GlodaItem) : Prop :=
  (∃ present ∈ cache, present.get item.id = some item) ∨
    ∃ collection ∈ collections, collection.get item.id = some item

/-- The cache and the collections have the same object for an id. -/
def Agree (cache : Option GlodaCache) (collections : List IdMap) : Prop :=
  ∀ item other, Knows cache collections item → Knows cache collections other →
    item.id = other.id → item = other

/-- The items still have their ids, and there is one object for an id: the known one where there is
one. -/
structure Unified (cache : Option GlodaCache) (collections : List IdMap)
    (items result : List GlodaItem) : Prop where
  ids : result.map GlodaItem.id = items.map GlodaItem.id
  known : ∀ item ∈ result, ∀ other, Knows cache collections other → item.id = other.id →
    item = other
  one : ∀ item ∈ result, ∀ other ∈ result, item.id = other.id → item = other

lemma knows_of_knownItem {id : Nat} (isKnown : knownItem cache collections id = some item) :
    Knows cache collections item := by
  have isKey := knownItem_id isKnown
  rcases Option.or_eq_some_iff.mp isKnown with inCache | ⟨-, inCollection⟩
  · obtain ⟨present, isCache, found⟩ := Option.bind_eq_some_iff.mp inCache
    exact .inl ⟨present, isCache, isKey ▸ found⟩
  · obtain ⟨collection, mem, found⟩ := exists_of_findSome?_eq_some inCollection
    exact .inr ⟨collection, mem, isKey ▸ found⟩

lemma knownItem_of_knows
    (agree : Agree cache collections) (knows : Knows cache collections item) :
    knownItem cache collections item.id = some item := by
  cases isKnown : knownItem cache collections item.id with
  | none =>
    have unknown := knownItem_eq_none_iff.mp isKnown
    rcases knows with ⟨present, isCache, found⟩ | ⟨collection, mem, found⟩
    · exact absurd ((unknown.1 present isCache).symm.trans found) nofun
    · exact absurd ((unknown.2 collection mem).symm.trans found) nofun
  | some other => rw [agree other item (knows_of_knownItem isKnown) knows (knownItem_id isKnown)]

lemma realItem_id (cache) (collections) (item) :
    (realItem (knownItem cache collections) item).id = item.id := by
  rw [realItem]
  cases isKnown : knownItem cache collections item.id with
  | none => rfl
  | some other => exact knownItem_id isKnown

lemma realItem_unknown (unknown : Unknown cache collections item.id) :
    realItem (knownItem cache collections) item = item := by
  rw [realItem, knownItem_eq_none_iff.mpr unknown]
  rfl

/-- There is one object for each id exactly if items with an id that is new are one object
already. -/
theorem cacheLoadUnify_unified_iff (cache : Option GlodaCache) (sound : AllSound cache)
    (collections : List IdMap) (agree : Agree cache collections) (items : List GlodaItem)
    (cacheIfMissing : Bool) :
    (∃ after result, cacheLoadUnify cache collections items cacheIfMissing = some (after, result) ∧
        Unified cache collections items result) ↔
      ∀ item ∈ items, ∀ other ∈ items, item.id = other.id → Unknown cache collections item.id →
        item = other := by
  obtain ⟨after, returned, -⟩ := cacheLoadUnify_eq sound collections items cacheIfMissing
  constructor
  · rintro ⟨after', result, returned', -, -, one⟩ item isItem other isOther same unknown
    cases returned.symm.trans returned'
    have equal := one _ (mem_map_of_mem isItem) _ (mem_map_of_mem isOther)
    rw [realItem_id, realItem_id, realItem_unknown unknown,
      realItem_unknown (same ▸ unknown)] at equal
    exact equal same
  · intro newOnce
    refine ⟨after, _, returned, ?_, ?_, ?_⟩
    · rw [map_map]
      exact map_congr_left fun item _ => realItem_id cache collections item
    · intro result mem other knows same
      obtain ⟨item, isItem, rfl⟩ := mem_map.mp mem
      rw [realItem_id] at same
      rw [realItem, same, knownItem_of_knows agree knows]
      rfl
    · intro result mem result' member' same
      obtain ⟨item, isItem, rfl⟩ := mem_map.mp mem
      obtain ⟨other, isOther, rfl⟩ := mem_map.mp member'
      rw [realItem_id, realItem_id] at same
      by_cases isKnown : knownItem cache collections item.id = none
      · have unknown := knownItem_eq_none_iff.mp isKnown
        rw [newOnce item isItem other isOther same unknown]
      · obtain ⟨real, isReal⟩ := Option.ne_none_iff_exists'.mp isKnown
        rw [realItem, realItem, ← same, isReal]
        rfl

lemma create_get (cacheSize id : Nat) : (GlodaCache.create cacheSize).get id = none := by
  rw [GlodaCache.get]
  exact if_neg (Finset.notMem_empty id)

/-- An item that a collection has an object for, and a new one that is there twice. -/
theorem cacheLoadUnify_known :
    ∃ after result,
      cacheLoadUnify (some (.create 32)) [.only ⟨1, 7⟩] [⟨2, 7⟩, ⟨3, 5⟩, ⟨3, 5⟩] true =
        some (after, result) ∧
      Unified (some (.create 32)) [.only ⟨1, 7⟩] [⟨2, 7⟩, ⟨3, 5⟩, ⟨3, 5⟩] result := by
  have known : ∀ item, Knows (some (.create 32)) [.only ⟨1, 7⟩] item → item = ⟨1, 7⟩ := by
    rintro item (⟨present, ⟨⟩, found⟩ | ⟨collection, mem, found⟩)
    · rw [create_get] at found
      cases found
    · rw [mem_singleton.mp mem, IdMap.only] at found
      dsimp only at found
      split at found
      · exact (Option.some.inj found).symm
      · cases found
  have agree : Agree (some (.create 32)) [.only ⟨1, 7⟩] := by
    intro item other isKnown otherKnown _
    rw [known item isKnown, known other otherKnown]
  have once : ∀ item ∈ ([⟨2, 7⟩, ⟨3, 5⟩, ⟨3, 5⟩] : List GlodaItem),
      ∀ other ∈ ([⟨2, 7⟩, ⟨3, 5⟩, ⟨3, 5⟩] : List GlodaItem),
        item.id = other.id → item = other := by decide
  exact (cacheLoadUnify_unified_iff _ (create_allSound 32) _ agree _ _).mpr
    fun item isItem other isOther same _ => once item isItem other isOther same

/-- Two objects with a new id stay two objects. -/
theorem cacheLoadUnify_new_twice :
    AllSound (some (.create 32)) ∧ Agree (some (.create 32)) [] ∧
      ¬ ∃ after result,
        cacheLoadUnify (some (.create 32)) [] [⟨1, 7⟩, ⟨2, 7⟩] true = some (after, result) ∧
          Unified (some (.create 32)) [] [⟨1, 7⟩, ⟨2, 7⟩] result := by
  have unknown : ∀ id, Unknown (some (.create 32)) [] id := by
    refine fun id => ⟨?_, nofun⟩
    rintro _ ⟨⟩
    exact create_get 32 id
  refine ⟨create_allSound 32, ?_, ?_⟩
  · intro item other isKnown
    rcases isKnown with ⟨present, isCache, found⟩ | ⟨collection, mem, -⟩
    · exact absurd (((unknown item.id).1 present isCache).symm.trans found) nofun
    · cases mem
  · rintro ⟨after, result, returned, -, -, one⟩
    obtain ⟨cached, returned', -⟩ := cacheLoadUnify_eq (create_allSound 32) [] [⟨1, 7⟩, ⟨2, 7⟩] true
    cases returned'.symm.trans returned
    have same := one _ mem_cons_self _ (mem_cons_of_mem _ mem_cons_self)
    rw [realItem_unknown (unknown _), realItem_unknown (unknown _)] at same
    exact absurd (same rfl) (by decide)

end CommCentral.Gloda
