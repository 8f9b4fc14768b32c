import CommCentral.Gloda.CollectionManager
import CommCentral.Lib.ArrayShift

/-! A gloda collection follows its query: the notifications of the collection manager put items into
it and take them out. -/
namespace CommCentral.Gloda

open Lib List Function

namespace IdMap

def empty : IdMap where
  get _ := none
  keyed := nofun

/-- `_idMap[item.id] = item` -/
def set (map : IdMap) (item : GlodaItem) : IdMap where
  get := Function.update map.get item.id (some item)
  keyed := by
    intro id other found
    by_cases isKey : id = item.id
    · subst isKey
      rw [update_self] at found
      exact Option.some.inj found ▸ rfl
    · rw [update_of_ne isKey] at found
      exact map.keyed found

/-- `delete _idMap[item.id]` -/
def delete (map : IdMap) (item : GlodaItem) : IdMap where
  get := Function.update map.get item.id none
  keyed := by
    intro id other found
    by_cases isKey : id = item.id
    · subst isKey
      rw [update_self] at found
      cases found
    · rw [update_of_ne isKey] at found
      exact map.keyed found

end IdMap

/-- `GlodaCollection`, but for its listener, which is told of the same changes, and the map by unique
values, which no notification reads. -/
structure GlodaCollection where
  items : List GlodaItem
  idMap : IdMap

namespace GlodaCollection

/-- A collection before anything was found. -/
def empty : GlodaCollection := ⟨[], .empty⟩

def onItemsAdded (collection : GlodaCollection) (items : List GlodaItem) : GlodaCollection where
  items := collection.items ++ items
  idMap := (collection.items ++ items).foldl IdMap.set collection.idMap

def onItemsRemoved (collection : GlodaCollection) (items : List GlodaItem) : GlodaCollection where
  items := filterInPlace (fun item => item.id ∉ items.map GlodaItem.id) collection.items.length 0 0
    collection.items
  idMap := items.foldl IdMap.delete collection.idMap

def holdsId (collection : GlodaCollection) (id : Nat) : Bool := (collection.idMap.get id).isSome

end GlodaCollection

/-- What the collection manager is told of the items of a noun, with what the query of the collection
says of them at that time. -/
inductive Notification where
  | itemsAdded (items : List GlodaItem) (test : GlodaItem → Bool)
  | itemsModified (items : List GlodaItem) (test : GlodaItem → Bool)
  | itemsDeleted (itemIds : List Nat)

/-- What a notification does to a collection whose query is frozen or not. -/
def GlodaCollection.notify (frozen : Bool) (collection : GlodaCollection) :
    Notification → GlodaCollection
  | .itemsAdded items test =>
    let addItems := items.filter test
    if addItems ≠ [] then collection.onItemsAdded addItems else collection
  | .itemsModified items test =>
    let added := items.filter fun item => !collection.holdsId item.id && test item
    let removed := items.filter fun item => collection.holdsId item.id && !test item && !frozen
    let collection := if added ≠ [] then collection.onItemsAdded added else collection
    if removed ≠ [] then collection.onItemsRemoved removed else collection
  | .itemsDeleted itemIds =>
    let removeItems := itemIds.filterMap collection.idMap.get
    if removeItems ≠ [] then collection.onItemsRemoved removeItems else collection

/-- What a notification says of the item with an id, if it is about it. -/
def Notification.verdict (id : Nat) : Notification → Option Bool
  | .itemsAdded items test | .itemsModified items test => (itemAt GlodaItem.id items id).map test
  | .itemsDeleted itemIds => if id ∈ itemIds then some false else none

/-- What the latest notification about the item with an id says of it. -/
def latest (log : List Notification) (id : Nat) : Bool :=
  (log.reverse.findSome? (Notification.verdict id)).getD false

/-- The items of a notification are distinct, and those that are added have never been notified
before. -/
def Notification.Allowed (earlier : List Notification) : Notification → Prop
  | .itemsAdded items _ => (items.map GlodaItem.id).Nodup ∧
      ∀ item ∈ items, ∀ other ∈ earlier, other.verdict item.id = none
  | .itemsModified items _ => (items.map GlodaItem.id).Nodup
  | .itemsDeleted _ => True

def Admissible (log : List Notification) : Prop :=
  ∀ earlier notification later, log = earlier ++ notification :: later →
    notification.Allowed earlier

/-- The collection holds once each the items that the latest notifications found to match, and the
keys of its map are their ids. -/
structure EqualsQuery (log : List Notification) (collection : GlodaCollection) : Prop where
  once : (collection.items.map GlodaItem.id).Nodup
  items : ∀ id, id ∈ collection.items.map GlodaItem.id ↔ latest log id = true
  keys : ∀ id, (collection.idMap.get id).isSome ↔ id ∈ collection.items.map GlodaItem.id

lemma get_setAll (items : List GlodaItem) (map : IdMap) (id : Nat) :
    ((items.foldl IdMap.set map).get id).isSome ↔
      (map.get id).isSome ∨ id ∈ items.map GlodaItem.id := by
  induction items generalizing map with
  | nil => simp
  | cons item rest ih =>
    rw [foldl_cons, ih, IdMap.set, map_cons, mem_cons]
    by_cases isKey : id = item.id
    · simp [isKey]
    · simp [isKey]

lemma get_deleteAll (items : List GlodaItem) (map : IdMap) (id : Nat) :
    ((items.foldl IdMap.delete map).get id).isSome ↔
      (map.get id).isSome ∧ id ∉ items.map GlodaItem.id := by
  induction items generalizing map with
  | nil => simp
  | cons item rest ih =>
    rw [foldl_cons, ih, IdMap.delete, map_cons, mem_cons]
    by_cases isKey : id = item.id
    · simp [isKey]
    · simp [isKey]

/-- The items have different ids, which are the keys of the map. -/
structure Keyed (collection : GlodaCollection) : Prop where
  once : (collection.items.map GlodaItem.id).Nodup
  keys : ∀ id, (collection.idMap.get id).isSome ↔ id ∈ collection.items.map GlodaItem.id

section Changes

variable {collection : GlodaCollection}

lemma mem_onItemsAdded (id : Nat) :
    id ∈ (collection.onItemsAdded items).items.map GlodaItem.id ↔
      id ∈ collection.items.map GlodaItem.id ∨ id ∈ items.map GlodaItem.id := by
  rw [GlodaCollection.onItemsAdded, map_append, mem_append]

lemma mem_onItemsRemoved (id : Nat) :
    id ∈ (collection.onItemsRemoved items).items.map GlodaItem.id ↔
      id ∈ collection.items.map GlodaItem.id ∧ id ∉ items.map GlodaItem.id := by
  rw [GlodaCollection.onItemsRemoved, filterInPlace_eq]
  constructor
  · intro mem
    obtain ⟨item, isKept, rfl⟩ := mem_map.mp mem
    obtain ⟨isItem, keeps⟩ := mem_filter.mp isKept
    exact ⟨mem_map_of_mem isItem, of_decide_eq_true keeps⟩
  · rintro ⟨mem, kept⟩
    obtain ⟨item, isItem, rfl⟩ := mem_map.mp mem
    exact mem_map_of_mem (mem_filter.mpr ⟨isItem, decide_eq_true kept⟩)

variable (keyed : Keyed collection)
include keyed

lemma Keyed.onItemsAdded (distinct : (items.map GlodaItem.id).Nodup)
    (absent : ∀ item ∈ items, item.id ∉ collection.items.map GlodaItem.id) :
    Keyed (collection.onItemsAdded items) where
  once := by
    rw [GlodaCollection.onItemsAdded, map_append, nodup_append]
    refine ⟨keyed.once, distinct, ?_⟩
    intro id isOld other isNew same
    obtain ⟨item, mem, rfl⟩ := mem_map.mp isNew
    exact absent item mem (same ▸ isOld)
  keys id := by
    rw [GlodaCollection.onItemsAdded, get_setAll, keyed.keys, map_append, mem_append]
    tauto

lemma Keyed.onItemsRemoved : Keyed (collection.onItemsRemoved items) where
  once := by
    rw [GlodaCollection.onItemsRemoved, filterInPlace_eq]
    exact keyed.once.sublist (filter_sublist.map GlodaItem.id)
  keys id := by
    rw [mem_onItemsRemoved, ← keyed.keys]
    exact get_deleteAll items collection.idMap id

lemma Keyed.addIfAny (distinct : (items.map GlodaItem.id).Nodup)
    (absent : ∀ item ∈ items, item.id ∉ collection.items.map GlodaItem.id) :
    Keyed (if items ≠ [] then collection.onItemsAdded items else collection) ∧
      ∀ id, id ∈ (if items ≠ [] then collection.onItemsAdded items else collection).items.map
          GlodaItem.id ↔
        id ∈ collection.items.map GlodaItem.id ∨ id ∈ items.map GlodaItem.id := by
  by_cases nothing : items = []
  · subst nothing
    simpa using keyed
  · rw [if_pos nothing]
    exact ⟨keyed.onItemsAdded distinct absent, mem_onItemsAdded⟩

lemma Keyed.removeIfAny (items) :
    Keyed (if items ≠ [] then collection.onItemsRemoved items else collection) ∧
      ∀ id, id ∈ (if items ≠ [] then collection.onItemsRemoved items else collection).items.map
          GlodaItem.id ↔
        id ∈ collection.items.map GlodaItem.id ∧ id ∉ items.map GlodaItem.id := by
  by_cases nothing : items = []
  · subst nothing
    simpa using keyed
  · rw [if_pos nothing]
    exact ⟨keyed.onItemsRemoved, mem_onItemsRemoved⟩

end Changes

/-- Of items with different ids, the one with an id is among those that are kept if it is kept. -/
theorem mem_filter_ids (distinct : (items.map GlodaItem.id).Nodup) (keep : GlodaItem → Bool)
    (id : Nat) :
    id ∈ (items.filter keep).map GlodaItem.id ↔
      (itemAt GlodaItem.id items id).any keep = true := by
  constructor
  · intro mem
    obtain ⟨item, isKept, rfl⟩ := mem_map.mp mem
    obtain ⟨isItem, keeps⟩ := mem_filter.mp isKept
    rw [itemAt_of_mem distinct isItem]
    exact keeps
  · intro keeps
    cases found : itemAt GlodaItem.id items id with
    | none =>
      rw [found] at keeps
      cases keeps
    | some item =>
      rw [found] at keeps
      obtain ⟨mem, rfl⟩ := itemAt_key found
      exact mem_map_of_mem (mem_filter.mpr ⟨mem, keeps⟩)

lemma distinct_filter {items : List GlodaItem} (distinct : (items.map GlodaItem.id).Nodup)
    (keep : GlodaItem → Bool) : ((items.filter keep).map GlodaItem.id).Nodup :=
  distinct.sublist (filter_sublist.map GlodaItem.id)

/-- What a notification says decides on the item it is about, and the others stay as they are. -/
theorem Keyed.notify (keyed : Keyed collection) {log : List Notification}
    (current : ∀ id, id ∈ collection.items.map GlodaItem.id ↔ latest log id = true)
    (allowed : notification.Allowed log) :
    Keyed (collection.notify false notification) ∧
      ∀ id, id ∈ (collection.notify false notification).items.map GlodaItem.id ↔
        (notification.verdict id).getD (latest log id) = true := by
  cases notification with
  | itemsAdded items test =>
    obtain ⟨distinct, new⟩ := allowed
    have absent : ∀ item ∈ items, item.id ∉ collection.items.map GlodaItem.id := by
      intro item mem isOld
      have none_before : log.reverse.findSome? (Notification.verdict item.id) = none :=
        findSome?_eq_none_iff.mpr fun other isEarlier =>
          new item mem other (mem_reverse.mp isEarlier)
      rw [current, latest, none_before] at isOld
      cases isOld
    have absent' : ∀ item ∈ items.filter test, item.id ∉ collection.items.map GlodaItem.id :=
      fun item mem => absent item (mem_of_mem_filter mem)
    obtain ⟨after, mem_after⟩ := keyed.addIfAny (distinct_filter distinct test) absent'
    refine ⟨after, ?_⟩
    intro id
    refine (mem_after id).trans ?_
    rw [mem_filter_ids distinct, current, Notification.verdict]
    cases found : itemAt GlodaItem.id items id with
    | none => simp
    | some item =>
      obtain ⟨mem, rfl⟩ := itemAt_key found
      have notBefore : latest log item.id = false := by
        simpa [current] using absent item mem
      simp [notBefore]
  | itemsModified items test =>
    have distinct : (items.map GlodaItem.id).Nodup := allowed
    have holds : ∀ id, collection.holdsId id = latest log id := by
      intro id
      rw [Bool.eq_iff_iff, ← current, ← keyed.keys]
      rfl
    have absent : ∀ item ∈ items.filter fun item => !collection.holdsId item.id && test item,
        item.id ∉ collection.items.map GlodaItem.id := by
      intro item mem
      obtain ⟨-, keeps⟩ := mem_filter.mp mem
      rw [current, ← holds]
      simp_all
    obtain ⟨grown, mem_grown⟩ := keyed.addIfAny (distinct_filter distinct _) absent
    obtain ⟨after, mem_after⟩ := grown.removeIfAny
      (items.filter fun item => collection.holdsId item.id && !test item && !false)
    refine ⟨after, ?_⟩
    intro id
    refine (mem_after id).trans ?_
    rw [mem_grown, mem_filter_ids distinct, mem_filter_ids distinct, current, Notification.verdict]
    cases found : itemAt GlodaItem.id items id with
    | none => simp
    | some item =>
      obtain ⟨mem, rfl⟩ := itemAt_key found
      simp [holds]
      cases latest log item.id <;> cases test item <;> simp
  | itemsDeleted itemIds =>
    obtain ⟨after, mem_after⟩ := keyed.removeIfAny (itemIds.filterMap collection.idMap.get)
    refine ⟨after, ?_⟩
    intro id
    refine (mem_after id).trans ?_
    have removed : id ∈ (itemIds.filterMap collection.idMap.get).map GlodaItem.id ↔
        id ∈ itemIds ∧ id ∈ collection.items.map GlodaItem.id := by
      rw [← keyed.keys]
      constructor
      · intro mem
        obtain ⟨item, isRemoved, rfl⟩ := mem_map.mp mem
        obtain ⟨itemId, isId, found⟩ := mem_filterMap.mp isRemoved
        have isKey := collection.idMap.keyed found
        rw [isKey, found]
        exact ⟨isId, rfl⟩
      · rintro ⟨isId, present⟩
        obtain ⟨item, found⟩ := Option.isSome_iff_exists.mp present
        have isKey := collection.idMap.keyed found
        exact isKey ▸ mem_map_of_mem (mem_filterMap.mpr ⟨id, isId, found⟩)
    rw [removed, current, Notification.verdict]
    by_cases mentioned : id ∈ itemIds
    · simp [mentioned]
    · simp [mentioned]

lemma latest_concat (log) (notification) (id : Nat) :
    latest (log ++ [notification]) id = (notification.verdict id).getD (latest log id) := by
  rw [latest, latest, reverse_append, reverse_singleton, singleton_append,
    findSome?_cons]
  cases notification.verdict id with
  | none => rfl
  | some found => rfl

lemma Admissible.concat {log : List Notification}
    (admissible : Admissible (log ++ [notification])) :
    Admissible log ∧ notification.Allowed log := by
  constructor
  · intro earlier other later split
    exact admissible earlier other (later ++ [notification]) (by rw [split]; simp)
  · exact admissible log notification [] rfl

/-- After any notifications, a collection that is not frozen holds what its query asks for. -/
theorem notifications_equal_query (log : List Notification) (admissible : Admissible log) :
    EqualsQuery log (log.foldl (GlodaCollection.notify false) .empty) := by
  induction log using List.reverseRecOn with
  | nil =>
    refine ⟨nodup_nil, ?_, ?_⟩
    · intro id
      exact iff_of_false not_mem_nil Bool.false_ne_true
    · intro id
      exact iff_of_false Bool.false_ne_true not_mem_nil
  | append_singleton log notification ih =>
    obtain ⟨earlier, allowed⟩ := admissible.concat
    obtain ⟨once, current, keys⟩ := ih earlier
    have keyed : Keyed (log.foldl (GlodaCollection.notify false) .empty) := ⟨once, keys⟩
    obtain ⟨after, mem_after⟩ := keyed.notify current allowed
    rw [foldl_concat]
    refine ⟨after.once, ?_, after.keys⟩
    intro id
    rw [mem_after, latest_concat]

/-- Two items are added, one of them matching, the other one comes to match, and the first one is
deleted. -/
def twoItems : List Notification :=
  [.itemsAdded [⟨1, 7⟩, ⟨2, 5⟩] fun item => item.id = 7, .itemsModified [⟨2, 5⟩] fun _ => true,
    .itemsDeleted [7]]

theorem notifications_twoItems :
    EqualsQuery twoItems (twoItems.foldl (GlodaCollection.notify false) .empty) := by
  apply notifications_equal_query
  intro earlier notification later split
  match earlier with
  | [] =>
    obtain ⟨rfl, -⟩ := List.cons.inj split
    exact ⟨by decide, fun _ _ _ impossible => absurd impossible not_mem_nil⟩
  | [_] =>
    obtain ⟨-, split⟩ := List.cons.inj split
    obtain ⟨rfl, -⟩ := List.cons.inj split
    exact nodup_singleton _
  | [_, _] =>
    obtain ⟨-, split⟩ := List.cons.inj split
    obtain ⟨-, split⟩ := List.cons.inj split
    obtain ⟨rfl, -⟩ := List.cons.inj split
    trivial
  | _ :: _ :: _ :: rest =>
    have lengths := congrArg List.length split
    simp [twoItems] at lengths

end CommCentral.Gloda
