import Mathlib.Data.Finset.Sort
import CommCentral.Lib.LinkedList

/-! The cache of a gloda noun: the items of a map in a list from the oldest to the newest, linked
through attributes that the cache adds to them. -/
namespace CommCentral.Gloda

open Lib

/-- `GlodaLRUCacheCollection`, with the attributes of all items, which their ids stand for, and
the items that `objUpdate` was called with so far. -/
structure LRUCacheCollection where
  head : Link Nat := .null
  tail : Link Nat := .null
  size : Int := 0
  maxCacheSize : Nat
  idMap : Finset Nat := ∅
  lruPrev : Nat → Link Nat := fun _ => .absent
  lruNext : Nat → Link Nat := fun _ => .absent
  dirty : Nat → Bool := fun _ => false
  objUpdated : List Nat := []

namespace LRUCacheCollection

def create (cacheSize : Nat) : LRUCacheCollection :=
  { maxCacheSize := if cacheSize < 32 then 32 else cacheSize }

variable (cache : LRUCacheCollection)

/-- `target._lruPrev = value`, where only items have attributes. -/
def writePrev (target value : Link Nat) : Option LRUCacheCollection :=
  (writeField cache.lruPrev target value).map fun lruPrev => { cache with lruPrev := lruPrev }

/-- `target._lruNext = value` -/
def writeNext (target value : Link Nat) : Option LRUCacheCollection :=
  (writeField cache.lruNext target value).map fun lruNext => { cache with lruNext := lruNext }

/-- An item that is not in the map yet becomes the newest. -/
def addItem (item : Nat) : Option LRUCacheCollection := do
  if item ∈ cache.idMap then
    return cache
  let cache := { cache with idMap := insert item cache.idMap }
  let cache ← cache.writePrev (.item item) cache.tail
  let cache ←
    if cache.tail ≠ .null then cache.writeNext cache.tail (.item item)
    else some { cache with head := .item item }
  let cache ← cache.writeNext (.item item) .null
  return { cache with tail := .item item, size := cache.size + 1 }

/-- `objUpdate` is called with an item that is dirty, which it then no longer is. -/
def flush (item : Nat) : LRUCacheCollection :=
  if cache.dirty item then
    { cache with
      objUpdated := cache.objUpdated ++ [item]
      dirty := Function.update cache.dirty item false }
  else cache

/-- The oldest item leaves the cache. -/
def evict : Option LRUCacheCollection :=
  match cache.head with
  | .item item => do
    let cache := { cache with head := cache.lruNext item }
    let cache ← cache.writePrev cache.head .null
    let cache ← cache.writeNext (.item item) .absent
    let cache ← cache.writePrev (.item item) .absent
    let cache := { cache with idMap := cache.idMap.erase item }
    let cache := cache.flush item
    return { cache with size := cache.size - 1 }
  | _ => none

/-- The loop that evicts items while there are too many. -/
def evictWhile : (steps : Nat) → (cache : LRUCacheCollection) → Option LRUCacheCollection
  | 0, cache => some cache
  | steps + 1, cache =>
    if cache.maxCacheSize < cache.size then cache.evict.bind (evictWhile steps) else some cache

def add (items : List Nat) : Option LRUCacheCollection := do
  let cache ← items.foldlM addItem cache
  evictWhile (cache.size - cache.maxCacheSize).toNat cache

/-- The link to an item from before it now goes to what follows the item. -/
def unlinkBefore (item : Nat) : Option LRUCacheCollection :=
  if cache.lruPrev item ≠ .null then cache.writeNext (cache.lruPrev item) (cache.lruNext item)
  else some { cache with head := cache.lruNext item }

def hit (item : Nat) : Option LRUCacheCollection := do
  if cache.head = cache.tail ∨ cache.tail = .item item then
    return cache
  let cache ← cache.unlinkBefore item
  let cache ← cache.writePrev (cache.lruNext item) (cache.lruPrev item)
  let cache ← cache.writeNext cache.tail (.item item)
  let cache ← cache.writePrev (.item item) cache.tail
  let cache ← cache.writeNext (.item item) .null
  return { cache with tail := .item item }

def deleted (item : Nat) : Option LRUCacheCollection := do
  let cache ← cache.unlinkBefore item
  let cache ←
    if cache.lruNext item ≠ .null then cache.writePrev (cache.lruNext item) (cache.lruPrev item)
    else some { cache with tail := cache.lruPrev item }
  let cache ← cache.writeNext (.item item) .absent
  let cache ← cache.writePrev (.item item) .absent
  return { cache with idMap := cache.idMap.erase item, size := cache.size - 1 }

/-- `commitDirty`, which takes the ids in ascending order. -/
def commitDirty : LRUCacheCollection := (cache.idMap.sort (· ≤ ·)).foldl flush cache

end LRUCacheCollection

/-- What is done to a cache. Items become dirty by themselves. -/
inductive CacheCall
  | add (items : List Nat)
  | hit (item : Nat)
  | deleted (item : Nat)
  | commitDirty
  | setDirty (item : Nat)

/-- The cache after a call, if no exception is thrown. -/
def LRUCacheCollection.call (cache : LRUCacheCollection) : CacheCall → Option LRUCacheCollection
  | .add items => cache.add items
  | .hit item => cache.hit item
  | .deleted item => cache.deleted item
  | .commitDirty => some cache.commitDirty
  | .setDirty item => some { cache with dirty := Function.update cache.dirty item true }

end CommCentral.Gloda
