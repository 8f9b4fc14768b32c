import CommCentral.Mork.ProbeMap
import CommCentral.Lib.Run
import Mathlib.Logic.Function.Basic

/-! A probe map as a finite map, through any number of growths. -/
namespace CommCentral.Mork

open Lib List Option Function

universe u v

inductive MapCall (Key : Type u) (Val : Type v) where
  | mapAtPut (key : Key) (val : Val)
  | mapAt (key : Key)
  | mapCutAll

namespace ProbeMap

variable {Key : Type u} {Val : Type v}

/-- The value at a slot. -/
def valAt (map : ProbeMap Key Val) (pos : Nat) : Option Val := map.vals.bind (·[pos]?)

section Rehash

variable {hash : Key → Nat} {oldKeys keys : List (Option Key)} {vals : Option (List Val)}

/-- The new values are the old ones at the slots that are in use, as the rehash copies them. -/
def Copied (keys : List (Option Key)) : (oldVals vals : Option (List Val)) → Prop
  | none, vals => vals = none
  | some old, vals => ∃ new, vals = some new ∧ new.length = keys.length ∧
      ∀ pos, keys.getD pos none ≠ none → new[pos]? = old[pos]?

/-- The old values reach as far as the slots that are in use. -/
def Covered (keys : List (Option Key)) (oldVals : Option (List Val)) : Prop :=
  ∀ old, oldVals = some old → ∀ pos, keys.getD pos none ≠ none → pos < old.length

lemma rehashLoop_spec [Inhabited Val] (probed : Probed hash keys)
    (distinct : oldKeys.reduceOption.Nodup)
    (absent : ∀ key ∈ oldKeys.reduceOption, some key ∉ keys)
    (room : keyCount keys + oldKeys.reduceOption.length ≤ keys.length)
    (copied : Copied keys oldVals vals)
    (covered : Covered (oldKeys.reduceOption.foldl (putFree hash) keys) oldVals) :
    ∃ newVals, rehashLoop hash oldVals oldKeys keys vals =
        some (oldKeys.reduceOption.foldl (putFree hash) keys, newVals) ∧
      Copied (oldKeys.reduceOption.foldl (putFree hash) keys) oldVals newVals := by
  induction oldKeys generalizing keys vals with
  | nil => exact ⟨vals, rfl, copied⟩
  | cons stored oldKeys ih =>
    cases stored with
    | none =>
      rw [reduceOption_cons_of_none] at *
      exact ih probed distinct absent room copied covered
    | some key =>
      rw [reduceOption_cons_of_some] at *
      obtain ⟨notAgain, restDistinct⟩ := nodup_cons.mp distinct
      obtain ⟨keyAbsent, restAbsent⟩ := forall_mem_cons.mp absent
      rw [length_cons] at room
      obtain ⟨pos, isFree, inside, -, isPut, extends_⟩ := probed.putFree_spec keyAbsent (by omega)
      rw [foldl_cons, isPut] at covered ⊢
      have laterAbsent : ∀ other ∈ oldKeys.reduceOption, some other ∉ keys.set pos (some key) := by
        intro other mem inTable
        rcases (extends_.member other).mp inTable with before | same
        · exact restAbsent other mem before
        · rw [mem_singleton.mp same] at mem
          exact notAgain mem
      have laterRoom : keyCount (keys.set pos (some key)) + oldKeys.reduceOption.length ≤
          (keys.set pos (some key)).length := by
        rw [extends_.count, extends_.size]
        exact (Nat.add_right_comm ..).trans_le room
      have walked : probe Option.isNone keys (hash key % keys.length) keys.length
          (hash key % keys.length) = some pos := isFree
      rw [rehashLoop, walked, bind_some]
      cases oldVals with
      | none => exact ih extends_.probed restDistinct laterAbsent laterRoom copied covered
      | some old =>
        -- the slot stays in use until the rehash ends
        have final := extends_.probed.foldl_putFree restDistinct laterAbsent laterRoom
        have here : (keys.set pos (some key)).getD pos none = some key := by
          rw [getD_set inside, if_pos rfl]
        have stays := final.stays pos key here
        have read : pos < old.length := by
          apply covered old rfl pos
          rw [stays]
          exact some_ne_none key
        obtain ⟨new, isNew, size, same⟩ := copied
        subst isNew
        dsimp only
        rw [getElem?_eq_getElem read, bind_some]
        apply ih extends_.probed restDistinct laterAbsent laterRoom _ covered
        refine ⟨new.set pos old[pos], rfl, ?_, ?_⟩
        · rw [length_set, length_set, size]
        · intro other inUse
          rw [getD_set inside] at inUse
          rw [getElem?_set]
          split
          · rename_i isPos
            rw [← isPos, if_pos (size ▸ inside), getElem?_eq_getElem read]
          · rename_i notPos
            rw [if_neg notPos] at inUse
            exact same other inUse

end Rehash

section Holding

variable {hash : Key → Nat} {valSize : Nat} {map : ProbeMap Key Val}
  {stored : Key → Option Val}

/-- The members are those of a finite map; the fill may be one above its limit. -/
structure Holds (hash : Key → Nat) (valSize : Nat) (map : ProbeMap Key Val)
    (stored : Key → Option Val) : Prop where
  probed : Probed hash map.keys
  minimum : 7 ≤ map.slots
  limit : map.maxFill = occupancy map.slots
  counted : map.fill = keyCount map.keys
  member : ∀ key, some key ∈ map.keys ↔ (stored key).isSome
  size : map.valSize = valSize
  unvalued : valSize = 0 → map.vals = none
  valued : valSize ≠ 0 → ∃ vals, map.vals = some vals ∧ vals.length = map.slots
  value : valSize ≠ 0 → ∀ pos key, map.keys.getD pos none = some key → map.valAt pos = stored key

/-- What holds between two calls. -/
structure Represents (hash : Key → Nat) (valSize : Nat) (map : ProbeMap Key Val)
    (stored : Key → Option Val) : Prop extends Holds hash valSize map stored where
  spare : map.fill ≤ map.maxFill

lemma occupancy_lt {slots : Nat} (positive : 0 < slots) : occupancy slots < slots :=
  Nat.sub_lt positive (Nat.succ_pos _)

lemma Represents.room (represents : Represents hash valSize map stored) :
    keyCount map.keys < map.keys.length := by
  have less := occupancy_lt (Nat.lt_of_lt_of_le (by decide) represents.minimum)
  have spare := represents.spare
  rw [represents.counted, represents.limit] at spare
  exact Nat.lt_of_le_of_lt spare less

/-- A map without keys has been cleared already. -/
theorem Holds.lazyInit_eq (holds : Holds hash valSize map stored) :
    ∃ lazy, map.lazyInit = { map with lazyClearOnAdd := lazy } := by
  rw [ProbeMap.lazyInit]
  split
  · rename_i due
    refine ⟨false, ?_⟩
    rw [clearKeys, slots, ← keys_replicate (holds.counted.symm.trans due.2)]
  · exact ⟨map.lazyClearOnAdd, rfl⟩

lemma Represents.setLazy (represents : Represents hash valSize map stored) (lazy : Bool) :
    Represents hash valSize { map with lazyClearOnAdd := lazy } stored :=
  { represents with }

section Lookup

variable [DecidableEq Key]

lemma Holds.findKeyPos_present (holds : Holds hash valSize map stored)
    (isKey : map.keys.getD pos none = some key) : map.findKeyPos hash key = some (pos, true) := by
  rw [findKeyPos, slots, holds.probed.probe_present isKey, map_some, isKey]
  rw [decide_eq_true rfl]

lemma Represents.findKeyPos_absent (represents : Represents hash valSize map stored)
    (absent : some key ∉ map.keys) :
    ∃ pos, freeSlot hash map.keys key = some pos ∧ map.findKeyPos hash key = some (pos, false) ∧
      pos < map.keys.length ∧
      Extends hash map.keys [key] (map.keys.set pos (some key)) := by
  obtain ⟨pos, isFree, inside, free, -, extends_⟩ :=
    represents.probed.putFree_spec absent represents.room
  refine ⟨pos, isFree, ?_, inside, extends_⟩
  rw [findKeyPos, slots, probe_freeSlot absent represents.room, isFree, map_some, free]
  rw [decide_eq_false (some_ne_none key).symm]

/-- What a finite map answers, where values have a size or not. -/
def answer (valSize : Nat) (value : Option Val) : Found Val :=
  ⟨value.isSome, if valSize = 0 then none else value⟩

omit [DecidableEq Key] in
lemma Holds.found_present (holds : Holds hash valSize map stored)
    (isKey : map.keys.getD pos none = some key) :
    map.found pos true = answer valSize (stored key) := by
  have isStored := (holds.member key).mp (mem_iff_getD.mpr ⟨pos, isKey⟩)
  rw [found, if_pos rfl, answer, isStored]
  by_cases noSize : valSize = 0
  · rw [holds.unvalued noSize, if_pos noSize]
    rfl
  · rw [if_neg noSize, ← holds.value noSize pos key isKey]
    rfl

omit [DecidableEq Key] in
lemma Holds.found_absent (holds : Holds hash valSize map stored) (absent : some key ∉ map.keys)
    (pos : Nat) : map.found pos false = answer valSize (stored key) := by
  have notStored : stored key = none := not_isSome_iff_eq_none.mp (mt (holds.member key).mpr absent)
  rw [found, if_neg Bool.false_ne_true, answer, notStored, ite_self]
  rfl

lemma Represents.mapAt_spec (represents : Represents hash valSize map stored) (key : Key) :
    ∃ after, map.mapAt hash key = some (after, answer valSize (stored key)) ∧
      Represents hash valSize after stored := by
  obtain ⟨lazy, initialized⟩ := represents.lazyInit_eq
  have kept := represents.setLazy lazy
  rw [mapAt, initialized]
  dsimp only
  by_cases present : some key ∈ map.keys
  · obtain ⟨pos, isKey⟩ := mem_iff_getD.mp present
    rw [kept.findKeyPos_present isKey]
    exact ⟨_, congrArg some (Prod.ext rfl (kept.found_present isKey)), kept⟩
  · obtain ⟨pos, -, isFree, -⟩ := kept.findKeyPos_absent present
    rw [isFree]
    exact ⟨_, congrArg some (Prod.ext rfl (kept.found_absent present pos)), kept⟩

end Lookup

section Storing

variable [DecidableEq Key]

omit [DecidableEq Key] in
lemma Holds.valAt_storeKV (holds : Holds hash valSize map stored) (sized : valSize ≠ 0)
    (inside : pos < map.keys.length) (other : Nat) :
    (map.storeKV key val pos).valAt other = if pos = other then some val else map.valAt other := by
  obtain ⟨vals, isVals, size⟩ := holds.valued sized
  rw [valAt, storeKV, valAt, isVals]
  dsimp only [map_some, bind_some]
  rw [getElem?_set, if_pos (inside.trans_eq size.symm)]

lemma Holds.storeKV (holds : Holds hash valSize map stored) (inside : pos < map.keys.length)
    {fill : Nat} (probed : Probed hash (map.keys.set pos (some key)))
    (counted : fill = keyCount (map.keys.set pos (some key)))
    (mem : ∀ other, some other ∈ map.keys.set pos (some key) ↔
      some other ∈ map.keys ∨ other = key) :
    Holds hash valSize (ProbeMap.storeKV { map with fill := fill } key val pos)
      (Function.update stored key (some val)) := by
  constructor
  · exact probed
  · exact holds.minimum.trans_eq (length_set ..).symm
  · exact holds.limit.trans (congrArg occupancy (length_set ..).symm)
  · exact counted
  · intro other
    refine (mem other).trans ?_
    rw [holds.member]
    by_cases same : other = key
    · rw [same, update_self]
      exact ⟨fun _ => rfl, fun _ => .inr rfl⟩
    · rw [update_of_ne same]
      exact or_iff_left same
  · exact holds.size
  · intro noSize
    exact congrArg (Option.map _) (holds.unvalued noSize)
  · intro sized
    obtain ⟨vals, isVals, size⟩ := holds.valued sized
    refine ⟨vals.set pos val, congrArg (Option.map _) isVals, ?_⟩
    exact (length_set ..).trans (size.trans (length_set ..).symm)
  · intro sized place other isKey
    have isVal : (map.storeKV key val pos).valAt place =
        if pos = place then some val else map.valAt place :=
      holds.valAt_storeKV sized inside place
    refine isVal.trans ?_
    have isOther : (map.keys.set pos (some key)).getD place none = some other := isKey
    rw [getD_set inside] at isOther
    split at isOther
    · rename_i here
      cases isOther
      rw [if_pos here, update_self]
    · rename_i elsewhere
      have notKey : other ≠ key := by
        rintro rfl
        -- the key is at its new slot alone
        have twice := probed.once pos place other
        rw [getD_set inside, if_pos rfl, getD_set inside, if_neg elsewhere] at twice
        exact elsewhere (twice rfl isOther)
      rw [if_neg elsewhere, update_of_ne notKey]
      exact holds.value sized place other isOther

end Storing

section Growing

/-- The number of slots after a growth. -/
def grownSlots (map : ProbeMap Key Val) : Nat := map.slots * 4 / 3 + 1

/-- The arrays of the grown map have sizes of 32 bits, and every key moves to a slot where its value
was before. -/
structure GrowsWell (hash : Key → Nat) (map : ProbeMap Key Val) : Prop where
  slotsFit : map.slots * 4 < 2 ^ 32
  keysFit : map.grownSlots * map.keySize < 2 ^ 32
  valsFit : map.grownSlots * map.valSize < 2 ^ 32
  valuesStay : ∀ pos < map.grownSlots, ∀ old < map.slots,
    (rebuilt hash map.grownSlots map.keys).getD pos none ≠ none →
    (rebuilt hash map.grownSlots map.keys).getD pos none = map.keys.getD old none →
      map.valAt pos = map.valAt old

lemma occupancy_grows {slots : Nat} (minimum : 7 ≤ slots) :
    occupancy slots + 1 < occupancy (slots * 4 / 3 + 1) := by
  rw [occupancy, occupancy]
  omega

lemma Holds.stays (holds : Holds hash valSize map stored) (grows : GrowsWell hash map)
    (sized : valSize ≠ 0) (room : keyCount map.keys ≤ map.grownSlots)
    (isKey : (rebuilt hash map.grownSlots map.keys).getD pos none = some key) :
    map.valAt pos = stored key := by
  have inside := (getD_lt isKey).trans_eq (holds.probed.length_rebuilt room)
  have member := (holds.probed.mem_rebuilt room key).mp (mem_iff_getD.mpr ⟨pos, isKey⟩)
  obtain ⟨old, isOld⟩ := mem_iff_getD.mp member
  rw [← holds.value sized old key isOld]
  apply grows.valuesStay pos inside old (getD_lt isOld)
  · rw [isKey]
    exact some_ne_none key
  · rw [isKey, isOld]

lemma Holds.covered (holds : Holds hash valSize map stored) (grows : GrowsWell hash map)
    (room : keyCount map.keys ≤ map.grownSlots) :
    Covered (rebuilt hash map.grownSlots map.keys) map.vals := by
  intro old isVals pos inUse
  have sized : valSize ≠ 0 := by
    intro noSize
    rw [holds.unvalued noSize] at isVals
    exact absurd isVals.symm (some_ne_none _)
  obtain ⟨key, isKey⟩ := ne_none_iff_exists'.mp inUse
  have member := (holds.probed.mem_rebuilt room key).mp (mem_iff_getD.mpr ⟨pos, isKey⟩)
  have isStored := (holds.member key).mp member
  rw [← holds.stays grows sized room isKey, valAt, isVals, bind_some,
    isSome_iff_exists] at isStored
  obtain ⟨val, isVal⟩ := isStored
  exact (List.getElem?_eq_some_iff.mp isVal).1

/-- The arrays of a growth before the rehash. -/
theorem Holds.copied_new [Inhabited Val] (holds : Holds hash valSize map stored) {size : Nat}
    (positive : 0 < size) : Copied (List.replicate size (none : Option Key)) map.vals
      (if size * map.valSize ≠ 0 then some (List.replicate size default) else none) := by
  rw [holds.size]
  by_cases noSize : valSize = 0
  · rw [holds.unvalued noSize, noSize]
    rfl
  · obtain ⟨vals, isVals, -⟩ := holds.valued noSize
    rw [isVals, if_pos (Nat.mul_ne_zero positive.ne' noSize)]
    refine ⟨_, rfl, ?_, ?_⟩
    · rw [length_replicate, length_replicate]
    · intro pos inUse
      exact absurd (getD_replicate_none _ pos) inUse

lemma Holds.rehashed (holds : Holds hash valSize map stored) (grows : GrowsWell hash map)
    (room : keyCount map.keys ≤ map.grownSlots)
    (larger : keyCount map.keys < occupancy map.grownSlots)
    (copied : Copied (rebuilt hash map.grownSlots map.keys) map.vals newVals) :
    Represents hash valSize
      { map with keys := rebuilt hash map.grownSlots map.keys, vals := newVals
                 fill := keyCount map.keys, maxFill := occupancy map.grownSlots } stored := by
  have size := holds.probed.length_rebuilt room
  constructor
  · constructor
    · exact (holds.probed.rebuilt_spec room).probed
    · have minimum := holds.minimum
      rw [slots, size, grownSlots]
      omega
    · rw [slots, size]
    · exact (holds.probed.keyCount_rebuilt room).symm
    · intro key
      exact (holds.probed.mem_rebuilt room key).trans (holds.member key)
    · exact holds.size
    · intro noSize
      rw [holds.unvalued noSize] at copied
      exact copied
    · intro sized
      obtain ⟨vals, isVals, -⟩ := holds.valued sized
      rw [isVals] at copied
      obtain ⟨new, isNew, length, -⟩ := copied
      exact ⟨new, isNew, length⟩
    · intro sized pos key isKey
      obtain ⟨vals, isVals, -⟩ := holds.valued sized
      have here := holds.stays grows sized room isKey
      rw [isVals] at copied
      obtain ⟨new, isNew, -, same⟩ := copied
      rw [← here, valAt, valAt, isNew, isVals]
      apply same pos
      rw [show _ = some key from isKey]
      exact some_ne_none key
  · exact larger.le

lemma Holds.growProbeMap_spec [Inhabited Val] (holds : Holds hash valSize map stored)
    (full : map.fill = map.maxFill + 1) (grows : GrowsWell hash map) :
    ∃ grown, map.growProbeMap hash = some grown ∧ Represents hash valSize grown stored := by
  have larger : map.fill < occupancy map.grownSlots := by
    rw [full, holds.limit]
    exact occupancy_grows holds.minimum
  have positive : 0 < map.grownSlots := Nat.succ_pos _
  have room : keyCount map.keys ≤ map.grownSlots := by
    rw [← holds.counted]
    exact (larger.trans (occupancy_lt positive)).le
  have grown : map.slots * 4 % 2 ^ 32 / 3 + 1 = map.grownSlots := by
    rw [Nat.mod_eq_of_lt grows.slotsFit, grownSlots]
  obtain ⟨newVals, rehashed, copied⟩ :=
    rehashLoop_spec (probed_replicate hash map.grownSlots) holds.probed.nodup
      (fun key _ => not_mem_replicate) (replicate_room room) (holds.copied_new positive)
      (holds.covered grows room)
  have moved : rehashLoop hash map.vals map.keys (List.replicate map.grownSlots none)
      (if map.grownSlots * map.valSize ≠ 0 then some (List.replicate map.grownSlots default)
        else none) = some (rebuilt hash map.grownSlots map.keys, newVals) := rehashed
  refine ⟨_, ?_, holds.rehashed grows room (holds.counted ▸ larger) copied⟩
  rw [growProbeMap, grown, newSlots, if_pos ⟨grows.keysFit, grows.valsFit⟩, bind_some,
    rehashOldMap]
  dsimp only
  rw [moved, map_some, bind_some, slots]
  dsimp only
  rw [holds.probed.length_rebuilt room, ← holds.counted, if_pos larger]

end Growing

section Calls

variable [Inhabited Val] [DecidableEq Key]

/-- A put that lets the map grow, or a cut of keys that are not cleared, keeps the map right where
it grows well, or has no keys. -/
def Right (hash : Key → Nat) (map : ProbeMap Key Val) : MapCall Key Val → Prop
  | .mapAtPut key val => some key ∉ map.keys → map.fill = map.maxFill →
      ∀ pos ∈ freeSlot hash map.keys key, GrowsWell hash (map.storeKV key val pos)
  | .mapAt _ => True
  | .mapCutAll => map.zeroIsClearKey = true → keyCount map.keys = 0

section

variable (represents : Represents hash valSize map stored)
include represents

lemma Represents.putProbeKV_present (isKey : map.keys.getD pos none = some key) (val : Val) :
    ∃ after, map.putProbeKV hash key val pos = some after ∧
      Represents hash valSize after (Function.update stored key (some val)) := by
  have same := set_same isKey
  have holds : Holds hash valSize (map.storeKV key val pos) (Function.update stored key (some val)) := by
    apply represents.toHolds.storeKV (getD_lt isKey)
    · exact same.symm ▸ represents.probed
    · exact same.symm ▸ represents.counted
    · intro other
      rw [same]
      apply Iff.symm
      apply or_iff_left_of_imp
      rintro rfl
      exact mem_iff_getD.mpr ⟨pos, isKey⟩
  have spare : (map.storeKV key val pos).fill ≤ (map.storeKV key val pos).maxFill := represents.spare
  refine ⟨map.storeKV key val pos, ?_, holds, spare⟩
  rw [putProbeKV]
  exact if_neg (Nat.not_lt.mpr spare)

lemma Represents.putProbeKV_absent (inside : pos < map.keys.length)
    (extends_ : Extends hash map.keys [key] (map.keys.set pos (some key))) (val : Val)
    (grows : map.fill = map.maxFill → GrowsWell hash (map.storeKV key val pos)) :
    ∃ after, putProbeKV hash { map with fill := map.fill + 1 } key val pos = some after ∧
      Represents hash valSize after (Function.update stored key (some val)) := by
  have holds : Holds hash valSize (storeKV { map with fill := map.fill + 1 } key val pos)
      (Function.update stored key (some val)) := by
    apply represents.toHolds.storeKV inside extends_.probed
    · rw [extends_.count, represents.counted]
      rfl
    · intro other
      rw [extends_.member, mem_singleton]
  rw [putProbeKV]
  split
  · rename_i exceeds
    have full : map.fill = map.maxFill :=
      Nat.le_antisymm represents.spare (Nat.le_of_lt_succ exceeds)
    have well := grows full
    exact holds.growProbeMap_spec (congrArg (· + 1) full) { well with }
  · rename_i spare
    exact ⟨_, rfl, holds, Nat.not_lt.mp spare⟩

lemma Represents.mapAtPut_spec (right : Right hash map (.mapAtPut key val)) :
    ∃ after, map.mapAtPut hash key val = some (after, answer valSize (stored key)) ∧
      Represents hash valSize after (Function.update stored key (some val)) := by
  obtain ⟨lazy, initialized⟩ := represents.lazyInit_eq
  have kept := represents.setLazy lazy
  rw [mapAtPut, placeKV, initialized]
  dsimp only
  by_cases present : some key ∈ map.keys
  · obtain ⟨pos, isKey⟩ := mem_iff_getD.mp present
    obtain ⟨after, put, holds⟩ := kept.putProbeKV_present isKey val
    rw [kept.findKeyPos_present isKey, map_some, bind_some]
    dsimp only
    rw [if_pos rfl, put, kept.found_present isKey]
    exact ⟨after, rfl, holds⟩
  · obtain ⟨pos, free, isFree, inside, extends_⟩ := kept.findKeyPos_absent present
    obtain ⟨after, put, holds⟩ := kept.putProbeKV_absent inside extends_ val fun full =>
      { right present full pos free with }
    rw [isFree, map_some, bind_some]
    dsimp only
    rw [if_neg Bool.false_ne_true, put]
    exact ⟨after, congrArg some (Prod.ext rfl (kept.found_absent present pos)), holds⟩

end

omit [Inhabited Val] [DecidableEq Key] in
lemma Represents.of_cleared (cleared : map.keys = List.replicate map.slots none)
    (empty : map.fill = 0) (minimum : 7 ≤ map.slots) (limit : map.maxFill = occupancy map.slots)
    (size : map.valSize = valSize) (unvalued : valSize = 0 → map.vals = none)
    (valued : valSize ≠ 0 → ∃ vals, map.vals = some vals ∧ vals.length = map.slots) :
    Represents hash valSize map fun _ => none := by
  have absent : ∀ key, some key ∉ map.keys := fun key => cleared ▸ not_mem_replicate
  constructor
  · constructor
    · exact cleared ▸ probed_replicate hash map.slots
    · exact minimum
    · exact limit
    · rw [empty, cleared, keyCount_replicate]
    · intro key
      exact ⟨fun mem => absurd mem (absent key), nofun⟩
    · exact size
    · exact unvalued
    · exact valued
    · intro sized pos key isKey
      exact absurd (mem_iff_getD.mpr ⟨pos, isKey⟩) (absent key)
  · rw [empty]
    exact Nat.zero_le _

omit [Inhabited Val] [DecidableEq Key] in
lemma Holds.cut (holds : Holds hash valSize map stored) {keys : List (Option Key)}
    (cleared : keys = List.replicate map.slots none) :
    Represents hash valSize { map with keys := keys, fill := 0 } fun _ => none := by
  have size : keys.length = map.slots := cleared ▸ length_replicate
  apply Represents.of_cleared
  · exact cleared.trans (congrArg (List.replicate · none) size.symm)
  · rfl
  · exact holds.minimum.trans_eq size.symm
  · exact holds.limit.trans (congrArg occupancy size.symm)
  · exact holds.size
  · exact holds.unvalued
  · intro sized
    obtain ⟨vals, isVals, length⟩ := holds.valued sized
    exact ⟨vals, isVals, length.trans size.symm⟩

omit [Inhabited Val] [DecidableEq Key] in
lemma Represents.mapCutAll_spec (represents : Represents hash valSize map stored)
    (right : Right hash map .mapCutAll) :
    Represents hash valSize map.mapCutAll fun _ => none := by
  rw [mapCutAll]
  split
  · rename_i zero
    exact represents.toHolds.cut (keys_replicate (right zero))
  · exact represents.toHolds.cut rfl

omit [DecidableEq Key] in
lemma init_represents (hash : Key → Nat) {keySize valSize inSlots : Nat} {zeroIsClearKey : Bool}
    {start : ProbeMap Key Val} (made : init keySize valSize inSlots zeroIsClearKey = some start) :
    Represents hash valSize start fun _ => none := by
  obtain ⟨map, new, rfl⟩ := map_eq_some_iff.mp made
  have minimum : 7 ≤ if inSlots < 7 then 7 else if inSlots > 128 * 1024 then 128 * 1024 else inSlots := by
    split
    · exact Nat.le_refl 7
    · split
      · decide
      · rename_i large _
        exact Nat.not_lt.mp large
  generalize (if inSlots < 7 then 7 else if inSlots > 128 * 1024 then 128 * 1024 else inSlots) = size
    at new minimum
  rw [newSlots] at new
  split at new
  · cases new
    have length : (List.replicate size (none : Option Key)).length = size := length_replicate
    apply Represents.of_cleared
    · exact congrArg (List.replicate · none) length.symm
    · rfl
    · exact minimum.trans_eq length.symm
    · rfl
    · rfl
    · rintro rfl
      rfl
    · intro sized
      refine ⟨List.replicate size default, ?_, length_replicate.trans length.symm⟩
      exact if_pos (Nat.mul_ne_zero (by omega) sized)
  · exact absurd new.symm (some_ne_none _)

/-- A call, without what it finds. -/
def call (hash : Key → Nat) (map : ProbeMap Key Val) :
    MapCall Key Val → Option (ProbeMap Key Val)
  | .mapAtPut key val => (map.mapAtPut hash key val).map Prod.fst
  | .mapAt key => (map.mapAt hash key).map Prod.fst
  | .mapCutAll => some map.mapCutAll

/-- The value of the last put of every key since the last cut. -/
def record (stored : Key → Option Val) : MapCall Key Val → Key → Option Val
  | .mapAtPut key val => Function.update stored key (some val)
  | .mapAt _ => stored
  | .mapCutAll => fun _ => none

lemma Represents.call_spec (represents : Represents hash valSize map stored)
    {step : MapCall Key Val} (right : Right hash map step) :
    ∃ after, call hash map step = some after ∧ Represents hash valSize after (record stored step) := by
  cases step with
  | mapAtPut key val =>
    obtain ⟨after, put, holds⟩ := represents.mapAtPut_spec right
    rw [call, put]
    exact ⟨after, rfl, holds⟩
  | mapAt key =>
    obtain ⟨after, looked, holds⟩ := represents.mapAt_spec key
    rw [call, looked]
    exact ⟨after, rfl, holds⟩
  | mapCutAll => exact ⟨_, rfl, represents.mapCutAll_spec right⟩

/-- A map on which every call is right answers as the finite map of the last puts, and keeps a void
slot. -/
theorem calls_answer {hash : Key → Nat} {keySize valSize inSlots : Nat} {zeroIsClearKey : Bool}
    {start : ProbeMap Key Val} {calls : List (MapCall Key Val)}
    (made : init keySize valSize inSlots zeroIsClearKey = some start)
    (admissible : AdmissibleSome (Right hash) (call hash) start calls) :
    ∃ last, runSome (call hash) start calls = some last ∧
      (∀ key, ∃ after, last.mapAt hash key =
        some (after, answer valSize (calls.foldl record (fun _ => none) key))) ∧
      ∃ pos < last.slots, last.keys.getD pos none = none := by
  have preserved : ∀ (map : ProbeMap Key Val) stored step, Represents hash valSize map stored →
      Right hash map step → ∃ after, call hash map step = some after ∧
        Represents hash valSize after (record stored step) :=
    fun _ _ _ represents right => represents.call_spec right
  obtain ⟨last, ran, represents⟩ := runSome_simulation (Right hash) (call hash) preserved
    (init_represents hash made) admissible
  refine ⟨last, ran, ?_, exists_void represents.room⟩
  intro key
  obtain ⟨after, looked, -⟩ := represents.mapAt_spec key
  exact ⟨after, looked⟩

instance decidableGrowsWell [DecidableEq Val] (hash : Key → Nat) (map : ProbeMap Key Val) :
    Decidable (GrowsWell hash map) :=
  decidable_of_iff (map.slots * 4 < 2 ^ 32 ∧ map.grownSlots * map.keySize < 2 ^ 32 ∧
      map.grownSlots * map.valSize < 2 ^ 32 ∧ ∀ pos < map.grownSlots, ∀ old < map.slots,
        (rebuilt hash map.grownSlots map.keys).getD pos none ≠ none →
        (rebuilt hash map.grownSlots map.keys).getD pos none = map.keys.getD old none →
          map.valAt pos = map.valAt old)
    ⟨fun ⟨slotsFit, keysFit, valsFit, valuesStay⟩ => ⟨slotsFit, keysFit, valsFit, valuesStay⟩,
      fun ⟨slotsFit, keysFit, valsFit, valuesStay⟩ => ⟨slotsFit, keysFit, valsFit, valuesStay⟩⟩

instance decidableRight [DecidableEq Val] (hash : Key → Nat) (map : ProbeMap Key Val) :
    (step : MapCall Key Val) → Decidable (Right hash map step)
  | .mapAtPut key val => inferInstanceAs (Decidable (some key ∉ map.keys → map.fill = map.maxFill →
      ∀ pos ∈ freeSlot hash map.keys key, GrowsWell hash (map.storeKV key val pos)))
  | .mapAt _ => inferInstanceAs (Decidable True)
  | .mapCutAll => inferInstanceAs (Decidable (map.zeroIsClearKey = true → keyCount map.keys = 0))

end Calls

end Holding

/-- A map of seven slots for keys and values of four bytes. -/
def sevenSlots (zeroIsClearKey : Bool) : ProbeMap Nat Nat :=
  { keySize := 4, valSize := 4, keys := List.replicate 7 none, vals := some (List.replicate 7 0)
    fill := 0, maxFill := 5, lazyClearOnAdd := !zeroIsClearKey, zeroIsClearKey := zeroIsClearKey }

/-- Calls of which the sixth put lets the map grow. -/
def growingCalls (key : Nat) : List (MapCall Nat Nat) :=
  [.mapCutAll, .mapAtPut 1 10, .mapAtPut 2 20, .mapAtPut key 30, .mapAtPut 4 40, .mapAtPut 5 50,
    .mapAtPut 6 60]

/-- The keys up to six keep their slots in the grown map. -/
theorem calls_answer_grown :
    ∃ last, runSome (call id) (sevenSlots false) (growingCalls 3) = some last ∧
      (∀ key, ∃ after, last.mapAt id key =
        some (after, answer 4 ((growingCalls 3).foldl record (fun _ => none) key))) ∧
      ∃ pos < last.slots, last.keys.getD pos none = none := by
  have made : init 4 4 7 false = some (sevenSlots false) := by decide
  exact calls_answer made (by decide +kernel)

/-- The key 10 moves from slot 3 to slot 0, where there was no value; and keys that are zero when
they are clear are still found after a cut. -/
theorem calls_answer_moved_and_cut :
    (init 4 4 7 false = some (sevenSlots false) ∧
      (runSome (call id) (sevenSlots false) (growingCalls 10)).bind
          (fun last => (last.mapAt id 10).map Prod.snd) = some ⟨true, some 0⟩ ∧
      (growingCalls 10).foldl record (fun _ => none) 10 = some 30) ∧
    (init 4 4 7 true = some (sevenSlots true) ∧
      (runSome (call id) (sevenSlots true) [.mapAtPut 1 10, .mapCutAll]).bind
          (fun last => (last.mapAt id 1).map Prod.snd) = some ⟨true, some 10⟩ ∧
      List.foldl record (fun _ => none) ([.mapAtPut 1 10, .mapCutAll] : List (MapCall Nat Nat)) 1 =
        none) := by
  decide +kernel

end ProbeMap

end CommCentral.Mork
