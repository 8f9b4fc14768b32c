import CommCentral.Lib.LinearProbe

/-! Maps by open addressing (`morkProbeMap`). A key that is nil is `none`. Where the code reports an
error, or reads or writes outside an array, there is no result; allocations succeed. -/
namespace CommCentral.Mork

open Lib

universe u v

/-- The members of `morkProbeMap`; the slots are those of the key array. `vals` is null where
values have no size. -/
structure ProbeMap (Key : Type u) (Val : Type v) where
  keySize : Nat
  valSize : Nat
  keys : List (Option Key)
  vals : Option (List Val)
  fill : Nat
  maxFill : Nat
  lazyClearOnAdd : Bool
  zeroIsClearKey : Bool
deriving DecidableEq

namespace ProbeMap

variable {Key : Type u} {Val : Type v} [Inhabited Val]

def slots (map : ProbeMap Key Val) : Nat := map.keys.length

/-- Zeroed keys and values. `clear_alloc` takes a size of 32 bits: with a larger one the arrays are
shorter than their slots. -/
def newSlots (map : ProbeMap Key Val) (inSlots : Nat) : Option (ProbeMap Key Val) :=
  if inSlots * map.keySize < 2 ^ 32 ∧ inSlots * map.valSize < 2 ^ 32 then
    some { map with
      keys := List.replicate inSlots none
      vals := if inSlots * map.valSize ≠ 0 then some (List.replicate inSlots default) else none }
  else none

/-- The occupancy that leaves the reserve of empty slots. -/
def occupancy (slots : Nat) : Nat := slots - (slots / 7 + 1)

def init (keySize valSize inSlots : Nat) (zeroIsClearKey : Bool) : Option (ProbeMap Key Val) :=
  let inSlots := if inSlots < 7 then 7 else if inSlots > 128 * 1024 then 128 * 1024 else inSlots
  (newSlots ⟨keySize, valSize, [], none, 0, 0, false, zeroIsClearKey⟩ inSlots).map fun map =>
    { map with maxFill := occupancy map.slots, lazyClearOnAdd := !zeroIsClearKey }

/-- `ProbeMapClearKey`, or the `memset` with the same effect. -/
def clearKeys (map : ProbeMap Key Val) : ProbeMap Key Val :=
  { map with keys := List.replicate map.slots none }

/-- `probe_map_lazy_init` where it is due. -/
def lazyInit (map : ProbeMap Key Val) : ProbeMap Key Val :=
  if map.lazyClearOnAdd ∧ map.fill = 0 then { map.clearKeys with lazyClearOnAdd := false } else map

/-- The loop of `rehash_old_map` over the old keys, into the new keys and values. -/
def rehashLoop (hash : Key → Nat) (oldVals : Option (List Val)) :
    (oldKeys : List (Option Key)) → (keys : List (Option Key)) → (vals : Option (List Val)) →
    Option (List (Option Key) × Option (List Val))
  | [], keys, vals => some (keys, vals)
  | none :: oldKeys, keys, vals => rehashLoop hash oldVals oldKeys keys vals
  | some key :: oldKeys, keys, vals =>
    let startPos := hash key % keys.length
    (probe Option.isNone keys startPos keys.length startPos).bind fun i =>
      match oldVals with
      | none => rehashLoop hash oldVals oldKeys (keys.set i (some key)) vals
      | some old =>
        -- the offset of the new slot is used for the old value, too
        (old[i]?).bind fun val =>
          rehashLoop hash oldVals oldKeys (keys.set i (some key)) (vals.map (·.set i val))

/-- `rehash_old_map`, which also corrects the fill. -/
def rehashOldMap (hash : Key → Nat) (map old : ProbeMap Key Val) : Option (ProbeMap Key Val) :=
  (rehashLoop hash old.vals old.keys map.keys map.vals).map fun (keys, vals) =>
    { map with keys := keys, vals := vals, fill := keyCount old.keys }

def growProbeMap (hash : Key → Nat) (map : ProbeMap Key Val) : Option (ProbeMap Key Val) :=
  (map.newSlots (map.slots * 4 % 2 ^ 32 / 3 + 1)).bind fun grown =>
    (rehashOldMap hash grown map).bind fun map =>
      if occupancy map.slots > map.fill then some { map with maxFill := occupancy map.slots } else none

/-- `put_probe_kv` as far as the key and the value are stored. -/
def storeKV (map : ProbeMap Key Val) (key : Key) (val : Val) (pos : Nat) : ProbeMap Key Val :=
  { map with keys := map.keys.set pos (some key), vals := map.vals.map (·.set pos val) }

def putProbeKV (hash : Key → Nat) (map : ProbeMap Key Val) (key : Key) (val : Val) (pos : Nat) :
    Option (ProbeMap Key Val) :=
  let map := map.storeKV key val pos
  if map.fill > map.maxFill then map.growProbeMap hash else some map

variable [DecidableEq Key]

/-- `find_key_pos`: the slot of the key, or the void slot where the search ends, and whether it is a
hit. -/
def findKeyPos (hash : Key → Nat) (map : ProbeMap Key Val) (key : Key) : Option (Nat × Bool) :=
  let startPos := hash key % map.slots
  (probe (fun stored => stored = none ∨ stored = some key) map.keys startPos map.slots startPos).map
    fun i => (i, map.keys.getD i none = some key)

/-- What an operation finds: whether it is a hit, and the value where values have a size. -/
structure Found (Val : Type v) where
  hit : Bool
  outAppVal : Option Val
deriving DecidableEq

/-- `get_probe_kv` after a hit. -/
def found (map : ProbeMap Key Val) (slotPos : Nat) (hit : Bool) : Found Val :=
  if hit then ⟨true, map.vals.bind (·[slotPos]?)⟩ else ⟨false, none⟩

/-- `MapAtPut` up to `put_probe_kv`: the map, the slot and whether it is a hit. -/
def placeKV (hash : Key → Nat) (map : ProbeMap Key Val) (key : Key) :
    Option (ProbeMap Key Val × Nat × Bool) :=
  let map := map.lazyInit
  (map.findKeyPos hash key).map fun (slotPos, outPut) =>
    (if outPut then map else { map with fill := map.fill + 1 }, slotPos, outPut)

/-- `MapAtPut`, with the association that it replaces. -/
def mapAtPut (hash : Key → Nat) (map : ProbeMap Key Val) (key : Key) (val : Val) :
    Option (ProbeMap Key Val × Found Val) :=
  (map.placeKV hash key).bind fun (map, slotPos, outPut) =>
    (map.putProbeKV hash key val slotPos).map fun after => (after, map.found slotPos outPut)

def mapAt (hash : Key → Nat) (map : ProbeMap Key Val) (key : Key) :
    Option (ProbeMap Key Val × Found Val) :=
  let map := map.lazyInit
  (map.findKeyPos hash key).map fun (slotPos, hit) => (map, map.found slotPos hit)

def mapCutAll (map : ProbeMap Key Val) : ProbeMap Key Val :=
  let map := if map.zeroIsClearKey then map else map.clearKeys
  { map with fill := 0 }

end ProbeMap

end CommCentral.Mork
