import Mathlib.Data.Nat.Find
import Mathlib.Data.Nat.ModEq
import Mathlib.Data.List.GetD
import Mathlib.Data.List.ReduceOption
import CommCentral.Lib.Counting

/-! Open addressing: keys in the slots of a table, each reached from its hash by going round the
table over slots that are in use; and a table rebuilt with another number of slots. -/
namespace CommCentral.Lib
open List

universe u

variable {Key : Type u}

/-- The slot some steps behind a first one. -/
def slotAt (size first offset : Nat) : Nat := (first + offset) % size

/-- The walk from the slot `startPos` to the next slot that passes a test, round the table once. -/
def probe (test : Option Key → Bool) (keys : List (Option Key)) (startPos : Nat) : Nat → Nat →
    Option Nat
  | 0, _ => none
  | fuel + 1, i =>
    if test (keys.getD i none) then some i
    else
      let i := if i + 1 ≥ keys.length then 0 else i + 1
      if i = startPos then none else probe test keys startPos fuel i

/-- The slots before an offset are in use. -/
def Taken (keys : List (Option Key)) (first offset : Nat) : Prop :=
  ∀ earlier < offset, keys.getD (slotAt keys.length first earlier) none ≠ none

/-- Every key is in one slot, which a walk from its hash gets to. -/
structure Probed (hash : Key → Nat) (keys : List (Option Key)) : Prop where
  reached : ∀ pos key, keys.getD pos none = some key →
    ∃ offset < keys.length, pos = slotAt keys.length (hash key) offset ∧ Taken keys (hash key) offset
  once : ∀ pos pos' key, keys.getD pos none = some key → keys.getD pos' none = some key → pos = pos'

variable {keys : List (Option Key)} {test : Option Key → Bool} {hash : Key → Nat}

lemma slotAt_lt {size : Nat} (positive : 0 < size) (first offset : Nat) :
    slotAt size first offset < size :=
  Nat.mod_lt _ positive

lemma slotAt_mod (size first offset : Nat) :
    slotAt size (first % size) offset = slotAt size first offset :=
  Nat.mod_add_mod first size offset

lemma slotAt_succ {size first offset : Nat} (positive : 0 < size) :
    (if slotAt size first offset + 1 ≥ size then 0 else slotAt size first offset + 1) =
      slotAt size first (offset + 1) := by
  have less := slotAt_lt positive first offset
  have next : slotAt size first (offset + 1) = (slotAt size first offset + 1) % size := by
    rw [slotAt, slotAt, ← Nat.add_assoc, Nat.mod_add_mod]
  rw [next]
  split
  · rename_i wraps
    have same : slotAt size first offset + 1 = size := Nat.le_antisymm less wraps
    rw [same, Nat.mod_self]
  · rename_i inside
    exact (Nat.mod_eq_of_lt (Nat.not_le.mp inside)).symm

lemma slotAt_ne {size first offset : Nat} (start : first < size) (some : 0 < offset)
    (less : offset < size) : slotAt size first offset ≠ first := by
  rw [slotAt]
  rcases Nat.lt_or_ge (first + offset) size with inside | wraps
  · rw [Nat.mod_eq_of_lt inside]
    omega
  · rw [Nat.mod_eq_sub_mod wraps, Nat.mod_eq_of_lt (by omega)]
    omega

lemma probe_eq (start : first < keys.length) (less : offset < keys.length)
    (passes : test (keys.getD (slotAt keys.length first offset) none) = true)
    (before : ∀ earlier < offset, test (keys.getD (slotAt keys.length first earlier) none) = false) :
    probe test keys first keys.length first = some (slotAt keys.length first offset) := by
  have positive := Nat.zero_lt_of_lt start
  have walk : ∀ fuel done, done ≤ offset → offset < done + fuel →
      probe test keys first fuel (slotAt keys.length first done) =
        some (slotAt keys.length first offset) := by
    intro fuel
    induction fuel with
    | zero =>
      intro done upTo enough
      omega
    | succ fuel ih =>
      intro done upTo enough
      rw [probe]
      rcases Nat.eq_or_lt_of_le upTo with same | earlier
      · rw [same, if_pos passes]
      · rw [before done earlier, if_neg Bool.false_ne_true]
        dsimp only
        rw [slotAt_succ positive, if_neg (slotAt_ne start (Nat.succ_pos _) (by omega))]
        exact ih (done + 1) earlier (by omega)
  have atStart : slotAt keys.length first 0 = first := Nat.mod_eq_of_lt start
  have walked := walk keys.length 0 (Nat.zero_le _) (by omega)
  rw [atStart] at walked
  exact walked

/-- Every slot is some steps behind the first one. -/
theorem exists_offset {size pos : Nat} (inside : pos < size) (first : Nat) :
    ∃ offset < size, slotAt size first offset = pos := by
  have positive := Nat.zero_lt_of_lt inside
  have start := Nat.mod_lt first positive
  rcases Nat.lt_or_ge pos (first % size) with before | behind
  · refine ⟨pos + size - first % size, by omega, ?_⟩
    rw [← slotAt_mod, slotAt, Nat.add_sub_cancel' (by omega), Nat.add_mod_right,
      Nat.mod_eq_of_lt inside]
  · refine ⟨pos - first % size, by omega, ?_⟩
    rw [← slotAt_mod, slotAt, Nat.add_sub_cancel' behind, Nat.mod_eq_of_lt inside]

lemma exists_free (inside : pos < keys.length) (free : keys.getD pos none = none)
    (first : Nat) : ∃ offset < keys.length,
      keys.getD (slotAt keys.length first offset) none = none ∧ Taken keys first offset := by
  classical
  obtain ⟨some, someLess, same⟩ := exists_offset inside first
  have exists_ : ∃ offset, keys.getD (slotAt keys.length first offset) none = none :=
    ⟨some, same ▸ free⟩
  refine ⟨Nat.find exists_, ?_, Nat.find_spec exists_, fun earlier less => Nat.find_min exists_ less⟩
  exact Nat.lt_of_le_of_lt (Nat.find_min' exists_ (same ▸ free)) someLess

lemma getD_set (inside : pos < keys.length) (value) (other : Nat) :
    (keys.set pos value).getD other none = if pos = other then value else keys.getD other none := by
  rw [getD_eq_getElem?_getD, getElem?_set, getD_eq_getElem?_getD]
  by_cases same : pos = other
  · rw [if_pos same, if_pos same, if_pos inside]
    rfl
  · rw [if_neg same, if_neg same]

/-- A new key is put into the first free slot on its way. -/
theorem Probed.insert (probed : Probed hash keys) (less : offset < keys.length)
    (taken : Taken keys (hash key) offset) (absent : ∀ pos, keys.getD pos none ≠ some key) :
    Probed hash (keys.set (slotAt keys.length (hash key) offset) (some key)) := by
  have inside := slotAt_lt (Nat.zero_lt_of_lt less) (hash key) offset
  have stays : ∀ first count, Taken keys first count →
      Taken (keys.set (slotAt keys.length (hash key) offset) (some key)) first count := by
    intro first count before earlier isEarlier
    rw [length_set, getD_set inside]
    split
    · exact Option.some_ne_none _
    · exact before earlier isEarlier
  constructor
  · intro pos other isKey
    rw [getD_set inside] at isKey
    rw [length_set]
    split at isKey
    · rename_i here
      cases isKey
      exact ⟨offset, less, here.symm, stays _ _ taken⟩
    · obtain ⟨way, wayLess, here, before⟩ := probed.reached pos other isKey
      exact ⟨way, wayLess, here, stays _ _ before⟩
  · intro pos pos' other isKey isKey'
    rw [getD_set inside] at isKey isKey'
    split at isKey
    · rename_i here
      cases isKey
      split at isKey'
      · rename_i here'
        exact here.symm.trans here'
      · exact absurd isKey' (absent pos')
    · split at isKey'
      · cases isKey'
        exact absurd isKey (absent pos)
      · exact probed.once pos pos' other isKey isKey'

lemma getD_replicate_none (size pos : Nat) :
    (List.replicate size (none : Option Key)).getD pos none = none := by
  rw [getD_eq_getElem?_getD, getElem?_replicate]
  split <;> rfl

lemma not_mem_replicate {size : Nat} : some key ∉ List.replicate size none :=
  fun mem => absurd (eq_of_mem_replicate mem) (Option.some_ne_none _)

lemma probed_replicate (hash : Key → Nat) (size : Nat) :
    Probed hash (List.replicate size none) := by
  have nowhere : ∀ pos (key : Key), (List.replicate size none).getD pos none ≠ some key := by
    intro pos key isKey
    rw [getD_replicate_none] at isKey
    exact absurd isKey.symm (Option.some_ne_none _)
  exact ⟨fun pos key isKey => absurd isKey (nowhere pos key),
    fun pos _ key isKey => absurd isKey (nowhere pos key)⟩

/-- The walk for a key that is in the table ends at its slot. -/
theorem Probed.probe_present [DecidableEq Key] (probed : Probed hash keys)
    (isKey : keys.getD pos none = some key) :
    probe (fun stored => stored = none ∨ stored = some key) keys (hash key % keys.length) keys.length
      (hash key % keys.length) = some pos := by
  obtain ⟨offset, less, here, taken⟩ := probed.reached pos key isKey
  have start := Nat.mod_lt (hash key) (Nat.zero_lt_of_lt less)
  rw [here, ← slotAt_mod]
  apply probe_eq start less
  · rw [slotAt_mod, ← here, isKey]
    exact decide_eq_true (.inr rfl)
  · intro earlier isEarlier
    rw [slotAt_mod]
    apply decide_eq_false
    rintro (free | again)
    · exact taken earlier isEarlier free
    · -- the key would stand in two slots
      have same := probed.once _ _ key again isKey
      rw [here] at same
      have injective : earlier = offset := by
        rw [slotAt, slotAt] at same
        have shifted := Nat.ModEq.add_left_cancel' (hash key) same
        exact Nat.ModEq.eq_of_lt_of_lt shifted (Nat.lt_trans isEarlier less) less
      exact Nat.ne_of_lt isEarlier injective

lemma probe_absent [DecidableEq Key] (absent : ∀ pos, keys.getD pos none ≠ some key)
    (less : offset < keys.length) (free : keys.getD (slotAt keys.length first offset) none = none)
    (taken : Taken keys first offset) :
    probe (fun stored => stored = none ∨ stored = some key) keys (first % keys.length) keys.length
      (first % keys.length) = some (slotAt keys.length first offset) := by
  have start := Nat.mod_lt first (Nat.zero_lt_of_lt less)
  rw [← slotAt_mod]
  apply probe_eq start less
  · rw [slotAt_mod, free]
    exact decide_eq_true (.inl rfl)
  · intro earlier isEarlier
    rw [slotAt_mod]
    apply decide_eq_false
    rintro (isFree | isKey)
    · exact taken earlier isEarlier isFree
    · exact absent _ isKey

lemma probe_free (less : offset < keys.length)
    (free : keys.getD (slotAt keys.length first offset) none = none)
    (taken : Taken keys first offset) :
    probe Option.isNone keys (first % keys.length) keys.length (first % keys.length) =
      some (slotAt keys.length first offset) := by
  have start := Nat.mod_lt first (Nat.zero_lt_of_lt less)
  rw [← slotAt_mod]
  apply probe_eq start less
  · rw [slotAt_mod, free]
    rfl
  · intro earlier isEarlier
    rw [slotAt_mod, Option.isNone_eq_false_iff, Option.isSome_iff_ne_none]
    exact taken earlier isEarlier

/-- The number of keys in a table. -/
def keyCount (keys : List (Option Key)) : Nat := keys.countP Option.isSome

/-- The first free slot on the way of a key. -/
def freeSlot (hash : Key → Nat) (keys : List (Option Key)) (key : Key) : Option Nat :=
  probe Option.isNone keys (hash key % keys.length) keys.length (hash key % keys.length)

/-- The table after a key is put into its free slot, if there is one. -/
def putFree (hash : Key → Nat) (keys : List (Option Key)) (key : Key) : List (Option Key) :=
  ((freeSlot hash keys key).map fun pos => keys.set pos (some key)).getD keys

/-- A table with the keys of another one, put into it in the order of their slots. -/
def rebuilt (hash : Key → Nat) (size : Nat) (keys : List (Option Key)) : List (Option Key) :=
  keys.reduceOption.foldl (putFree hash) (List.replicate size none)

/-- What a table is after keys have been put into it. -/
structure Extends (hash : Key → Nat) (keys : List (Option Key)) (added : List Key)
    (final : List (Option Key)) : Prop where
  probed : Probed hash final
  size : final.length = keys.length
  stays : ∀ pos key, keys.getD pos none = some key → final.getD pos none = some key
  member : ∀ key, some key ∈ final ↔ some key ∈ keys ∨ key ∈ added
  count : keyCount final = keyCount keys + added.length

lemma mem_iff_getD : some key ∈ keys ↔ ∃ pos, keys.getD pos none = some key := by
  rw [mem_iff_getElem?]
  apply exists_congr
  intro pos
  rw [getD_eq_getElem?_getD]
  cases keys[pos]? with
  | none => exact ⟨nofun, nofun⟩
  | some stored => exact Option.some_inj

lemma getD_lt (isKey : keys.getD pos none = some key) : pos < keys.length := by
  rcases Nat.lt_or_ge pos keys.length with inside | outside
  · exact inside
  · rw [getD_eq_default _ _ outside] at isKey
    exact absurd isKey.symm (Option.some_ne_none _)

lemma set_same (isKey : keys.getD pos none = some key) : keys.set pos (some key) = keys := by
  have inside := getD_lt isKey
  rw [getD_eq_getElem _ _ inside] at isKey
  rw [← isKey]
  exact set_getElem_self inside

lemma keyCount_replicate (size : Nat) :
    keyCount (List.replicate size (none : Option Key)) = 0 := by
  rw [keyCount, countP_eq_zero]
  intro stored mem
  rw [eq_of_mem_replicate mem]
  exact Bool.false_ne_true

/-- A table without keys. -/
theorem keys_replicate (noKey : keyCount keys = 0) : keys = List.replicate keys.length none := by
  rw [eq_replicate_iff]
  refine ⟨rfl, ?_⟩
  intro stored mem
  rw [keyCount, countP_eq_zero] at noKey
  exact Option.not_isSome_iff_eq_none.mp (noKey stored mem)

lemma keyCount_set (inside : pos < keys.length) (free : keys.getD pos none = none)
    (key : Key) : keyCount (keys.set pos (some key)) = keyCount keys + 1 := by
  have counted := countP_set_add inside (some key) Option.isSome
  rw [getD_eq_getElem _ _ inside] at free
  rw [free] at counted
  exact counted

lemma length_reduceOption (keys : List (Option Key)) :
    keys.reduceOption.length = keyCount keys := by
  rw [reduceOption_length_eq, keyCount, countP_eq_length_filter]

lemma Probed.nodup (probed : Probed hash keys) : keys.reduceOption.Nodup := by
  rw [List.reduceOption, nodup_iff_pairwise_ne, pairwise_filterMap,
    pairwise_iff_getElem]
  intro pos pos' inside inside' before key isKey key' isKey' same
  have here : keys.getD pos none = some key := (getD_eq_getElem _ _ inside).trans isKey
  have here' : keys.getD pos' none = some key :=
    (getD_eq_getElem _ _ inside').trans (isKey'.trans (congrArg some same.symm))
  exact Nat.ne_of_lt before (probed.once pos pos' key here here')

lemma replicate_room {size : Nat} (room : keyCount keys ≤ size) :
    keyCount (List.replicate size (none : Option Key)) + keys.reduceOption.length ≤
      (List.replicate size (none : Option Key)).length := by
  rw [keyCount_replicate, length_reduceOption, length_replicate, Nat.zero_add]
  exact room

/-- A table that is not full has a free slot. -/
theorem exists_void (room : keyCount keys < keys.length) :
    ∃ pos < keys.length, keys.getD pos none = none := by
  rw [keyCount, countP_lt_length_iff] at room
  obtain ⟨stored, mem, notKey⟩ := room
  obtain ⟨pos, inside, here⟩ := getElem_of_mem mem
  refine ⟨pos, inside, ?_⟩
  rw [getD_eq_getElem _ _ inside, here]
  exact Option.not_isSome_iff_eq_none.mp (Bool.not_eq_true _ ▸ notKey)

lemma Probed.extends_set (probed : Probed hash keys) (less : offset < keys.length)
    (free : keys.getD (slotAt keys.length (hash key) offset) none = none)
    (taken : Taken keys (hash key) offset) (absent : some key ∉ keys) :
    Extends hash keys [key] (keys.set (slotAt keys.length (hash key) offset) (some key)) := by
  have inside := slotAt_lt (Nat.zero_lt_of_lt less) (hash key) offset
  have nowhere : ∀ pos, keys.getD pos none ≠ some key := fun pos isKey =>
    absent (mem_iff_getD.mpr ⟨pos, isKey⟩)
  have stays : ∀ pos other, keys.getD pos none = some other →
      (keys.set (slotAt keys.length (hash key) offset) (some key)).getD pos none = some other := by
    intro pos other isKey
    rw [getD_set inside, if_neg]
    · exact isKey
    · rintro rfl
      exact absurd (free.symm.trans isKey) (Option.some_ne_none _).symm
  constructor
  · exact probed.insert less taken nowhere
  · exact length_set
  · exact stays
  · intro other
    constructor
    · intro mem
      rcases mem_or_eq_of_mem_set mem with before | same
      · exact .inl before
      · cases same
        exact .inr mem_cons_self
    · rintro (before | isKey)
      · obtain ⟨pos, isOther⟩ := mem_iff_getD.mp before
        exact mem_iff_getD.mpr ⟨pos, stays pos other isOther⟩
      · cases mem_singleton.mp isKey
        exact mem_set inside (some key)
  · exact keyCount_set inside free key

lemma Probed.putFree_spec (probed : Probed hash keys) (absent : some key ∉ keys)
    (room : keyCount keys < keys.length) :
    ∃ pos, freeSlot hash keys key = some pos ∧ pos < keys.length ∧ keys.getD pos none = none ∧
      putFree hash keys key = keys.set pos (some key) ∧
      Extends hash keys [key] (keys.set pos (some key)) := by
  obtain ⟨pos, inside, isFree⟩ := exists_void room
  obtain ⟨offset, less, free, taken⟩ := exists_free inside isFree (hash key)
  have walked : freeSlot hash keys key = some (slotAt keys.length (hash key) offset) :=
    probe_free less free taken
  refine ⟨_, walked, slotAt_lt (Nat.zero_lt_of_lt less) _ _, free, ?_,
    probed.extends_set less free taken absent⟩
  rw [putFree, walked]
  rfl

lemma probe_freeSlot [DecidableEq Key] (absent : some key ∉ keys)
    (room : keyCount keys < keys.length) :
    probe (fun stored => stored = none ∨ stored = some key) keys (hash key % keys.length) keys.length
      (hash key % keys.length) = freeSlot hash keys key := by
  obtain ⟨pos, inside, isFree⟩ := exists_void room
  obtain ⟨offset, less, free, taken⟩ := exists_free inside isFree (hash key)
  have nowhere : ∀ pos, keys.getD pos none ≠ some key := fun pos isKey =>
    absent (mem_iff_getD.mpr ⟨pos, isKey⟩)
  rw [freeSlot, probe_absent nowhere less free taken, probe_free less free taken]

lemma Extends.trans (first : Extends hash keys added middle)
    (second : Extends hash middle later final) : Extends hash keys (added ++ later) final := by
  constructor
  · exact second.probed
  · exact second.size.trans first.size
  · exact fun pos key isKey => second.stays pos key (first.stays pos key isKey)
  · intro key
    rw [second.member, first.member, mem_append, or_assoc]
  · rw [second.count, first.count, length_append, Nat.add_assoc]

section

variable (probed : Probed hash keys)
include probed

lemma Probed.foldl_putFree (distinct : added.Nodup) (absent : ∀ key ∈ added, some key ∉ keys)
    (room : keyCount keys + added.length ≤ keys.length) :
    Extends hash keys added (added.foldl (putFree hash) keys) := by
  induction added generalizing keys with
  | nil =>
    refine ⟨probed, rfl, fun _ _ => id, ?_, rfl⟩
    intro key
    exact (or_iff_left not_mem_nil).symm
  | cons key added ih =>
    obtain ⟨notAgain, restDistinct⟩ := nodup_cons.mp distinct
    obtain ⟨keyAbsent, restAbsent⟩ := forall_mem_cons.mp absent
    rw [length_cons] at room
    obtain ⟨pos, -, -, -, isPut, extends_⟩ := probed.putFree_spec keyAbsent (by omega)
    rw [foldl_cons, isPut]
    refine extends_.trans (ih extends_.probed restDistinct ?_ ?_)
    · intro other mem inTable
      rcases (extends_.member other).mp inTable with before | same
      · exact restAbsent other mem before
      · rw [mem_singleton.mp same] at mem
        exact notAgain mem
    · rw [extends_.count, extends_.size]
      exact (Nat.add_right_comm ..).trans_le room

section

variable {size : Nat} (room : keyCount keys ≤ size)
include room

/-- The keys of a table with a larger number of slots, or a smaller one that has room for them. -/
theorem Probed.rebuilt_spec :
    Extends hash (List.replicate size none) keys.reduceOption (rebuilt hash size keys) := by
  refine (probed_replicate hash size).foldl_putFree probed.nodup (fun key _ => not_mem_replicate) ?_
  exact replicate_room room

lemma Probed.length_rebuilt : (rebuilt hash size keys).length = size :=
  (probed.rebuilt_spec room).size.trans length_replicate

lemma Probed.mem_rebuilt (key : Key) : some key ∈ rebuilt hash size keys ↔ some key ∈ keys := by
  rw [(probed.rebuilt_spec room).member, reduceOption_mem_iff]
  exact or_iff_right not_mem_replicate

lemma Probed.keyCount_rebuilt : keyCount (rebuilt hash size keys) = keyCount keys := by
  rw [(probed.rebuilt_spec room).count, keyCount_replicate, length_reduceOption, Nat.zero_add]

end

end

end CommCentral.Lib
