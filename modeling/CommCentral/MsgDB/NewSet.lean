import CommCentral.Lib.BinarySearch
import CommCentral.Lib.Run
import Mathlib.Data.List.Nodup
import Mathlib.Data.Nat.Basic

/-! The set of the new messages of a database (`m_newSet`), which takes the place of the `New` flag
of their headers. -/
namespace CommCentral.MsgDB.NewSet

open Lib List

/-- `nsMsgMessageFlags::Read` -/
def readFlag : UInt32 := 0x1

/-- `nsMsgMessageFlags::New` -/
def newFlag : UInt32 := 0x10000

/-- A header with its raw flags (`m_flags`). -/
structure MsgHdr where
  key : Nat
  flags : UInt32
deriving DecidableEq

structure Database where
  hdrs : List MsgHdr
  newSet : List Nat
deriving DecidableEq

def isHeaderRead (hdr : MsgHdr) : Bool := hdr.flags &&& readFlag != 0

def getStatusFlags (db : Database) (msgHdr : MsgHdr) (origFlags : UInt32) : UInt32 :=
  let statusFlags :=
    if db.newSet.getLast? = some msgHdr.key ∨ (binaryIndexOf db.newSet msgHdr.key).isSome then
      origFlags ||| newFlag
    else origFlags
  if isHeaderRead msgHdr then statusFlags ||| readFlag else statusFlags

def getFlags (db : Database) (msgHdr : MsgHdr) : UInt32 := getStatusFlags db msgHdr msgHdr.flags

def orFlags (hdr : MsgHdr) (flags : UInt32) : MsgHdr := { hdr with flags := hdr.flags ||| flags }

def andFlags (hdr : MsgHdr) (flags : UInt32) : MsgHdr := { hdr with flags := hdr.flags &&& flags }

/-- `SetHdrFlag`: the header afterwards. -/
def setHdrFlag (db : Database) (msgHdr : MsgHdr) (bSet : Bool) (flag : UInt32) : MsgHdr :=
  let currentStatusFlags := getStatusFlags db msgHdr (getFlags db msgHdr)
  let flagAlreadySet := currentStatusFlags &&& flag != 0
  if flagAlreadySet && !bSet || !flagAlreadySet && bSet then
    if bSet then orFlags msgHdr flag else andFlags msgHdr (~~~flag)
  else msgHdr

def getMsgHdrForKey (db : Database) (key : Nat) : Option MsgHdr :=
  db.hdrs.find? fun hdr => hdr.key = key

/-- What an operation has made of a header. -/
def putHdr (db : Database) (hdr : MsgHdr) : Database :=
  { db with hdrs := db.hdrs.map fun other => if other.key = hdr.key then hdr else other }

/-- `m_newSet.RemoveElement` -/
def removeNew (db : Database) (key : Nat) : Database := { db with newSet := db.newSet.erase key }

def addToNewList (db : Database) (key : Nat) : Database :=
  match db.newSet.getLast? with
  | none => { db with newSet := db.newSet ++ [key] }
  | some last => if last < key then { db with newSet := db.newSet ++ [key] } else db

/-- `AddNewHdrToDB`, where `ThreadNewHdr` succeeds or not. -/
def addNewHdrToDB (db : Database) (newHdr : MsgHdr) (threaded : Bool) : Database :=
  if newHdr.key ∈ db.hdrs.map MsgHdr.key then db
  else if !threaded then db
  else
    let (newHdr, db) :=
      if newHdr.flags &&& newFlag ≠ 0 then
        (andFlags newHdr (~~~newFlag), addToNewList db newHdr.key)
      else (newHdr, db)
    { db with hdrs := db.hdrs ++ [newHdr] }

def markHdrReadInDB (db : Database) (msgHdr : MsgHdr) (bRead : Bool) : Database :=
  let db := removeNew db msgHdr.key
  let msgHdr := setHdrFlag db msgHdr bRead readFlag
  putHdr db { msgHdr with flags := getFlags db msgHdr &&& ~~~newFlag }

def markHdrRead (db : Database) (msgHdr : MsgHdr) (bRead : Bool) : Database :=
  if bRead ≠ isHeaderRead msgHdr then markHdrReadInDB db msgHdr bRead else db

def markHdrNotNew (db : Database) (msgHdr : MsgHdr) : Database :=
  let db := removeNew db msgHdr.key
  putHdr db (setHdrFlag db msgHdr false newFlag)

/-- `DeleteHeader`. The header that gets the `Expunged` flag is no longer in the database. -/
def deleteHeader (db : Database) (msgHdr : MsgHdr) : Database :=
  let db := removeNew db msgHdr.key
  { db with hdrs := db.hdrs.filter fun hdr => hdr.key ≠ msgHdr.key }

/-- The loop body of `ClearNewList`. -/
def clearNew (db : Database) (lastNewKey : Nat) : Database :=
  match getMsgHdrForKey db lastNewKey with
  | none => db
  | some msgHdr =>
    let flags := getFlags db msgHdr
    if flags ||| newFlag ≠ flags then putHdr db (andFlags msgHdr (~~~newFlag)) else db

def clearNewList (db : Database) (notify : Bool) : Database :=
  if notify && !db.newSet.isEmpty then
    db.newSet.reverse.foldl clearNew { db with newSet := [] }
  else db

inductive Step
  | addNewHdrToDB (newHdr : MsgHdr) (threaded : Bool)
  | markHdrRead (key : Nat) (bRead : Bool)
  | markHdrNotNew (key : Nat)
  | deleteHeader (key : Nat)
  | clearNewList (notify : Bool)
deriving DecidableEq

/-- An operation on a header takes one that is in the database. -/
def next (db : Database) : Step → Option Database
  | .addNewHdrToDB newHdr threaded => some (addNewHdrToDB db newHdr threaded)
  | .markHdrRead key bRead => (getMsgHdrForKey db key).map fun hdr => markHdrRead db hdr bRead
  | .markHdrNotNew key => (getMsgHdrForKey db key).map fun hdr => markHdrNotNew db hdr
  | .deleteHeader key => (getMsgHdrForKey db key).map fun hdr => deleteHeader db hdr
  | .clearNewList notify => some (clearNewList db notify)

/-- A message is stored as new: its header is put into the database with the flag. -/
def Stores (db : Database) (newHdr : MsgHdr) (threaded : Bool) : Prop :=
  newHdr.key ∉ db.hdrs.map MsgHdr.key ∧ threaded = true ∧ newHdr.flags &&& newFlag ≠ 0

instance (db : Database) (newHdr : MsgHdr) (threaded : Bool) :
    Decidable (Stores db newHdr threaded) := inferInstanceAs (Decidable (_ ∧ _))

/-- The keys of the messages that are stored as new and have not been removed since. -/
def storedAfter (db : Database) (stored : List Nat) : Step → List Nat
  | .addNewHdrToDB newHdr threaded =>
    if Stores db newHdr threaded then newHdr.key :: stored else stored
  | .markHdrRead key bRead =>
    match getMsgHdrForKey db key with
    | none => stored
    | some hdr =>
      if bRead ≠ isHeaderRead hdr then stored.filter fun other => other ≠ key else stored
  | .markHdrNotNew key => stored.filter fun other => other ≠ key
  | .deleteHeader key => stored.filter fun other => other ≠ key
  | .clearNewList notify => if notify then [] else stored

/-- The database with the keys that are stored as new. -/
structure Tracked where
  db : Database
  stored : List Nat

def Tracked.next (tracked : Tracked) (step : Step) : Option Tracked :=
  (NewSet.next tracked.db step).map fun db => ⟨db, storedAfter tracked.db tracked.stored step⟩

/-- The messages whose headers have the flag are those that are stored as new. -/
def Reported (tracked : Tracked) : Prop :=
  ∀ key, key ∈ tracked.stored ↔
    ∃ hdr ∈ tracked.db.hdrs, hdr.key = key ∧ getFlags tracked.db hdr &&& newFlag ≠ 0

lemma or_new (flags : UInt32) : (flags ||| newFlag) &&& newFlag = newFlag := by
  apply UInt32.toBitVec_inj.mp
  ext bit inside
  simp only [UInt32.toBitVec_and, UInt32.toBitVec_or, BitVec.getElem_and, BitVec.getElem_or]
  cases newFlag.toBitVec[bit] with
  | false => rw [Bool.and_false]
  | true => rw [Bool.or_true, Bool.and_true]

lemma or_and_new (flags other : UInt32) :
    (flags ||| other) &&& newFlag = (flags &&& newFlag) ||| (other &&& newFlag) := by
  apply UInt32.toBitVec_inj.mp
  ext bit inside
  simp only [UInt32.toBitVec_and, UInt32.toBitVec_or, BitVec.getElem_and, BitVec.getElem_or,
    Bool.and_or_distrib_right]

/-- A header whose raw flags are without the flag. -/
def Bare (hdr : MsgHdr) : Prop := hdr.flags &&& newFlag = 0

instance (hdr : MsgHdr) : Decidable (Bare hdr) := inferInstanceAs (Decidable (_ = _))

lemma Bare.orFlags (bare : Bare hdr) (other : flags &&& newFlag = 0) :
    Bare (orFlags hdr flags) := by
  rw [Bare, NewSet.orFlags, or_and_new, bare, other, UInt32.or_self]

lemma Bare.andFlags (bare : Bare hdr) (flags : UInt32) : Bare (andFlags hdr flags) := by
  rw [Bare, NewSet.andFlags, UInt32.and_assoc, UInt32.and_comm flags, ← UInt32.and_assoc, bare,
    UInt32.zero_and]

lemma bare_strip (hdr) : Bare (andFlags hdr (~~~newFlag)) := by
  rw [Bare, andFlags, UInt32.and_assoc, UInt32.not_and_self, UInt32.and_zero]

/-- Reading a header does not give it the flag. -/
theorem Bare.setHdrFlag (bare : Bare hdr) (db : Database)
    (other : bSet = true → flag &&& newFlag = 0) : Bare (setHdrFlag db hdr bSet flag) := by
  rw [NewSet.setHdrFlag]
  split
  · cases bSet with
    | false => exact bare.andFlags _
    | true => exact bare.orFlags (other rfl)
  · exact bare

def Database.keys (db : Database) : List Nat := db.hdrs.map MsgHdr.key

/-- The headers have different keys, the new-ness of each is in `m_newSet` only, and this has
increasing keys of headers. -/
structure Sound (db : Database) : Prop where
  distinct : db.keys.Nodup
  bare : ∀ hdr ∈ db.hdrs, Bare hdr
  increasing : db.newSet.Pairwise (· < ·)
  listed : ∀ key ∈ db.newSet, key ∈ db.keys

lemma getFlags_new (increasing : db.newSet.Pairwise (· < ·)) (bare : Bare hdr) :
    getFlags db hdr &&& newFlag ≠ 0 ↔ hdr.key ∈ db.newSet := by
  have isMember : (db.newSet.getLast? = some hdr.key ∨
      (binaryIndexOf db.newSet hdr.key).isSome) ↔ hdr.key ∈ db.newSet := by
    rw [binaryIndexOf_isSome_iff increasing]
    exact ⟨fun either => either.elim mem_of_getLast? id, .inr⟩
  have reading : ∀ flags : UInt32,
      (if isHeaderRead hdr then flags ||| readFlag else flags) &&& newFlag = flags &&& newFlag := by
    intro flags
    split
    · rw [or_and_new]
      exact UInt32.or_zero
    · rfl
  rw [getFlags, getStatusFlags, reading]
  by_cases mem : hdr.key ∈ db.newSet
  · rw [if_pos (isMember.mpr mem), or_new]
    exact iff_of_true (by decide) mem
  · rw [if_neg (mt isMember.mp mem), bare]
    exact iff_of_false (fun nonzero => nonzero rfl) mem

lemma addNewHdrToDB_stores (stores : Stores db newHdr threaded) :
    addNewHdrToDB db newHdr threaded =
      { hdrs := db.hdrs ++ [andFlags newHdr (~~~newFlag)]
        newSet := (addToNewList db newHdr.key).newSet } := by
  obtain ⟨absent, isThreaded, isNew⟩ := stores
  have same : (addToNewList db newHdr.key).hdrs = db.hdrs := by
    rw [addToNewList]
    split
    · rfl
    · split
      · rfl
      · rfl
  rw [addNewHdrToDB, if_neg absent, isThreaded, if_pos isNew, ← same]
  rfl

lemma addNewHdrToDB_plain (plain : ¬ Stores db newHdr threaded) :
    addNewHdrToDB db newHdr threaded = db ∨
      newHdr.key ∉ db.keys ∧ Bare newHdr ∧
        addNewHdrToDB db newHdr threaded = { db with hdrs := db.hdrs ++ [newHdr] } := by
  rw [addNewHdrToDB]
  by_cases present : newHdr.key ∈ db.hdrs.map MsgHdr.key
  · exact .inl (if_pos present)
  · rw [if_neg present]
    cases threaded with
    | false => exact .inl rfl
    | true =>
      have bare : newHdr.flags &&& newFlag = 0 := by
        by_contra isNew
        exact plain ⟨present, rfl, isNew⟩
      refine .inr ⟨present, bare, ?_⟩
      rw [bare]
      rfl

section Operations

variable (sound : Sound db)
include sound

lemma Sound.removeNew (key : Nat) : Sound (removeNew db key) where
  distinct := sound.distinct
  bare := sound.bare
  increasing := sound.increasing.sublist erase_sublist
  listed := fun other mem => sound.listed other (mem_of_mem_erase mem)

lemma Sound.mem_removeNew (key other : Nat) :
    other ∈ (NewSet.removeNew db key).newSet ↔ other ∈ db.newSet ∧ other ≠ key := by
  have distinct : db.newSet.Nodup := sound.increasing.imp Nat.ne_of_lt
  exact (distinct.mem_erase_iff).trans and_comm

lemma Sound.putHdr (bare : Bare hdr) : Sound (putHdr db hdr) := by
  have keys : (NewSet.putHdr db hdr).keys = db.keys := by
    rw [Database.keys, NewSet.putHdr, map_map]
    apply map_congr_left
    intro other _
    by_cases same : other.key = hdr.key
    · rw [Function.comp_apply, if_pos same, same]
    · rw [Function.comp_apply, if_neg same]
  refine ⟨keys ▸ sound.distinct, ?_, sound.increasing, keys ▸ sound.listed⟩
  intro after mem
  obtain ⟨other, before, rfl⟩ := mem_map.mp mem
  split
  · exact bare
  · exact sound.bare other before

lemma Sound.deleteHeader (hdr) : Sound (deleteHeader db hdr) := by
  have removed := sound.removeNew hdr.key
  refine ⟨?_, ?_, removed.increasing, ?_⟩
  · exact sound.distinct.sublist (filter_sublist.map MsgHdr.key)
  · exact fun other mem => sound.bare other (mem_of_mem_filter mem)
  · intro key mem
    obtain ⟨isNew, different⟩ := (sound.mem_removeNew hdr.key key).mp mem
    obtain ⟨other, before, rfl⟩ := mem_map.mp (sound.listed key isNew)
    exact mem_map_of_mem (mem_filter.mpr ⟨before, decide_eq_true different⟩)

lemma Sound.markHdrReadInDB (hdr) (bRead : Bool) : Sound (markHdrReadInDB db hdr bRead) :=
  (sound.removeNew hdr.key).putHdr (bare_strip ⟨hdr.key, _⟩)

lemma Sound.markHdrRead (hdr) (bRead : Bool) : Sound (markHdrRead db hdr bRead) := by
  rw [NewSet.markHdrRead]
  split
  · exact sound.markHdrReadInDB hdr bRead
  · exact sound

lemma Sound.markHdrNotNew (bare : Bare hdr) : Sound (markHdrNotNew db hdr) :=
  (sound.removeNew hdr.key).putHdr (bare.setHdrFlag _ nofun)

lemma Sound.getMsgHdrForKey (found : getMsgHdrForKey db key = some hdr) :
    Bare hdr ∧ hdr.key = key := by
  have isKey := find?_some found
  exact ⟨sound.bare hdr (mem_of_find?_eq_some found), of_decide_eq_true isKey⟩

lemma Sound.clearNew (key : Nat) :
    Sound (clearNew db key) ∧ (clearNew db key).newSet = db.newSet := by
  rw [NewSet.clearNew]
  cases found : NewSet.getMsgHdrForKey db key with
  | none => exact ⟨sound, rfl⟩
  | some hdr =>
    have bare := (sound.getMsgHdrForKey found).1
    dsimp only
    split
    · exact ⟨sound.putHdr (bare.andFlags _), rfl⟩
    · exact ⟨sound, rfl⟩

lemma Sound.clearNewList (notify : Bool) :
    Sound (clearNewList db notify) ∧
      (clearNewList db notify).newSet = if notify then [] else db.newSet := by
  have emptied : Sound { db with newSet := [] } := ⟨sound.distinct, sound.bare, .nil, nofun⟩
  have cleared : ∀ keys : List Nat, ∀ before : Database, Sound before → before.newSet = [] →
      Sound (keys.foldl NewSet.clearNew before) ∧
        (keys.foldl NewSet.clearNew before).newSet = [] := by
    intro keys
    induction keys with
    | nil => exact fun before holds none => ⟨holds, none⟩
    | cons key keys ih =>
      intro before holds none
      obtain ⟨after, same⟩ := holds.clearNew key
      exact ih _ after (same.trans none)
  rw [NewSet.clearNewList]
  cases notify with
  | false => exact ⟨sound, rfl⟩
  | true =>
    cases keys : db.newSet with
    | nil => exact ⟨sound, keys⟩
    | cons first others => exact cleared _ _ emptied rfl

lemma Sound.addHdr (absent : hdr.key ∉ db.keys) (bare : Bare hdr) :
    Sound { db with hdrs := db.hdrs ++ [hdr] } where
  distinct := by
    rw [Database.keys, map_append, map_singleton, ← concat_eq_append]
    exact sound.distinct.concat absent
  bare := forall_mem_append.mpr ⟨sound.bare, forall_mem_singleton.mpr bare⟩
  increasing := sound.increasing
  listed := by
    intro key mem
    rw [Database.keys, map_append]
    exact mem_append_left _ (sound.listed key mem)

/-- Only a key that is greater than all others is put into `m_newSet`. -/
theorem Sound.addToNewList (key : Nat) :
    (∀ other ∈ db.newSet, other < key) ∧ (addToNewList db key).newSet = db.newSet ++ [key] ∨
      ¬ (∀ other ∈ db.newSet, other < key) ∧ (addToNewList db key).newSet = db.newSet := by
  rw [NewSet.addToNewList]
  cases last : db.newSet.getLast? with
  | none =>
    rw [getLast?_eq_none_iff] at last
    rw [last]
    exact .inl ⟨nofun, rfl⟩
  | some greatest =>
    dsimp only
    by_cases less : greatest < key
    · rw [if_pos less]
      refine .inl ⟨?_, rfl⟩
      intro other isNew
      obtain ⟨before, same⟩ := getLast?_eq_some_iff.mp last
      have increasing := sound.increasing
      rw [same] at increasing isNew
      have below := (pairwise_append.mp increasing).2.2
      rcases mem_append.mp isNew with earlier | isLast
      · exact (below other earlier greatest (mem_singleton_self _)).trans less
      · exact mem_singleton.mp isLast ▸ less
    · rw [if_neg less]
      exact .inr ⟨fun all => less (all greatest (mem_of_getLast? last)), rfl⟩

lemma Sound.addNewHdrToDB (newHdr) (threaded : Bool) :
    Sound (addNewHdrToDB db newHdr threaded) := by
  by_cases stores : Stores db newHdr threaded
  · rw [addNewHdrToDB_stores stores]
    have added : Sound { db with hdrs := db.hdrs ++ [andFlags newHdr (~~~newFlag)] } :=
      sound.addHdr stores.1 (bare_strip newHdr)
    rcases sound.addToNewList newHdr.key with ⟨greatest, same⟩ | ⟨_, same⟩
    · rw [same]
      refine ⟨added.distinct, added.bare, ?_, ?_⟩
      · refine pairwise_append.mpr ⟨sound.increasing, pairwise_singleton _ _, ?_⟩
        intro other isNew key isKey
        exact mem_singleton.mp isKey ▸ greatest other isNew
      · intro key mem
        rcases mem_append.mp mem with isNew | isKey
        · exact added.listed key isNew
        · rw [mem_singleton.mp isKey, Database.keys, map_append]
          exact mem_append_right _ (mem_singleton_self _)
    · rw [same]
      exact added
  · rcases addNewHdrToDB_plain stores with same | ⟨absent, bare, same⟩
    · rw [same]
      exact sound
    · rw [same]
      exact sound.addHdr absent bare

end Operations

/-- Every step keeps the invariant, also one that loses a key. -/
theorem Sound.next {db after : Database} (sound : Sound db) (taken : next db step = some after) :
    Sound after := by
  cases step with
  | addNewHdrToDB newHdr threaded =>
    cases taken
    exact sound.addNewHdrToDB newHdr threaded
  | clearNewList notify =>
    cases taken
    exact (sound.clearNewList notify).1
  | markHdrRead key bRead =>
    obtain ⟨hdr, _, rfl⟩ := Option.map_eq_some_iff.mp taken
    exact sound.markHdrRead hdr bRead
  | markHdrNotNew key =>
    obtain ⟨hdr, found, rfl⟩ := Option.map_eq_some_iff.mp taken
    exact sound.markHdrNotNew (sound.getMsgHdrForKey found).1
  | deleteHeader key =>
    obtain ⟨hdr, _, rfl⟩ := Option.map_eq_some_iff.mp taken
    exact sound.deleteHeader hdr

/-- The message that a step stores as new has a greater key than those that are new already. -/
def InOrder (tracked : Tracked) : Step → Prop
  | .addNewHdrToDB newHdr threaded =>
    Stores tracked.db newHdr threaded → ∀ other ∈ tracked.stored, other < newHdr.key
  | _ => True

instance (tracked : Tracked) : (step : Step) → Decidable (InOrder tracked step)
  | .addNewHdrToDB _ _ => inferInstanceAs (Decidable (_ → _))
  | .markHdrRead _ _ => inferInstanceAs (Decidable True)
  | .markHdrNotNew _ => inferInstanceAs (Decidable True)
  | .deleteHeader _ => inferInstanceAs (Decidable True)
  | .clearNewList _ => inferInstanceAs (Decidable True)

/-- `m_newSet` has the keys of the messages that are stored as new. -/
def Matching (tracked : Tracked) : Prop := ∀ key, key ∈ tracked.db.newSet ↔ key ∈ tracked.stored

lemma Matching.remove {db after : Database} (matching : Matching ⟨db, stored⟩)
    (removed : ∀ other, other ∈ after.newSet ↔ other ∈ db.newSet ∧ other ≠ key) :
    Matching ⟨after, stored.filter fun other => other ≠ key⟩ := by
  intro other
  rw [removed, mem_filter, decide_eq_true_iff]
  exact and_congr_left fun _ => matching other

lemma Matching.addNewHdrToDB_iff (sound : Sound db) (matching : Matching ⟨db, stored⟩) (newHdr)
    (threaded : Bool) :
    Matching ⟨addNewHdrToDB db newHdr threaded,
        storedAfter db stored (.addNewHdrToDB newHdr threaded)⟩ ↔
      InOrder ⟨db, stored⟩ (.addNewHdrToDB newHdr threaded) := by
  rw [storedAfter, InOrder]
  by_cases stores : Stores db newHdr threaded
  · rw [addNewHdrToDB_stores stores, if_pos stores]
    have sameOrder : (∀ other ∈ db.newSet, other < newHdr.key) ↔
        ∀ other ∈ stored, other < newHdr.key :=
      forall_congr' fun other => imp_congr_left (matching other)
    rcases sound.addToNewList newHdr.key with ⟨greatest, same⟩ | ⟨notGreatest, same⟩
    · refine iff_of_true ?_ fun _ => sameOrder.mp greatest
      intro key
      change key ∈ (addToNewList db newHdr.key).newSet ↔ key ∈ newHdr.key :: stored
      rw [same, mem_append, mem_singleton, mem_cons, or_comm]
      exact or_congr_right (matching key)
    · refine iff_of_false ?_ fun inOrder => notGreatest (sameOrder.mpr (inOrder stores))
      intro kept
      have member := (kept newHdr.key).mpr mem_cons_self
      change newHdr.key ∈ (addToNewList db newHdr.key).newSet at member
      rw [same] at member
      exact stores.1 (sound.listed _ member)
  · rw [if_neg stores]
    refine iff_of_true ?_ fun isStored => absurd isStored stores
    rcases addNewHdrToDB_plain stores with same | ⟨_, _, same⟩
    · rw [same]
      exact matching
    · rw [same]
      exact matching

/-- Only a step out of order loses a key. -/
theorem Matching.next_iff {tracked after : Tracked} (sound : Sound tracked.db)
    (matching : Matching tracked) (taken : tracked.next step = some after) :
    Matching after ↔ InOrder tracked step := by
  obtain ⟨db, stored⟩ := tracked
  obtain ⟨dbAfter, stepped, rfl⟩ := Option.map_eq_some_iff.mp taken
  cases step with
  | addNewHdrToDB newHdr threaded =>
    cases stepped
    exact matching.addNewHdrToDB_iff sound newHdr threaded
  | clearNewList notify =>
    cases stepped
    refine iff_of_true ?_ trivial
    intro key
    change key ∈ (clearNewList db notify).newSet ↔ key ∈ if notify then [] else stored
    rw [(sound.clearNewList notify).2]
    cases notify with
    | false => exact matching key
    | true => exact Iff.rfl
  | markHdrRead key bRead =>
    obtain ⟨hdr, found, rfl⟩ := Option.map_eq_some_iff.mp stepped
    obtain ⟨_, rfl⟩ := sound.getMsgHdrForKey found
    refine iff_of_true ?_ trivial
    simp only [storedAfter, found, markHdrRead]
    split
    · exact matching.remove (sound.mem_removeNew hdr.key)
    · exact matching
  | markHdrNotNew key | deleteHeader key =>
    obtain ⟨hdr, found, rfl⟩ := Option.map_eq_some_iff.mp stepped
    obtain ⟨_, rfl⟩ := sound.getMsgHdrForKey found
    exact iff_of_true (matching.remove (sound.mem_removeNew hdr.key)) trivial

lemma Sound.reported_iff (sound : Sound tracked.db) : Reported tracked ↔ Matching tracked := by
  apply forall_congr'
  intro key
  have flagged : (∃ hdr ∈ tracked.db.hdrs,
      hdr.key = key ∧ getFlags tracked.db hdr &&& newFlag ≠ 0) ↔ key ∈ tracked.db.newSet := by
    constructor
    · rintro ⟨hdr, mem, rfl, isNew⟩
      exact (getFlags_new sound.increasing (sound.bare hdr mem)).mp isNew
    · intro isNew
      obtain ⟨hdr, mem, rfl⟩ := mem_map.mp (sound.listed key isNew)
      have reported := (getFlags_new sound.increasing (sound.bare hdr mem)).mpr isNew
      exact ⟨hdr, mem, rfl, reported⟩
  rw [flagged]
  exact iff_comm

lemma Sound.reached {tracked last : Tracked} (sound : Sound tracked.db)
    (reached : Reached Tracked.next tracked steps last) : Sound last.db := by
  obtain ⟨taken, _, ran⟩ := reached
  have kept : ∀ (state : Tracked) (step : Step) (after : Tracked), Sound state.db →
      state.next step = some after → Sound after.db := by
    intro state step after holds stepped
    obtain ⟨dbAfter, nextIs, rfl⟩ := Option.map_eq_some_iff.mp stepped
    exact holds.next nextIs
  exact runSome_preserved Tracked.next kept sound ran

/-- A database as it is opened: `New` is not written with the flags, and no message is new. -/
structure Opened (db : Database) : Prop where
  distinct : db.keys.Nodup
  bare : ∀ hdr ∈ db.hdrs, Bare hdr
  noneNew : db.newSet = []

lemma Opened.sound (opened : Opened db) : Sound db where
  distinct := opened.distinct
  bare := opened.bare
  increasing := opened.noneNew ▸ .nil
  listed := opened.noneNew ▸ nofun

/-- `m_newSet` always increases, and the messages that are stored as new are reported in every state
exactly if each has a greater key than those that are still new when it is stored. -/
theorem reported_iff_inOrder (db : Database) (opened : Opened db) (steps : List Step) :
    (∀ last, Reached Tracked.next ⟨db, []⟩ steps last → last.db.newSet.Pairwise (· < ·)) ∧
      ((∀ last, Reached Tracked.next ⟨db, []⟩ steps last → Reported last) ↔
        AdmissibleSome InOrder Tracked.next ⟨db, []⟩ steps) := by
  have sound : Sound (Tracked.mk db []).db := opened.sound
  have matching : Matching ⟨db, []⟩ := by
    intro key
    change key ∈ db.newSet ↔ key ∈ []
    rw [opened.noneNew]
  refine ⟨fun last reached => (sound.reached reached).increasing, ?_⟩
  have sameStates : (∀ last, Reached Tracked.next ⟨db, []⟩ steps last → Reported last) ↔
      ∀ last, Reached Tracked.next ⟨db, []⟩ steps last → Sound last.db ∧ Matching last := by
    apply forall_congr'
    intro last
    apply forall_congr'
    intro reached
    have holds := sound.reached reached
    exact holds.reported_iff.trans (and_iff_right holds).symm
  rw [sameStates]
  apply reached_invariant_iff
  · intro tracked step after invariant taken
    obtain ⟨dbAfter, nextIs, rfl⟩ := Option.map_eq_some_iff.mp taken
    exact (and_iff_right (invariant.1.next nextIs)).trans (invariant.2.next_iff invariant.1 taken)
  · intro tracked step fails
    cases step with
    | addNewHdrToDB newHdr threaded => cases fails
    | _ => trivial
  · exact ⟨sound, matching⟩

theorem reported_iff_inOrder_opened :
    AdmissibleSome InOrder Tracked.next ⟨⟨[⟨1, readFlag⟩], []⟩, []⟩
      [.addNewHdrToDB ⟨5, newFlag⟩ true, .addNewHdrToDB ⟨10, newFlag⟩ true] ∧
      ∀ last, Reached Tracked.next ⟨⟨[⟨1, readFlag⟩], []⟩, []⟩
        [.addNewHdrToDB ⟨5, newFlag⟩ true, .addNewHdrToDB ⟨10, newFlag⟩ true] last →
          Reported last := by
  have admissible : AdmissibleSome InOrder Tracked.next ⟨⟨[⟨1, readFlag⟩], []⟩, []⟩
      [.addNewHdrToDB ⟨5, newFlag⟩ true, .addNewHdrToDB ⟨10, newFlag⟩ true] := by decide
  have opened : Opened ⟨[⟨1, readFlag⟩], []⟩ := ⟨by decide, by decide, rfl⟩
  exact ⟨admissible, (reported_iff_inOrder _ opened _).2.mpr admissible⟩

/-- The newest message comes first. -/
theorem newest_first_not_reported :
    ¬ ∀ last, Reached Tracked.next ⟨⟨[], []⟩, []⟩
      [.addNewHdrToDB ⟨10, newFlag⟩ true, .addNewHdrToDB ⟨5, newFlag⟩ true] last →
        Reported last := by
  intro reported
  have lost := (reported _ ⟨_, prefix_rfl, rfl⟩ 5).mp (by decide)
  exact absurd lost (by decide)

end CommCentral.MsgDB.NewSet
