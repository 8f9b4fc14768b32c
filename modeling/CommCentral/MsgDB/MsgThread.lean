import CommCentral.Mork.Table
import Mathlib.Data.List.Nodup

/-! Threads of a message database (`nsMsgThread`): the headers with their thread parents, and the
table of a thread. -/
namespace CommCentral.MsgDB

open Mork List

def msgKeyNone : Nat := 0xFFFFFFFF

/-- The members of `nsMsgHdr` that threading reads. -/
structure MsgHdr where
  messageKey : Nat
  threadParent : Nat
  isRead : Bool
  messageId : String
  references : List String
deriving DecidableEq

/-- The rows of the header scope. No row of a store has the id `morkRow_kMinusOneRid`. -/
structure MsgDatabase where
  hdrs : List MsgHdr
  keys : (hdrs.map MsgHdr.messageKey).Nodup
  real : ∀ hdr ∈ hdrs, hdr.messageKey ≠ msgKeyNone

namespace MsgDatabase

def getMsgHdrForKey (db : MsgDatabase) (key : Nat) : Option MsgHdr :=
  db.hdrs.find? (·.messageKey = key)

def getMsgHdrForMessageID (db : MsgDatabase) (messageId : String) : Option MsgHdr :=
  db.hdrs.find? (·.messageId = messageId)

/-- `none`: there is no such message. -/
def isRead (db : MsgDatabase) (key : Nat) : Option Bool :=
  (db.getMsgHdrForKey key).map MsgHdr.isRead

def parentSet (key parent : Nat) (hdr : MsgHdr) : MsgHdr :=
  if hdr.messageKey = key then { hdr with threadParent := parent } else hdr

lemma messageKey_parentSet (key parent : Nat) (hdr) :
    (parentSet key parent hdr).messageKey = hdr.messageKey := by
  rw [parentSet]
  split <;> rfl

lemma map_parentSet (hdrs : List MsgHdr) (key parent : Nat) :
    (hdrs.map (parentSet key parent)).map MsgHdr.messageKey = hdrs.map MsgHdr.messageKey := by
  rw [map_map]
  exact map_congr_left fun hdr _ => messageKey_parentSet key parent hdr

def setThreadParent (db : MsgDatabase) (key parent : Nat) : MsgDatabase where
  hdrs := db.hdrs.map (parentSet key parent)
  keys := (map_parentSet db.hdrs key parent).symm ▸ db.keys
  real := by
    intro hdr member
    obtain ⟨old, oldMember, rfl⟩ := mem_map.mp member
    rw [messageKey_parentSet]
    exact db.real old oldMember

lemma getMsgHdrForKey_some {db : MsgDatabase} (found : db.getMsgHdrForKey key = some hdr) :
    hdr ∈ db.hdrs ∧ hdr.messageKey = key := by
  have same := find?_some found
  exact ⟨mem_of_find?_eq_some found, of_decide_eq_true same⟩

lemma getMsgHdrForKey_none (db : MsgDatabase) : db.getMsgHdrForKey msgKeyNone = none := by
  cases found : db.getMsgHdrForKey msgKeyNone with
  | none => rfl
  | some hdr =>
    obtain ⟨mem, key⟩ := getMsgHdrForKey_some found
    exact absurd key (db.real hdr mem)

/-- The loop of `IsParentOf` over the references, from the last to the first. -/
def isParentOfLoop (db : MsgDatabase) (messageId : String) : List String → Bool
  | [] => false
  | reference :: earlier =>
    if reference = messageId then true
    -- only the references to messages that do not exist are passed over
    else if (db.getMsgHdrForMessageID reference).isSome then false
    else db.isParentOfLoop messageId earlier

def isParentOf (db : MsgDatabase) (hdr possibleChild : MsgHdr) : Bool :=
  db.isParentOfLoop hdr.messageId possibleChild.references.reverse

end MsgDatabase

/-- The members of `nsMsgThread` that the operations below use. -/
structure MsgThread where
  db : MsgDatabase
  table : MorkTable Nat
  threadRootKey : Nat
  numChildren : Nat

namespace MsgThread

def getChildHdrAt (thread : MsgThread) (index : Nat) : Option MsgHdr :=
  if thread.numChildren ≤ index then none
  else thread.table.rowArray[index]?.bind thread.db.getMsgHdrForKey

def setThreadRootKey (thread : MsgThread) (threadRootKey : Nat) : MsgThread :=
  { thread with threadRootKey := threadRootKey }

def setThreadParent (thread : MsgThread) (key parent : Nat) : MsgThread :=
  { thread with db := thread.db.setThreadParent key parent }

def moveRow (thread : MsgThread) (row : Nat) (hintFromPos toPos : Int) : MsgThread :=
  { thread with table := (thread.table.moveRow row hintFromPos toPos).1 }

def reparentChild (oldTopLevelHdr : MsgHdr) (newParentKey : Nat) (thread : MsgThread)
    (childIndex : Nat) : MsgThread :=
  match thread.getChildHdrAt childIndex with
  | none => thread
  | some curHdr =>
    if curHdr.threadParent = oldTopLevelHdr.messageKey ∧ curHdr.messageKey ≠ newParentKey ∧
        ¬ thread.db.isParentOf oldTopLevelHdr curHdr then
      thread.setThreadParent curHdr.messageKey newParentKey
    else thread

def reparentNonReferenceChildrenOf (thread : MsgThread) (oldTopLevelHdr : MsgHdr)
    (newParentKey : Nat) : MsgThread :=
  (List.range thread.numChildren).foldl (reparentChild oldTopLevelHdr newParentKey) thread

/-- The `do` loop of `RerootThread`: the ancestor, if it was found, and its key. -/
def rerootLoop (thread : MsgThread) : Nat → (ancestorHdr : MsgHdr) → (newRoot : Nat) →
    Option (Option MsgHdr × Nat)
  | 0, _, _ => none
  | fuel + 1, ancestorHdr, newRoot =>
    let newHdrAncestor := ancestorHdr.threadParent
    let goesUp := newHdrAncestor ≠ msgKeyNone ∧ newHdrAncestor ≠ thread.threadRootKey ∧
      newHdrAncestor ≠ newRoot
    let ancestor := if goesUp then thread.db.getMsgHdrForKey newHdrAncestor else some ancestorHdr
    let newRoot := if goesUp then newHdrAncestor else newRoot
    match ancestor with
    | none => some (none, newRoot)
    | some ancestorHdr =>
      if newHdrAncestor ≠ msgKeyNone ∧ newHdrAncestor ≠ thread.threadRootKey ∧
          newHdrAncestor ≠ newRoot then
        thread.rerootLoop fuel ancestorHdr newRoot
      else some (some ancestorHdr, newRoot)

/-- The thread afterwards, and whether the ancestor was found. -/
def rerootThread (fuel : Nat) (thread : MsgThread) (newParentOfOldRoot oldRoot : MsgHdr) :
    Option (MsgThread × Bool) :=
  (thread.rerootLoop fuel newParentOfOldRoot newParentOfOldRoot.messageKey).map
    fun (ancestorHdr, newRoot) =>
      let rerooted :=
        (thread.setThreadRootKey newRoot).reparentNonReferenceChildrenOf oldRoot newRoot
      match ancestorHdr with
      | none => (rerooted, false)
      | some ancestorHdr =>
        ((rerooted.moveRow ancestorHdr.messageKey (-1) 0).setThreadParent ancestorHdr.messageKey
          msgKeyNone, true)

/-- The `while` loop that counts the ancestors in a `uint8_t`. -/
def countAncestors (db : MsgDatabase) : Nat → (parentId level : Nat) → Option Nat
  | 0, _, _ => none
  | fuel + 1, parentId, level =>
    if parentId = msgKeyNone then some level
    else
      match db.getMsgHdrForKey parentId with
      | none => countAncestors db fuel parentId level
      | some parent => countAncestors db fuel parent.threadParent ((level + 1) % 256)

/-- The results of `GetFirstUnreadChild`. -/
structure FirstUnread where
  rv : Bool
  hdr : Option MsgHdr
deriving DecidableEq

def firstUnreadLoop (thread : MsgThread) (fuel : Nat) : List Nat → (minLevel : Nat) →
    (found : FirstUnread) → Option FirstUnread
  | [], _, found => some found
  | childIndex :: later, minLevel, found =>
    match thread.getChildHdrAt childIndex with
    | none => thread.firstUnreadLoop fuel later minLevel { found with rv := false }
    | some child =>
      match thread.db.isRead child.messageKey with
      | none => thread.firstUnreadLoop fuel later minLevel { found with rv := false }
      | some true => thread.firstUnreadLoop fuel later minLevel { found with rv := true }
      | some false =>
        if child.messageKey = thread.threadRootKey then some ⟨true, some child⟩
        else
          -- the loop over the ancestors ends with one that was found, or without any
          (countAncestors thread.db fuel child.threadParent 0).bind fun level =>
            if level < minLevel then
              thread.firstUnreadLoop fuel later level ⟨true, some child⟩
            else thread.firstUnreadLoop fuel later minLevel { found with rv := true }

def getFirstUnreadChild (thread : MsgThread) (fuel : Nat) : Option FirstUnread :=
  thread.firstUnreadLoop fuel (List.range thread.numChildren) 0xff ⟨true, none⟩

end MsgThread

end CommCentral.MsgDB
