import CommCentral.View.RowArrays

/-! A thread of a view over several folders: three parallel arrays of its messages. -/
namespace CommCentral.XFView

open View (hasFlag flagRead flagWatched)

abbrev MessageId := List UInt8

/-- What a cross-folder thread reads of a message header. -/
structure MsgHdr where
  messageKey : Nat
  folder : Nat
  dateInSeconds : Nat
  flags : UInt32
  messageId : MessageId
  references : List MessageId
  deriving DecidableEq

/-- `GetNumReferences`, which counts in 16 bits. -/
def MsgHdr.numReferences (hdr : MsgHdr) : Nat := hdr.references.length % 65536

def MsgHdr.stringReference (hdr : MsgHdr) (index : Nat) : MessageId := hdr.references.getD index []

/-- What the thread asks the view and the databases of its folders. -/
structure XFViewEnv where
  msgHdrFromHash : MessageId → Option MsgHdr
  msgHdrForKey : (folder key : Nat) → Option MsgHdr

/-- `nsMsgXFViewThread` -/
structure XFViewThread where
  numUnreadChildren : UInt32 := 0
  numChildren : UInt32 := 0
  flags : UInt32 := 0
  newestMsgDate : Nat := 0
  keys : List Nat := []
  folders : List Nat := []
  /-- Numbers of 8 bits. -/
  levels : List Nat := []
  deriving DecidableEq

namespace XFViewThread

/-- `m_levels[index]` -/
def levelAt (thread : XFViewThread) (index : Nat) : Nat := thread.levels.getD index 0

def childHdrAt (env : XFViewEnv) (thread : XFViewThread) (index : Nat) : Option MsgHdr := do
  let key ← thread.keys[index]?
  let folder ← thread.folders[index]?
  env.msgHdrForKey folder key

def hdrIndex (thread : XFViewThread) (hdr : MsgHdr) : Option Nat :=
  (thread.keys.zip thread.folders).findIdx? (· = (hdr.messageKey, hdr.folder))

end XFViewThread

/-- The loop of `IsHdrParentOf` over the first references, from the last of them. -/
def isParentByReference (env : XFViewEnv) (messageId : MessageId) (possibleChild : MsgHdr) :
    (referenceToCheck : Nat) → Bool
  | 0 => false
  | index + 1 =>
    let reference := possibleChild.stringReference index
    if reference = messageId then true
    else if (env.msgHdrFromHash reference).isSome then false
    else isParentByReference env messageId possibleChild index

def isHdrParentOf (env : XFViewEnv) (possibleParent possibleChild : MsgHdr) : Bool :=
  isParentByReference env possibleParent.messageId possibleChild possibleChild.numReferences

/-- The parent of a new header, from the newest of the first references on, and its row. -/
def findParent (env : XFViewEnv) (thread : XFViewThread) (newHdr : MsgHdr) :
    (count : Nat) → Option (MsgHdr × Nat)
  | 0 => none
  | index + 1 =>
    let reference := newHdr.stringReference index
    if reference = [] then none
    else
      match env.msgHdrFromHash reference with
      | some parent => (thread.hdrIndex parent).map fun parentIndex => (parent, parentIndex)
      | none => findParent env thread newHdr index

/-- Where a new header goes, with the levels of its new children raised. -/
structure Placement where
  insertIndex : Nat
  insertLevel : Nat
  levels : List Nat
  deriving DecidableEq

/-- The loop that raises the children of a row. -/
def raiseWhile (childLevel : Nat) : List Nat → List Nat
  | [] => []
  | level :: rest =>
    if childLevel < level then (level + 1) % 256 :: raiseWhile childLevel rest else level :: rest

/-- A row and its children are raised. -/
def raiseSubtree : List Nat → List Nat
  | [] => []
  | childLevel :: rest => (childLevel + 1) % 256 :: raiseWhile childLevel rest

/-- The last row below `index` in the subtree of a row of the level. -/
def lastOfSubtree (levels : List Nat) (index level : Nat) : Nat :=
  index + ((levels.drop (index + 1)).takeWhile (level < ·)).length

section

variable (env : XFViewEnv) (thread : XFViewThread) (newHdr : MsgHdr)

/-- The loop over the rows from the parent on. -/
def scanChildren (reparentChildren : Bool) (parentIndex parentLevel : Nat) :
    (steps i insertIndex insertLevel : Nat) → Placement
  | 0, _, insertIndex, insertLevel => ⟨insertIndex, insertLevel, thread.levels⟩
  | steps + 1, i, insertIndex, insertLevel =>
    if i < thread.keys.length ∧ (i = parentIndex ∨ parentLevel ≤ thread.levelAt i) then
      match thread.childHdrAt env i with
      | none => scanChildren reparentChildren parentIndex parentLevel steps (i + 1) insertIndex
          insertLevel
      | some child =>
        if reparentChildren ∧ isHdrParentOf env newHdr child then
          ⟨i, insertLevel, thread.levels.take i ++ raiseSubtree (thread.levels.drop i)⟩
        else if thread.levelAt i = parentLevel + 1 ∧ newHdr.dateInSeconds < child.dateInSeconds then
          let insertLevel := thread.levelAt i
          let insertIndex := lastOfSubtree thread.levels i insertLevel
          if reparentChildren then
            scanChildren reparentChildren parentIndex parentLevel steps (i + 1) insertIndex
              insertLevel
          else ⟨insertIndex, insertLevel, thread.levels⟩
        else scanChildren reparentChildren parentIndex parentLevel steps (i + 1) insertIndex
          insertLevel
    else ⟨insertIndex, insertLevel, thread.levels⟩

/-- A message of the thread is inserted in all three arrays. -/
def XFViewThread.insertAt (index level : Nat) : XFViewThread :=
  { thread with
    keys := thread.keys.insertIdx index newHdr.messageKey
    levels := thread.levels.insertIdx index (level % 256)
    folders := thread.folders.insertIdx index newHdr.folder }

/-- The levels below a new root: that of the old root is raised, and all others become one
more than it. -/
def levelsBelowRoot : List Nat → List Nat
  | [] => []
  | rootLevel :: rest =>
    let rootLevel := (rootLevel + 1) % 256
    rootLevel :: rest.map fun _ => (rootLevel + 1) % 256

/-- What `AddHdr` does first: the date, the flags and the numbers of messages. -/
def XFViewThread.countHdr : XFViewThread :=
  { thread with
    newestMsgDate :=
      if thread.newestMsgDate < newHdr.dateInSeconds then newHdr.dateInSeconds
      else thread.newestMsgDate
    flags := if hasFlag newHdr.flags flagWatched then thread.flags ||| flagWatched else thread.flags
    numChildren := thread.numChildren + 1
    numUnreadChildren :=
      if hasFlag newHdr.flags flagRead then thread.numUnreadChildren
      else thread.numUnreadChildren + 1 }

def addBelow (reparentChildren : Bool) (parentIndex : Nat) : XFViewThread × Nat :=
  let parentLevel := thread.levelAt parentIndex
  let placement := scanChildren env thread newHdr reparentChildren parentIndex parentLevel
    (thread.keys.length - parentIndex) parentIndex thread.keys.length (parentLevel + 1)
  ({ thread with levels := placement.levels }.insertAt newHdr placement.insertIndex
    placement.insertLevel, placement.insertIndex)

/-- `AddHdr` without a parent in the thread: as the new root, or as the last child of the
root. -/
def addAtRoot : XFViewThread × Nat × Option MsgHdr :=
  let rootHdr := thread.childHdrAt env 0
  if rootHdr.any (isHdrParentOf env newHdr) then
    ({ thread with levels := levelsBelowRoot thread.levels }.insertAt newHdr 0 0, 0, none)
  else (thread.insertAt newHdr thread.keys.length 1, thread.keys.length, rootHdr)

/-- `AddHdr`, with `whereInserted` and `outParent`. -/
def addHdr (reparentChildren : Bool) : XFViewThread × Nat × Option MsgHdr :=
  let thread := thread.countHdr newHdr
  if thread.numChildren = 1 then (thread.insertAt newHdr 0 0, 0, none)
  else
    match findParent env thread newHdr newHdr.numReferences with
    | some (parent, parentIndex) =>
      let (thread, whereInserted) := addBelow env thread newHdr reparentChildren parentIndex
      (thread, whereInserted, some parent)
    | none => addAtRoot env thread newHdr

end

/-- The loop that lowers the levels after a removed row. -/
def lowerWhile (levelRemoved : Nat) : List Nat → List Nat
  | [] => []
  | level :: rest =>
    if levelRemoved < level then (level - 1) :: lowerWhile levelRemoved rest else level :: rest

/-- `RemoveChildHdr`, and whether the message was in the thread. -/
def removeChildHdr (thread : XFViewThread) (child : MsgHdr) : XFViewThread × Bool :=
  let thread := { thread with
    newestMsgDate :=
      if child.dateInSeconds = thread.newestMsgDate then 0 else thread.newestMsgDate }
  match thread.hdrIndex child with
  | none => (thread, false)
  | some childIndex =>
    -- `levelRemoved` is taken from the keys.
    let levelRemoved := child.messageKey % 256
    ({ thread with
        keys := thread.keys.eraseIdx childIndex
        levels := thread.levels.take childIndex ++
          lowerWhile levelRemoved (thread.levels.drop (childIndex + 1))
        folders := thread.folders.eraseIdx childIndex
        numUnreadChildren :=
          if hasFlag child.flags flagRead then thread.numUnreadChildren
          else thread.numUnreadChildren - 1
        numChildren := thread.numChildren - 1 }, true)

/-- What is done to a cross-folder thread, with what the databases hold at the time. -/
inductive XFViewCall
  | addHdr (env : XFViewEnv) (newHdr : MsgHdr) (reparentChildren : Bool)
  | removeChildHdr (child : MsgHdr)

def XFViewThread.call (thread : XFViewThread) : XFViewCall → XFViewThread
  | .addHdr env newHdr reparentChildren => (XFView.addHdr env thread newHdr reparentChildren).1
  | .removeChildHdr child => (XFView.removeChildHdr thread child).1

end CommCentral.XFView
