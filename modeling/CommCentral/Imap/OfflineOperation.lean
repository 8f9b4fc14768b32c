import CommCentral.Imap.FlagAndUidState
import Mathlib.Data.Finset.Basic
import Mathlib.Data.Finset.Image
import Mathlib.Data.List.Sort
import Mathlib.Logic.Function.Basic

/-! Offline operations of an IMAP folder (`nsMsgOfflineImapOperation`) and their table in the
folder's database (`nsMailDatabase`). -/
namespace CommCentral.Imap

/-- The `nsOfflineImapOperationType` constants that recording and playback use. -/
inductive OfflineOpType
  | flagsChanged
  | msgMoved
  | msgCopy
  | moveResult
  | appendDraft
  | appendTemplate
  | deleteAllMsgs
  | addKeywords
  | removeKeywords
deriving Repr, DecidableEq

/-- `imapMessageFlagsType`. -/
abbrev MessageFlags := BitVec 16

/-- `kFlagsChanged`, with which the playback tests the flags of an operation. -/
def flagsChangedBit : MessageFlags := 0x1

abbrev Uri := List Char

def folderSepChar : Char := '\x01'

/-- The properties of an operation's row. `operation` is the bit set of `op`. -/
structure OpRow where
  operation : Finset OfflineOpType
  operationFlags : MessageFlags
  newFlags : MessageFlags
  moveDest : Uri
  copyDests : List Char
  addedKeywords : List Char
  removedKeywords : List Char
deriving DecidableEq

/-- A row without properties. -/
def OpRow.empty : OpRow := ⟨∅, 0, 0, [], [], [], []⟩

/-- The members of `nsMsgOfflineImapOperation` and the row it wraps. -/
structure OfflineImapOperation where
  messageKey : Nat
  operation : Finset OfflineOpType
  operationFlags : MessageFlags
  newFlags : MessageFlags
  moveDestination : Uri
  copyDestinations : List Uri
  keywordsToAdd : List Char
  keywordsToRemove : List Char
  mdbRow : OpRow
deriving DecidableEq

/-- `FindChar`: the position of the first such character from `start` on. -/
def findChar (text : List Char) (char : Char) (start : Nat) : Option Nat :=
  ((text.drop start).findIdx? fun each => each == char).map (start + ·)

/-- `Find`: the first position from `start` on at which the pattern stands. -/
def findText (text pattern : List Char) (start : Nat) : Option Nat :=
  (List.range' start (text.length + 1 - start)).find? fun pos => pattern.isPrefixOf (text.drop pos)

/-- The loop of `MsgFindKeyword`, which answers the start of the keyword. -/
def msgFindKeywordFrom (keyword keywords : List Char) : Nat → Nat → Option Nat
  | 0, _ => none
  | fuel + 1, offset =>
    match findText keywords keyword offset with
    | none => none
    | some start =>
      if (start = 0 ∨ keywords[start - 1]? = some ' ') ∧
          (start + keyword.length = keywords.length ∨
            keywords[start + keyword.length]? = some ' ') then some start
      else msgFindKeywordFrom keyword keywords fuel (start + keyword.length)

def msgFindKeyword (keyword keywords : List Char) : Option Nat :=
  msgFindKeywordFrom keyword keywords (keywords.length + 1) 0

namespace OfflineImapOperation

/-- The constructor, followed by the `SetMessageKey` of `GetOfflineOpForKey`. -/
def ofRow (messageKey : Nat) (row : OpRow) : OfflineImapOperation where
  messageKey := messageKey
  operation := row.operation
  operationFlags := row.operationFlags
  newFlags := row.newFlags
  moveDestination := []
  copyDestinations := []
  keywordsToAdd := []
  keywordsToRemove := []
  mdbRow := row

def setOperation (op : OfflineImapOperation) (type : OfflineOpType) : OfflineImapOperation :=
  { op with
    operation := insert type op.operation
    mdbRow := { op.mdbRow with operation := insert type op.operation } }

/-- Clears the bit in the row. The move and copy destinations are only dropped from the
members. -/
def clearOperation (op : OfflineImapOperation) (type : OfflineOpType) : OfflineImapOperation :=
  { op with
    operation := op.operation.erase type
    moveDestination := match type with
      | .msgMoved | .appendTemplate | .appendDraft => []
      | _ => op.moveDestination
    copyDestinations := match type with
      | .msgCopy => op.copyDestinations.tail
      | _ => op.copyDestinations
    mdbRow := { op.mdbRow with operation := op.operation.erase type } }

def getNewFlags (op : OfflineImapOperation) : MessageFlags := op.mdbRow.newFlags

def setNewFlags (op : OfflineImapOperation) (flags : MessageFlags) : OfflineImapOperation :=
  { op with newFlags := flags, mdbRow := { op.mdbRow with newFlags := flags } }

def setFlagOperation (op : OfflineImapOperation) (flags : MessageFlags) : OfflineImapOperation :=
  let op := (op.setOperation .flagsChanged).setNewFlags flags
  { op with
    operationFlags := op.operationFlags ||| flags
    mdbRow := { op.mdbRow with operationFlags := op.operationFlags ||| flags } }

def getDestinationFolderURI (op : OfflineImapOperation) : Uri := op.mdbRow.moveDest

def setDestinationFolderURI (op : OfflineImapOperation) (uri : Uri) : OfflineImapOperation :=
  { op with moveDestination := uri, mdbRow := { op.mdbRow with moveDest := uri } }

/-- The two lists after `AddKeyword`: the one it adds to and the one it cuts from. -/
def addKeyword (keyword addList removeList : List Char) : List Char × List Char :=
  (if (msgFindKeyword keyword addList).isSome then addList
    else if addList.isEmpty then keyword
    else addList ++ ' ' :: keyword,
    match msgFindKeyword keyword removeList with
    | some start => removeList.take start ++ removeList.drop (start + keyword.length)
    | none => removeList)

/-- `AddKeyword` writes the list it cuts from only when the keyword was in it. -/
def addKeywordToAdd (op : OfflineImapOperation) (keyword : List Char) : OfflineImapOperation :=
  let op := op.setOperation .addKeywords
  let (adds, removes) := addKeyword keyword op.keywordsToAdd op.keywordsToRemove
  { op with
    keywordsToAdd := adds
    keywordsToRemove := removes
    mdbRow := { op.mdbRow with
      addedKeywords := adds
      removedKeywords := if (msgFindKeyword keyword op.keywordsToRemove).isSome then removes
        else op.mdbRow.removedKeywords } }

def addKeywordToRemove (op : OfflineImapOperation) (keyword : List Char) :
    OfflineImapOperation :=
  let op := op.setOperation .removeKeywords
  let (removes, adds) := addKeyword keyword op.keywordsToRemove op.keywordsToAdd
  { op with
    keywordsToAdd := adds
    keywordsToRemove := removes
    mdbRow := { op.mdbRow with
      removedKeywords := removes
      addedKeywords := if (msgFindKeyword keyword op.keywordsToAdd).isSome then adds
        else op.mdbRow.addedKeywords } }

def getKeywordsToAdd (op : OfflineImapOperation) : List Char := op.mdbRow.addedKeywords

def getKeywordsToRemove (op : OfflineImapOperation) : List Char := op.mdbRow.removedKeywords

/-- The loop of `GetCopiesFromDB` from `curCopyDestStart` on. A separator at the very start
does not end a destination. -/
def readCopyDests (copyDests : List Char) : Nat → Nat → List Uri
  | 0, _ => []
  | fuel + 1, start =>
    match findChar copyDests folderSepChar start with
    | none => [copyDests.drop start]
    | some next =>
      (if 0 < next then (copyDests.drop start).take (next - start) else copyDests.drop start) ::
        readCopyDests copyDests fuel (next + 1)

def getCopiesFromDB (op : OfflineImapOperation) : OfflineImapOperation :=
  { op with
    copyDestinations := if op.mdbRow.copyDests.isEmpty then []
      else readCopyDests op.mdbRow.copyDests (op.mdbRow.copyDests.length + 1) 0 }

def setCopiesToDB (op : OfflineImapOperation) : OfflineImapOperation :=
  { op with
    mdbRow := { op.mdbRow with copyDests := [folderSepChar].intercalate op.copyDestinations } }

def addMessageCopyOperation (op : OfflineImapOperation) (destinationBox : Uri) :
    OfflineImapOperation :=
  let op := (op.setOperation .msgCopy).getCopiesFromDB
  { op with copyDestinations := op.copyDestinations ++ [destinationBox] }.setCopiesToDB

/-- Answers the empty string, the caller's initial value, when there are not that many
destinations. -/
def getCopyDestination (op : OfflineImapOperation) (copyIndex : Nat) : Uri :=
  op.getCopiesFromDB.copyDestinations.getD copyIndex []

end OfflineImapOperation

/-- The table of all offline operations: the keys in it and the row of each key. -/
structure OfflineOps where
  table : List Nat
  row : Nat → OpRow

namespace OfflineOps

def empty : OfflineOps := ⟨[], fun _ => OpRow.empty⟩

def setRow (ops : OfflineOps) (op : OfflineImapOperation) : OfflineOps :=
  { ops with row := Function.update ops.row op.messageKey op.mdbRow }

/-- `GetOfflineOpForKey` without `create`. -/
def getOfflineOpForKey (ops : OfflineOps) (msgKey : Nat) : Option OfflineImapOperation :=
  if msgKey ∈ ops.table then some (.ofRow msgKey (ops.row msgKey)) else none

/-- `GetOfflineOpForKey` with `create`. A new row starts with the flags of the message. -/
def createOfflineOpForKey (headerFlags : Nat → Option MessageFlags) (ops : OfflineOps)
    (msgKey : Nat) : OfflineOps × OfflineImapOperation :=
  if msgKey ∈ ops.table then (ops, .ofRow msgKey (ops.row msgKey))
  else
    let op := OfflineImapOperation.ofRow msgKey (ops.row msgKey)
    ({ ops with table := ops.table ++ [msgKey] },
      match headerFlags msgKey with
      | some flags => op.setNewFlags flags
      | none => op)

/-- Cuts the row from the table and all columns of the row. -/
def removeOfflineOp (ops : OfflineOps) (op : OfflineImapOperation) : OfflineOps :=
  { table := ops.table.filter (· ≠ op.messageKey)
    row := Function.update ops.row op.messageKey OpRow.empty }

def listAllOfflineOpIds (ops : OfflineOps) : List Nat := ops.table.insertionSort (· ≤ ·)

end OfflineOps

/-- A change of one message while offline: the call that records it. The folder records a
move by `SetDestinationFolderURI` and `SetOperation`. -/
inductive Recording
  | setFlagOperation (flags : MessageFlags)
  | addKeywordToAdd (keyword : List Char)
  | addKeywordToRemove (keyword : List Char)
  | addMessageCopyOperation (destinationBox : Uri)
  | setDestinationFolderURI (uri : Uri)
deriving DecidableEq

namespace Recording

def type : Recording → OfflineOpType
  | setFlagOperation _ => .flagsChanged
  | addKeywordToAdd _ => .addKeywords
  | addKeywordToRemove _ => .removeKeywords
  | addMessageCopyOperation _ => .msgCopy
  | setDestinationFolderURI _ => .msgMoved

def apply (op : OfflineImapOperation) : Recording → OfflineImapOperation
  | setFlagOperation flags => op.setFlagOperation flags
  | addKeywordToAdd keyword => op.addKeywordToAdd keyword
  | addKeywordToRemove keyword => op.addKeywordToRemove keyword
  | addMessageCopyOperation destinationBox => op.addMessageCopyOperation destinationBox
  | setDestinationFolderURI uri => (op.setDestinationFolderURI uri).setOperation .msgMoved

end Recording

/-- Records one change of a message on the operation of its key. -/
def recordChange (headerFlags : Nat → Option MessageFlags) (ops : OfflineOps)
    (change : Nat × Recording) : OfflineOps :=
  let (created, op) := ops.createOfflineOpForKey headerFlags change.1
  created.setRow (change.2.apply op)

/-- The operations after the changes, in the order in which they were made. -/
def recordChanges (headerFlags : Nat → Option MessageFlags) (changes : List (Nat × Recording)) :
    OfflineOps :=
  changes.foldl (recordChange headerFlags) OfflineOps.empty

end CommCentral.Imap
