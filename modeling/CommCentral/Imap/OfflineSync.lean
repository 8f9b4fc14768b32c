import CommCentral.Imap.OfflineOperation

/-! The playback of a folder's offline operations (`nsImapOfflineSync`). The current folder
is an IMAP folder, pseudo-offline or with an unchanged UID validity, and every command
succeeds. -/
namespace CommCentral.Imap

/-- What the playback asks the other folders and the message headers. `findFolder` answers
whether the folder is on the same server. -/
structure PlaybackFolder where
  findFolder : Uri → Option Bool
  hasHeader : Nat → Bool

inductive PlaybackCommand
  | setImapFlags (keys : List Nat) (flags : MessageFlags)
  | storeCustomKeywords (keys : List Nat) (flagsToAdd flagsToSubtract : List Char)
  | replayOfflineMoveCopy (keys : List Nat) (isMove : Bool) (destination : Uri)
  | copyMessages (keys : List Nat) (isMove : Bool) (destination : Uri)
  | copyFileMessage (key : Nat) (destination : Uri)
  | emptyTrash
deriving DecidableEq

/-- The members of `nsImapOfflineSync` that play back one folder. -/
structure OfflineSync where
  currentDB : OfflineOps
  currentKeys : List Nat
  keyIndex : Nat
  currentPlaybackOpType : OfflineOpType
  currentOpsToClear : List OfflineImapOperation

/-- How an activation of `ProcessNextOperation` ends: it has started a command, it calls
itself again, or the folder is finished. -/
inductive PlaybackStep
  | started (command : PlaybackCommand) (sync : OfflineSync)
  | again (sync : OfflineSync)
  | finished (sync : OfflineSync)

/-- The type played back after all operations of a type. -/
def nextPlaybackOpType : OfflineOpType → Option OfflineOpType
  | .flagsChanged => some .addKeywords
  | .addKeywords => some .removeKeywords
  | .removeKeywords => some .msgCopy
  | .msgCopy => some .msgMoved
  | .msgMoved => some .appendDraft
  | .appendDraft => some .appendTemplate
  | .appendTemplate => some .deleteAllMsgs
  | _ => none

/-- The loop for all later messages with matching operations. It ends at the first key
without an operation. -/
def matchingOps (ops : OfflineOps) (test : OfflineImapOperation → Bool) :
    List Nat → List OfflineImapOperation
  | [] => []
  | key :: keys =>
    match ops.getOfflineOpForKey key with
    | none => []
    | some op => if test op then op :: matchingOps ops test keys else matchingOps ops test keys

/-- The loop for the next operation of the type. It removes operations with no type. -/
def findNextOp (type : OfflineOpType) :
    OfflineOps → Nat → List Nat → OfflineOps × Nat × Option OfflineImapOperation
  | ops, keyIndex, [] => (ops, keyIndex, none)
  | ops, keyIndex, key :: keys =>
    match ops.getOfflineOpForKey key with
    | none => (ops, keyIndex, none)
    | some op =>
      if type ∈ op.operation then (ops, keyIndex, some op)
      else
        findNextOp type (if op.operation = ∅ then ops.removeOfflineOp op else ops) (keyIndex + 1)
          keys

/-- The loop of `DeleteAllOfflineOpsForCurrentDB`. -/
def deleteAllOfflineOps : OfflineOps → List Nat → OfflineOps
  | ops, [] => ops
  | ops, key :: keys =>
    match ops.getOfflineOpForKey key with
    | none => ops
    | some op => deleteAllOfflineOps (ops.removeOfflineOp op) keys

/-- Removes the operation of a key when it is only the result of a move. -/
def trashGhost (ops : OfflineOps) (key : Nat) : OfflineOps :=
  match ops.getOfflineOpForKey key with
  | none => ops
  | some op => if op.operation = {.moveResult} then ops.removeOfflineOp op else ops

/-- Removes the results of moves before the playback. -/
def trashGhosts (ops : OfflineOps) : OfflineOps := ops.listAllOfflineOpIds.foldl trashGhost ops

namespace OfflineSync

/-- The start of a folder's playback. -/
def enterFolder (ops : OfflineOps) : OfflineSync where
  currentDB := trashGhosts ops
  currentKeys := (trashGhosts ops).listAllOfflineOpIds
  keyIndex := 0
  currentPlaybackOpType := .flagsChanged
  currentOpsToClear := []

/-- Clears the type of the operations, from the last to the first. -/
def clearCurrentOps (sync : OfflineSync) : OfflineSync :=
  { sync with
    currentDB := sync.currentOpsToClear.reverse.foldl
      (fun ops op => ops.setRow (op.clearOperation sync.currentPlaybackOpType)) sync.currentDB
    currentOpsToClear := [] }

/-- The operation and all later ones that match it. -/
def collect (sync : OfflineSync) (op : OfflineImapOperation)
    (test : OfflineImapOperation → Bool) : List OfflineImapOperation :=
  op :: matchingOps sync.currentDB test (sync.currentKeys.drop (sync.keyIndex + 1))

def remember (sync : OfflineSync) (ops : List OfflineImapOperation) : OfflineSync :=
  { sync with currentOpsToClear := sync.currentOpsToClear ++ ops }

/-- Later messages match by the bits of their flag operation, not by their type. -/
def flagsMatch (op other : OfflineImapOperation) : Bool :=
  decide (other.operationFlags &&& flagsChangedBit ≠ 0) &&
    decide (other.getNewFlags = op.getNewFlags)

def processFlagOperation (sync : OfflineSync) (op : OfflineImapOperation) : PlaybackStep :=
  let ops := sync.collect op (flagsMatch op)
  .started (.setImapFlags (ops.map (·.messageKey)) op.getNewFlags) (sync.remember ops)

/-- The keyword list that is played back. -/
def playbackKeywords (sync : OfflineSync) (op : OfflineImapOperation) : List Char :=
  if sync.currentPlaybackOpType = .addKeywords then op.getKeywordsToAdd
  else op.getKeywordsToRemove

def keywordsMatch (sync : OfflineSync) (op other : OfflineImapOperation) : Bool :=
  decide (sync.currentPlaybackOpType ∈ other.operation) &&
    decide (sync.playbackKeywords other = sync.playbackKeywords op)

def processKeywordOperation (sync : OfflineSync) (op : OfflineImapOperation) : PlaybackStep :=
  let keywords := sync.playbackKeywords op
  let ops := sync.collect op (sync.keywordsMatch op)
  .started
    (.storeCustomKeywords (ops.map (·.messageKey))
      (if sync.currentPlaybackOpType = .addKeywords then keywords else [])
      (if sync.currentPlaybackOpType = .removeKeywords then keywords else []))
    (sync.remember ops)

/-- The ends of `ProcessMoveOperation` and `ProcessCopyOperation`: without a destination
folder the operations are cleared. -/
def playToFolder (folder : PlaybackFolder) (sync : OfflineSync) (isMove : Bool)
    (destination : Uri) (ops : List OfflineImapOperation) : PlaybackStep :=
  let keys := ops.map (·.messageKey)
  match folder.findFolder destination with
  | none => .again (sync.remember ops).clearCurrentOps
  | some true => .started (.replayOfflineMoveCopy keys isMove destination) (sync.remember ops)
  | some false =>
    .started (.copyMessages (keys.filter folder.hasHeader) isMove destination) (sync.remember ops)

def moveMatches (op other : OfflineImapOperation) : Bool :=
  decide (.msgMoved ∈ other.operation) &&
    decide (other.getDestinationFolderURI = op.getDestinationFolderURI)

def processMoveOperation (folder : PlaybackFolder) (sync : OfflineSync)
    (op : OfflineImapOperation) : PlaybackStep :=
  sync.playToFolder folder true op.getDestinationFolderURI (sync.collect op (moveMatches op))

/-- Only the first destination of an operation is looked at. -/
def copyMatches (op other : OfflineImapOperation) : Bool :=
  decide (.msgCopy ∈ other.operation) &&
    decide (other.getCopyDestination 0 = op.getCopyDestination 0)

/-- Asking for the first destination has read the destinations from the row. -/
def processCopyOperation (folder : PlaybackFolder) (sync : OfflineSync)
    (op : OfflineImapOperation) : PlaybackStep :=
  sync.playToFolder folder false (op.getCopyDestination 0)
    ((sync.collect op (copyMatches op)).map (·.getCopiesFromDB))

/-- The message's file is handed to the copy service. -/
def processAppendMsgOperation (folder : PlaybackFolder) (sync : OfflineSync)
    (op : OfflineImapOperation) : PlaybackStep :=
  if folder.hasHeader op.messageKey then
    .started (.copyFileMessage op.messageKey op.getDestinationFolderURI) (sync.remember [op])
  else .again { sync with currentDB := sync.currentDB.removeOfflineOp op }

/-- Emptying the trash deletes its database. -/
def processEmptyTrash (sync : OfflineSync) : PlaybackStep :=
  .started .emptyTrash { sync with currentDB := OfflineOps.empty, currentKeys := [] }

/-- What `ProcessNextOperation` does with the operation it has found: it plays it back, or
goes on to the next type. -/
def processFound (folder : PlaybackFolder) (sync : OfflineSync) :
    Option OfflineImapOperation → PlaybackStep
  | none =>
    match nextPlaybackOpType sync.currentPlaybackOpType with
    | some type => .again { sync with keyIndex := 0, currentPlaybackOpType := type }
    | none =>
      .finished { sync with currentDB := deleteAllOfflineOps sync.currentDB sync.currentKeys }
  | some op =>
    match sync.currentPlaybackOpType with
    | .flagsChanged => sync.processFlagOperation op
    | .addKeywords | .removeKeywords => sync.processKeywordOperation op
    | .msgCopy => sync.processCopyOperation folder op
    | .msgMoved => sync.processMoveOperation folder op
    | .appendDraft | .appendTemplate => sync.processAppendMsgOperation folder op
    | .deleteAllMsgs => sync.processEmptyTrash
    | .moveResult => .finished sync

def processNextOperation (folder : PlaybackFolder) (sync : OfflineSync) : PlaybackStep :=
  match sync.currentKeys[sync.keyIndex]? with
  | none => .finished sync
  | some key =>
    match sync.currentDB.getOfflineOpForKey key with
    | none => .finished sync
    | some _ =>
      let (ops, keyIndex, op) := findNextOp sync.currentPlaybackOpType sync.currentDB
        sync.keyIndex (sync.currentKeys.drop sync.keyIndex)
      { sync with currentDB := ops, keyIndex := keyIndex }.processFound folder op

/-- `OnStopRunningUrl` of a command that has succeeded, up to its call of
`ProcessNextOperation`. -/
def onStopRunningUrl (sync : OfflineSync) : OfflineSync := sync.clearCurrentOps

/-- The commands that are started until the folder is finished. -/
def playback (folder : PlaybackFolder) : Nat → OfflineSync → Option (List PlaybackCommand)
  | 0, _ => none
  | fuel + 1, sync =>
    match sync.processNextOperation folder with
    | .finished _ => some []
    | .again next => playback folder fuel next
    | .started command next => (playback folder fuel next.onStopRunningUrl).map (command :: ·)

end OfflineSync

end CommCentral.Imap
