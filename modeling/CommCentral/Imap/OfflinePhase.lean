import CommCentral.Lib.Batching
import CommCentral.Imap.OfflineRecording
import CommCentral.Imap.OfflineSync

/-! The playback of all operations of one type: the batches of the messages up to the first
one whose operation has been removed. -/
namespace CommCentral.Imap
open Lib OfflineSync List

/-- What a command does to a message. -/
inductive PlaybackAction
  | setFlags (flags : MessageFlags)
  | addKeywords (keywords : List Char)
  | removeKeywords (keywords : List Char)
  | copyTo (destination : Uri)
  | moveTo (destination : Uri)
  | appendTo (destination : Uri)
deriving DecidableEq

/-- The messages of a command, each with what is done to it. -/
def PlaybackCommand.performs : PlaybackCommand → List (Nat × PlaybackAction)
  | .setImapFlags keys flags => keys.map fun key => (key, .setFlags flags)
  | .storeCustomKeywords keys flagsToAdd flagsToSubtract =>
    (if flagsToAdd = [] then [] else keys.map fun key => (key, .addKeywords flagsToAdd)) ++
      if flagsToSubtract = [] then []
      else keys.map fun key => (key, .removeKeywords flagsToSubtract)
  | .replayOfflineMoveCopy keys isMove destination | .copyMessages keys isMove destination =>
    keys.map fun key => (key, if isMove then .moveTo destination else .copyTo destination)
  | .copyFileMessage key destination => [(key, .appendTo destination)]
  | .emptyTrash => []

/-- The playback ends and its commands perform the actions. -/
def Performs (folder : PlaybackFolder) (sync : OfflineSync)
    (actions : List (Nat × PlaybackAction)) : Prop :=
  ∃ fuel commands, playback folder fuel sync = some commands ∧
    commands.flatMap PlaybackCommand.performs = actions

/-- What is performed from the end of an activation of `ProcessNextOperation` on. -/
def StepPerforms (folder : PlaybackFolder) : PlaybackStep → List (Nat × PlaybackAction) → Prop
  | .finished _, actions => actions = []
  | .again sync, actions => Performs folder sync actions
  | .started command sync, actions =>
    ∃ later, Performs folder sync.onStopRunningUrl later ∧ actions = command.performs ++ later

lemma Performs.of_step (step : StepPerforms folder (sync.processNextOperation folder) actions) :
    Performs folder sync actions := by
  cases outcome : sync.processNextOperation folder with
  | finished next =>
    rw [outcome] at step
    exact ⟨1, [], by simp [playback, outcome], step.symm⟩
  | again next =>
    rw [outcome] at step
    obtain ⟨fuel, commands, plays, performed⟩ := step
    exact ⟨fuel + 1, commands, by simp [playback, outcome, plays], performed⟩
  | started command next =>
    rw [outcome] at step
    obtain ⟨later, ⟨fuel, commands, plays, performed⟩, rfl⟩ := step
    exact ⟨fuel + 1, command :: commands, by simp [playback, outcome, plays],
      by rw [flatMap_cons, performed]⟩

section Rows

/-- The row with only these types left. -/
def OpRow.restrict (row : OpRow) (types : List OfflineOpType) : OpRow :=
  { row with operation := row.operation.filter (· ∈ types) }

def OpRow.clear (row : OpRow) (type : OfflineOpType) : OpRow :=
  { row with operation := row.operation.erase type }

/-- Some of the types is recorded in the row. -/
def OpRow.Alive (row : OpRow) (types : List OfflineOpType) : Prop :=
  ∃ type ∈ types, type ∈ row.operation

instance (row : OpRow) (types : List OfflineOpType) : Decidable (row.Alive types) :=
  inferInstanceAs (Decidable (∃ type ∈ types, type ∈ row.operation))

variable {row : OpRow} {type : OfflineOpType}

lemma OpRow.clear_restrict_cons (last : type ∉ later) :
    (row.restrict (type :: later)).clear type = row.restrict later := by
  have same : (row.operation.filter (· ∈ type :: later)).erase type =
      row.operation.filter (· ∈ later) := by
    ext each
    rw [Finset.mem_erase, Finset.mem_filter, Finset.mem_filter, mem_cons]
    constructor
    · rintro ⟨differs, mem, own | inLater⟩
      · exact absurd own differs
      · exact ⟨mem, inLater⟩
    · rintro ⟨mem, inLater⟩
      refine ⟨?_, mem, .inr inLater⟩
      rintro rfl
      exact last inLater
  rw [OpRow.clear, OpRow.restrict, OpRow.restrict]
  exact congrArg (fun operation => { row with operation := operation }) same

lemma OpRow.clear_restrict (last : type ∉ later) :
    (row.restrict later).clear type = row.restrict later := by
  have same : (row.operation.filter (· ∈ later)).erase type = row.operation.filter (· ∈ later) :=
    Finset.erase_eq_of_notMem fun mem => last (Finset.mem_filter.mp mem).2
  rw [OpRow.clear, OpRow.restrict]
  exact congrArg (fun operation => { row with operation := operation }) same

lemma OpRow.restrict_cons_of_notMem (missing : type ∉ row.operation) :
    row.restrict (type :: later) = row.restrict later := by
  have same : row.operation.filter (· ∈ type :: later) = row.operation.filter (· ∈ later) := by
    apply Finset.filter_congr
    intro each mem
    rw [mem_cons]
    constructor
    · rintro (rfl | inLater)
      · exact absurd mem missing
      · exact inLater
    · exact .inr
  rw [OpRow.restrict, OpRow.restrict]
  exact congrArg (fun operation => { row with operation := operation }) same

lemma OpRow.restrict_eq_empty_iff : (row.restrict later).operation = ∅ ↔ ¬ row.Alive later := by
  rw [OpRow.restrict, Finset.filter_eq_empty_iff, OpRow.Alive]
  constructor
  · rintro none ⟨each, inLater, mem⟩
    exact none mem inLater
  · intro none each mem inLater
    exact none ⟨each, inLater, mem⟩

end Rows

section Entries

/-- What the playback of a type does to the message of a row. -/
def playedArgument : OfflineOpType → OpRow → PlaybackAction
  | .addKeywords, row => .addKeywords row.addedKeywords
  | .removeKeywords, row => .removeKeywords row.removedKeywords
  | .msgCopy, row => .copyTo ((OfflineImapOperation.ofRow 0 row).getCopyDestination 0)
  | .msgMoved, row => .moveTo row.moveDest
  | _, row => .setFlags row.newFlags

/-- The test by which an earlier message takes this one along. -/
def joinsPlayback : OfflineOpType → OpRow → Bool
  | .flagsChanged, row => row.operationFlags &&& flagsChangedBit ≠ 0
  | type, row => type ∈ row.operation

/-- A message as an item of the batches of a type. -/
def playbackEntry (rows : Nat → OpRow) (type : OfflineOpType) (key : Nat) :
    Entry Nat PlaybackAction where
  key := key
  due := type ∈ (rows key).operation
  joins := joinsPlayback type (rows key)
  argument := playedArgument type (rows key)

lemma map_key_playbackEntry (rows : Nat → OpRow) (type) (keys : List Nat) :
    (keys.map (playbackEntry rows type)).map Entry.key = keys := by
  rw [map_map]
  exact map_id keys

@[simp] lemma playedArgument_restrict (type : OfflineOpType) (row : OpRow)
    (types : List OfflineOpType) :
    playedArgument type (row.restrict types) = playedArgument type row := by
  cases type <;> rfl

end Entries

section Database

variable {ops : OfflineOps} {type : OfflineOpType}

lemma getOfflineOpForKey_of_mem (mem : key ∈ ops.table) :
    ops.getOfflineOpForKey key = some (.ofRow key (ops.row key)) := by
  simp [OfflineOps.getOfflineOpForKey, mem]

lemma getOfflineOpForKey_of_notMem (missing : key ∉ ops.table) :
    ops.getOfflineOpForKey key = none := by
  simp [OfflineOps.getOfflineOpForKey, missing]

/-- Passing over an operation of another type. -/
def OfflineOps.visit (ops : OfflineOps) (key : Nat) : OfflineOps :=
  if (ops.row key).operation = ∅ then ops.removeOfflineOp (.ofRow key (ops.row key)) else ops

section

variable {keyIndex : Nat} {keys : List Nat}

lemma findNextOp_pass (mem : key ∈ ops.table) (other : type ∉ (ops.row key).operation) :
    findNextOp type ops keyIndex (key :: keys) =
      findNextOp type (ops.visit key) (keyIndex + 1) keys := by
  have absent : type ∉ (OfflineImapOperation.ofRow key (ops.row key)).operation := other
  simp only [findNextOp, getOfflineOpForKey_of_mem mem, if_neg absent]
  rfl

lemma findNextOp_found (mem : key ∈ ops.table) (due : type ∈ (ops.row key).operation) :
    findNextOp type ops keyIndex (key :: keys) =
      (ops, keyIndex, some (.ofRow key (ops.row key))) := by
  have present : type ∈ (OfflineImapOperation.ofRow key (ops.row key)).operation := due
  simp only [findNextOp, getOfflineOpForKey_of_mem mem, if_pos present]

lemma findNextOp_blocked (blocked : ∀ key ∈ keys.head?, key ∉ ops.table) :
    findNextOp type ops keyIndex keys = (ops, keyIndex, none) := by
  cases keys with
  | nil => rfl
  | cons key keys =>
    have missing := blocked key rfl
    simp only [findNextOp, getOfflineOpForKey_of_notMem missing]

end

/-- The matching operations among keys that all have one, up to the first key without. -/
theorem matchingOps_append (test : OfflineImapOperation → Bool) {keys rest : List Nat}
    (present : ∀ key ∈ keys, key ∈ ops.table) (blocked : ∀ key ∈ rest.head?, key ∉ ops.table) :
    matchingOps ops test (keys ++ rest) =
      (keys.filter fun key => test (.ofRow key (ops.row key))).map
        fun key => .ofRow key (ops.row key) := by
  induction keys with
  | nil =>
    cases rest with
    | nil => rfl
    | cons key rest =>
      have missing := blocked key rfl
      simp [matchingOps, getOfflineOpForKey_of_notMem missing]
  | cons key keys ih =>
    have rest := ih fun each mem => present each (mem_cons_of_mem key mem)
    simp only [cons_append, matchingOps,
      getOfflineOpForKey_of_mem (present key mem_cons_self), rest]
    cases passes : test (.ofRow key (ops.row key)) <;> simp [passes]

def OfflineOps.Holds (ops : OfflineOps) (op : OfflineImapOperation) : Prop :=
  op.operation = (ops.row op.messageKey).operation ∧ op.mdbRow = ops.row op.messageKey

lemma clearCurrentOps_currentDB (sync : OfflineSync)
    (holds : ∀ op ∈ sync.currentOpsToClear, sync.currentDB.Holds op) :
    sync.clearCurrentOps.currentDB.table = sync.currentDB.table ∧
      ∀ key, sync.clearCurrentOps.currentDB.row key =
        if key ∈ sync.currentOpsToClear.map (·.messageKey) then
          (sync.currentDB.row key).clear sync.currentPlaybackOpType
        else sync.currentDB.row key := by
  rw [OfflineSync.clearCurrentOps]
  simp only [foldl_reverse]
  generalize sync.currentOpsToClear = cleared at holds ⊢
  induction cleared with
  | nil => simp
  | cons op ops ih =>
    obtain ⟨table, rows⟩ := ih fun each mem => holds each (mem_cons_of_mem op mem)
    obtain ⟨operation, mdbRow⟩ := holds op mem_cons_self
    constructor
    · exact table
    · intro key
      simp only [foldr_cons, map_cons, mem_cons]
      by_cases same : key = op.messageKey
      · subst same
        show Function.update _ op.messageKey _ op.messageKey = _
        rw [Function.update_self, if_pos (.inl rfl), ← mdbRow]
        show OpRow.mk (op.operation.erase _) _ _ _ _ _ _ = _
        rw [operation, ← mdbRow]
        rfl
      · show Function.update _ op.messageKey _ key = _
        rw [Function.update_of_ne same, rows]
        simp only [same, false_or]

lemma eq_ofRow_of_mem_matchingOps {test : OfflineImapOperation → Bool} {keys : List Nat}
    (mem : op ∈ matchingOps ops test keys) : ∃ key ∈ keys, op = .ofRow key (ops.row key) := by
  induction keys with
  | nil => cases mem
  | cons key keys ih =>
    by_cases present : key ∈ ops.table
    · simp only [matchingOps, getOfflineOpForKey_of_mem present] at mem
      have cases : op = .ofRow key (ops.row key) ∨ op ∈ matchingOps ops test keys := by
        split at mem
        · exact mem_cons.mp mem
        · exact .inr mem
      cases cases with
      | inl own => exact ⟨key, mem_cons_self, own⟩
      | inr inRest =>
        obtain ⟨found, inKeys, same⟩ := ih inRest
        exact ⟨found, mem_cons_of_mem key inKeys, same⟩
    · simp only [matchingOps, getOfflineOpForKey_of_notMem present] at mem
      cases mem

end Database

section Commands

def recordedTypes : List OfflineOpType :=
  [.flagsChanged, .addKeywords, .removeKeywords, .msgCopy, .msgMoved]

/-- A row that the playback can play back: its types are recorded types, its keyword lists
are not empty and its destination folders exist. -/
structure PlayableRow (folder : PlaybackFolder) (row : OpRow) : Prop where
  types : ∀ type ∈ row.operation, type ∈ recordedTypes
  addedKeywords : .addKeywords ∈ row.operation → row.addedKeywords ≠ []
  removedKeywords : .removeKeywords ∈ row.operation → row.removedKeywords ≠ []
  copyFolder : .msgCopy ∈ row.operation →
    (folder.findFolder ((OfflineImapOperation.ofRow 0 row).getCopyDestination 0)).isSome
  moveFolder : .msgMoved ∈ row.operation → (folder.findFolder row.moveDest).isSome

/-- The batch of an operation: the operations to clear, the test by which they were found
and the command. -/
structure StartsBatch (folder : PlaybackFolder) (sync : OfflineSync) (key : Nat) (row : OpRow)
    (step : PlaybackStep) (test : OfflineImapOperation → Bool) (ops : List OfflineImapOperation)
    (command : PlaybackCommand) : Prop where
  started : step = .started command { sync with currentOpsToClear := ops }
  tests : ∀ other otherRow, test (.ofRow other otherRow) =
    (joinsPlayback sync.currentPlaybackOpType otherRow &&
      decide (playedArgument sync.currentPlaybackOpType otherRow =
        playedArgument sync.currentPlaybackOpType row))
  keys : ops.map (·.messageKey) = (sync.collect (.ofRow key row) test).map (·.messageKey)
  holds : ∀ op ∈ ops, ∃ found ∈ sync.collect (.ofRow key row) test,
    op.messageKey = found.messageKey ∧ op.operation = found.operation ∧ op.mdbRow = found.mdbRow
  performs : command.performs = (ops.map (·.messageKey)).map fun each =>
    (each, playedArgument sync.currentPlaybackOpType row)

variable (sync : OfflineSync)

lemma playToFolder_started (isMove : Bool) (found : (folder.findFolder destination).isSome) (ops)
    (headers : ∀ op ∈ ops, folder.hasHeader op.messageKey) :
    ∃ command, sync.playToFolder folder isMove destination ops =
        .started command (sync.remember ops) ∧
      command.performs = (ops.map (·.messageKey)).map fun key =>
        (key, if isMove then .moveTo destination else .copyTo destination) := by
  obtain ⟨sameServer, answer⟩ := Option.isSome_iff_exists.mp found
  cases sameServer with
  | true =>
    refine ⟨.replayOfflineMoveCopy (ops.map (·.messageKey)) isMove destination, ?_, rfl⟩
    simp only [playToFolder, answer]
  | false =>
    have all : (ops.map (·.messageKey)).filter folder.hasHeader = ops.map (·.messageKey) := by
      apply filter_eq_self.mpr
      intro key mem
      obtain ⟨op, inOps, rfl⟩ := mem_map.mp mem
      exact headers op inOps
    refine ⟨.copyMessages ((ops.map (·.messageKey)).filter folder.hasHeader) isMove destination,
      ?_, ?_⟩
    · simp only [playToFolder, answer]
    · rw [PlaybackCommand.performs, all]

lemma processFound_startsBatch (playable : PlayableRow folder row)
    (due : sync.currentPlaybackOpType ∈ row.operation) (empty : sync.currentOpsToClear = [])
    (headers : ∀ test, ∀ op ∈ sync.collect (.ofRow key row) test, folder.hasHeader op.messageKey) :
    ∃ test ops command, StartsBatch folder sync key row
      (sync.processFound folder (some (.ofRow key row))) test ops command := by
  obtain ⟨currentDB, currentKeys, keyIndex, type, currentOpsToClear⟩ := sync
  simp only at empty due
  subst empty
  have recorded := playable.types type due
  simp only [recordedTypes, mem_cons, not_mem_nil, or_false] at recorded
  rcases recorded with rfl | rfl | rfl | rfl | rfl
  · refine ⟨flagsMatch (.ofRow key row), _, _, rfl, ?_, rfl,
      fun op mem => ⟨op, mem, rfl, rfl, rfl⟩, rfl⟩
    intro other otherRow
    rw [Bool.eq_iff_iff]
    simp only [flagsMatch, joinsPlayback, Bool.and_eq_true, decide_eq_true_iff]
    simp [playedArgument, OfflineImapOperation.ofRow, OfflineImapOperation.getNewFlags]
  · have filled := playable.addedKeywords due
    refine ⟨keywordsMatch _ (.ofRow key row), _, _, rfl, ?_, rfl,
      fun op mem => ⟨op, mem, rfl, rfl, rfl⟩, ?_⟩
    · intro other otherRow
      rw [Bool.eq_iff_iff]
      simp only [keywordsMatch, joinsPlayback, Bool.and_eq_true, decide_eq_true_iff]
      simp [playedArgument, OfflineImapOperation.ofRow, playbackKeywords,
        OfflineImapOperation.getKeywordsToAdd]
    · simp [PlaybackCommand.performs, playbackKeywords, OfflineImapOperation.getKeywordsToAdd,
        OfflineImapOperation.ofRow, filled, playedArgument]
  · have filled := playable.removedKeywords due
    refine ⟨keywordsMatch _ (.ofRow key row), _, _, rfl, ?_, rfl,
      fun op mem => ⟨op, mem, rfl, rfl, rfl⟩, ?_⟩
    · intro other otherRow
      rw [Bool.eq_iff_iff]
      simp only [keywordsMatch, joinsPlayback, Bool.and_eq_true, decide_eq_true_iff]
      simp [playedArgument, OfflineImapOperation.ofRow, playbackKeywords,
        OfflineImapOperation.getKeywordsToRemove]
    · simp [PlaybackCommand.performs, playbackKeywords, OfflineImapOperation.getKeywordsToRemove,
        OfflineImapOperation.ofRow, filled, playedArgument]
  · have copied : ∀ op ∈ (collect ⟨currentDB, currentKeys, keyIndex, .msgCopy, []⟩
        (.ofRow key row) (copyMatches (.ofRow key row))).map (·.getCopiesFromDB),
        folder.hasHeader op.messageKey := by
      intro op mem
      obtain ⟨found, inCollected, rfl⟩ := mem_map.mp mem
      exact headers _ found inCollected
    obtain ⟨command, started, performs⟩ := playToFolder_started
      ⟨currentDB, currentKeys, keyIndex, .msgCopy, []⟩ false (playable.copyFolder due) _ copied
    refine ⟨copyMatches (.ofRow key row), _, command, started, ?_, ?_, ?_, performs⟩
    · intro other otherRow
      rw [Bool.eq_iff_iff]
      simp only [copyMatches, joinsPlayback, Bool.and_eq_true, decide_eq_true_iff,
        playedArgument, PlaybackAction.copyTo.injEq]
      exact Iff.rfl
    · simp only [nil_append, map_map]
      rfl
    · intro op mem
      obtain ⟨found, inCollected, rfl⟩ := mem_map.mp mem
      exact ⟨found, inCollected, rfl, rfl, rfl⟩
  · obtain ⟨command, started, performs⟩ := playToFolder_started
      ⟨currentDB, currentKeys, keyIndex, .msgMoved, []⟩ true (playable.moveFolder due) _
      (headers (moveMatches (.ofRow key row)))
    refine ⟨moveMatches (.ofRow key row), _, command, started, ?_, rfl,
      fun op mem => ⟨op, mem, rfl, rfl, rfl⟩, performs⟩
    intro other otherRow
    rw [Bool.eq_iff_iff]
    simp only [moveMatches, joinsPlayback, Bool.and_eq_true, decide_eq_true_iff]
    simp [playedArgument, OfflineImapOperation.ofRow, OfflineImapOperation.getDestinationFolderURI]

end Commands

end CommCentral.Imap
