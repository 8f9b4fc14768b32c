import CommCentral.Imap.OfflineOperation
import Mathlib.Tactic.Common

/-! What the rows of the offline operations hold after the changes of the messages. -/
namespace CommCentral.Imap
open List Option

section CopyDestinations

lemma findChar_eq_none {front text : List Char} (missing : folderSepChar ∉ text) :
    findChar (front ++ text) folderSepChar front.length = none := by
  have absent : text.findIdx? (fun each => each == folderSepChar) = none := by
    rw [findIdx?_eq_none_iff]
    intro each mem
    rw [beq_eq_false_iff_ne]
    rintro rfl
    exact missing mem
  rw [findChar, drop_left, absent, map_none]

lemma findChar_eq_some {front text rest : List Char} (missing : folderSepChar ∉ text) :
    findChar (front ++ (text ++ folderSepChar :: rest)) folderSepChar front.length =
      some (front.length + text.length) := by
  have found : (text ++ folderSepChar :: rest).findIdx? (fun each => each == folderSepChar) =
      some text.length := by
    rw [findIdx?_eq_some_iff_getElem]
    refine ⟨by simp, by simp, ?_⟩
    intro index below
    rw [getElem_append_left below, Bool.not_eq_true, beq_eq_false_iff_ne]
    intro same
    exact missing (same ▸ getElem_mem below)
  rw [findChar, drop_left, found, map_some]

/-- A destination as the source promises it: not empty and without the separator. -/
def LegalDestination (uri : Uri) : Prop := uri ≠ [] ∧ folderSepChar ∉ uri

instance (uri : Uri) : Decidable (LegalDestination uri) := inferInstanceAs (Decidable (_ ∧ _))

lemma readCopyDests_intercalate (front) (copies) (legal : ∀ uri ∈ copies, LegalDestination uri)
    (some : copies ≠ []) (enough : copies.length ≤ fuel) :
    OfflineImapOperation.readCopyDests (front ++ [folderSepChar].intercalate copies) fuel
      front.length = copies := by
  induction copies generalizing front fuel with
  | nil => exact absurd rfl some
  | cons uri rest ih =>
    obtain ⟨fuel, rfl⟩ : ∃ less, fuel = less + 1 :=
      Nat.exists_eq_add_one_of_ne_zero (by rw [length_cons] at enough; omega)
    have own := legal uri mem_cons_self
    cases rest with
    | nil => simp [OfflineImapOperation.readCopyDests, findChar_eq_none own.2]
    | cons next rest =>
      have text : [folderSepChar].intercalate (uri :: next :: rest) =
          uri ++ folderSepChar :: [folderSepChar].intercalate (next :: rest) := by
        simp
      have positive : 0 < uri.length := length_pos_iff.mpr own.1
      have later := ih (front ++ uri ++ [folderSepChar])
        (fun each mem => legal each (mem_cons_of_mem uri mem)) (cons_ne_nil _ _)
        (Nat.le_of_succ_le_succ enough)
      have rearranged : front ++ uri ++ [folderSepChar] ++
          [folderSepChar].intercalate (next :: rest) =
          front ++ (uri ++ folderSepChar :: [folderSepChar].intercalate (next :: rest)) := by
        simp
      have length : (front ++ uri ++ [folderSepChar]).length = front.length + uri.length + 1 := by
        simp [Nat.add_assoc]
      rw [rearranged, length] at later
      rw [text, OfflineImapOperation.readCopyDests, findChar_eq_some own.2]
      simp only
      rw [later, if_pos (by omega), drop_left, Nat.add_sub_cancel_left, take_left]

lemma length_le_length_intercalate (copies) (legal : ∀ uri ∈ copies, LegalDestination uri) :
    copies.length ≤ ([folderSepChar].intercalate copies).length := by
  induction copies with
  | nil => simp
  | cons uri rest ih =>
    have positive : 0 < uri.length := length_pos_iff.mpr (legal uri mem_cons_self).1
    have tail := ih fun each mem => legal each (mem_cons_of_mem uri mem)
    cases rest with
    | nil => simpa using Nat.succ_le_of_lt positive
    | cons next rest =>
      simp only [intercalate_cons_cons, length_append, length_cons,
        length_nil] at tail ⊢
      omega

/-- Destinations written to the row are read back as they were. -/
theorem getCopiesFromDB_of_intercalate {op : OfflineImapOperation} {copies : List Uri}
    (legal : ∀ uri ∈ copies, LegalDestination uri)
    (stored : op.mdbRow.copyDests = [folderSepChar].intercalate copies) :
    op.getCopiesFromDB.copyDestinations = copies := by
  have size := length_le_length_intercalate copies legal
  rw [OfflineImapOperation.getCopiesFromDB, stored]
  cases copies with
  | nil => simp
  | cons uri rest =>
    have filled : ([folderSepChar].intercalate (uri :: rest)).isEmpty = false := by
      rw [isEmpty_eq_false_iff, ← length_pos_iff]
      exact Nat.lt_of_lt_of_le (Nat.succ_pos rest.length) size
    simp only [filled, Bool.false_eq_true, if_false]
    exact readCopyDests_intercalate [] (uri :: rest) legal (cons_ne_nil _ _)
      (Nat.le_succ_of_le size)

end CopyDestinations

/-- The changes of one message, in order. -/
def changesOf (changes : List (Nat × Recording)) (key : Nat) : List Recording :=
  changes.filterMap fun change => if change.1 = key then some change.2 else none

/-- The flags of the last `SetFlagOperation`. -/
def lastFlags (recordings : List Recording) : Option MessageFlags :=
  (recordings.filterMap fun
    | .setFlagOperation flags => some flags
    | _ => none).getLast?

def lastMove (recordings : List Recording) : Option Uri :=
  (recordings.filterMap fun
    | .setDestinationFolderURI uri => some uri
    | _ => none).getLast?

def copyDestinationsOf (recordings : List Recording) : List Uri :=
  recordings.filterMap fun
    | .addMessageCopyOperation uri => some uri
    | _ => none

/-- A change as its callers record it: copy destinations are folder URIs and keyword lists are
not empty. -/
def Recording.Legal : Recording → Prop
  | .addMessageCopyOperation uri => LegalDestination uri
  | .addKeywordToAdd keyword | .addKeywordToRemove keyword => keyword ≠ []
  | _ => True

instance (recording : Recording) : Decidable recording.Legal := by
  cases recording <;> unfold Recording.Legal <;> infer_instance

/-- Some `SetFlagOperation` had the bit by which the playback recognises changed flags. -/
def SetsFlagBit (recordings : List Recording) : Prop :=
  ∃ recording ∈ recordings, ∃ flags ∈ lastFlags [recording], flags &&& flagsChangedBit ≠ 0

/-- What a row holds after the recordings. -/
structure RecordedRow (recordings : List Recording) (row : OpRow) : Prop where
  operation : ∀ type, type ∈ row.operation ↔ ∃ recording ∈ recordings, recording.type = type
  operationFlags : row.operationFlags &&& flagsChangedBit ≠ 0 ↔ SetsFlagBit recordings
  newFlags : ∀ flags, lastFlags recordings = some flags → row.newFlags = flags
  moveDest : ∀ uri, lastMove recordings = some uri → row.moveDest = uri
  copyDests : row.copyDests = [folderSepChar].intercalate (copyDestinationsOf recordings)
  addedKeywords : .addKeywords ∈ row.operation → row.addedKeywords ≠ []
  removedKeywords : .removeKeywords ∈ row.operation → row.removedKeywords ≠ []

lemma flags_or_iff (left right) :
    (left ||| right) &&& flagsChangedBit ≠ 0 ↔
      left &&& flagsChangedBit ≠ 0 ∨ right &&& flagsChangedBit ≠ 0 := by
  have zero : (left ||| right) &&& flagsChangedBit = 0 ↔
      left &&& flagsChangedBit = 0 ∧ right &&& flagsChangedBit = 0 := by
    rw [BitVec.and_or_distrib_right]
    exact BitVec.or_eq_zero_iff
  rw [Ne, zero]
  exact not_and_or

section Append

variable (recordings : List Recording) (recording : Recording)

lemma setsFlagBit_append : SetsFlagBit (recordings ++ [recording]) ↔
    SetsFlagBit recordings ∨ SetsFlagBit [recording] := by
  simp [SetsFlagBit, or_and_right, exists_or]

lemma lastFlags_append : lastFlags (recordings ++ [recording]) =
    (lastFlags [recording]).or (lastFlags recordings) := by
  simp [lastFlags, getLast?_append]

lemma lastMove_append : lastMove (recordings ++ [recording]) =
    (lastMove [recording]).or (lastMove recordings) := by
  simp [lastMove, getLast?_append]

lemma copyDestinationsOf_append : copyDestinationsOf (recordings ++ [recording]) =
    copyDestinationsOf recordings ++ copyDestinationsOf [recording] := by
  simp [copyDestinationsOf]

end Append

namespace RecordedRow

lemma of_empty (operation : row.operation = ∅) (flags : row.operationFlags = 0)
    (copyDests : row.copyDests = []) : RecordedRow [] row where
  operation := by simp [operation]
  operationFlags := by simp [flags, SetsFlagBit]
  newFlags := by simp [lastFlags]
  moveDest := by simp [lastMove]
  copyDests := copyDests
  addedKeywords := by simp [operation]
  removedKeywords := by simp [operation]

lemma msgFindKeyword_nil (filled : keyword ≠ []) : msgFindKeyword keyword [] = none := by
  cases keyword with
  | nil => exact absurd rfl filled
  | cons char chars => rfl

variable {row after : OpRow}

section

variable (recorded : RecordedRow recordings row)
include recorded

lemma operationFlags_of_other (other : lastFlags [recording] = none)
    (operationFlags : after.operationFlags = row.operationFlags) :
    after.operationFlags &&& flagsChangedBit ≠ 0 ↔ SetsFlagBit (recordings ++ [recording]) := by
  have noBit : ¬ SetsFlagBit [recording] := by simp [SetsFlagBit, other]
  rw [operationFlags, recorded.operationFlags, setsFlagBit_append]
  simp only [noBit, or_false]

lemma newFlags_of_other (other : lastFlags [recording] = none)
    (newFlags : after.newFlags = row.newFlags) (flags)
    (last : lastFlags (recordings ++ [recording]) = some flags) : after.newFlags = flags := by
  rw [lastFlags_append, other, none_or] at last
  rw [newFlags]
  exact recorded.newFlags flags last

lemma moveDest_of_other (other : lastMove [recording] = none)
    (moveDest : after.moveDest = row.moveDest) (uri : Uri)
    (last : lastMove (recordings ++ [recording]) = some uri) : after.moveDest = uri := by
  rw [lastMove_append, other, none_or] at last
  rw [moveDest]
  exact recorded.moveDest uri last

lemma copyDests_of_other (other : copyDestinationsOf [recording] = [])
    (copyDests : after.copyDests = row.copyDests) :
    after.copyDests =
      [folderSepChar].intercalate (copyDestinationsOf (recordings ++ [recording])) := by
  rw [copyDestinationsOf_append, other, append_nil, copyDests, recorded.copyDests]

end

lemma addedKeywords_of_other {type : OfflineOpType} (recorded : RecordedRow recordings row)
    (other : OfflineOpType.addKeywords ≠ type) (operation : after.operation = insert type row.operation)
    (addedKeywords : after.addedKeywords = row.addedKeywords)
    (mem : OfflineOpType.addKeywords ∈ after.operation) : after.addedKeywords ≠ [] := by
  rw [operation] at mem
  rw [addedKeywords]
  exact recorded.addedKeywords (Finset.mem_of_mem_insert_of_ne mem other)

lemma removedKeywords_of_other {type : OfflineOpType} (recorded : RecordedRow recordings row)
    (other : OfflineOpType.removeKeywords ≠ type)
    (operation : after.operation = insert type row.operation)
    (removedKeywords : after.removedKeywords = row.removedKeywords)
    (mem : OfflineOpType.removeKeywords ∈ after.operation) : after.removedKeywords ≠ [] := by
  rw [operation] at mem
  rw [removedKeywords]
  exact recorded.removedKeywords (Finset.mem_of_mem_insert_of_ne mem other)

/-- One recording on an operation just made from its row. -/
theorem apply (key : Nat) (recorded : RecordedRow recordings row)
    (copies : ∀ uri ∈ copyDestinationsOf recordings, LegalDestination uri)
    (legal : recording.Legal) :
    RecordedRow (recordings ++ [recording]) (recording.apply (.ofRow key row)).mdbRow := by
  have operation : ∀ type, type ∈ insert recording.type row.operation ↔
      ∃ each ∈ recordings ++ [recording], each.type = type := by
    intro type
    rw [Finset.mem_insert, recorded.operation]
    simp [or_comm, or_and_right, exists_or, eq_comm]
  cases recording with
  | setFlagOperation flags =>
    refine ⟨operation, ?_, ?_, recorded.moveDest_of_other rfl rfl,
      recorded.copyDests_of_other rfl rfl, recorded.addedKeywords_of_other (by decide) rfl rfl,
      recorded.removedKeywords_of_other (by decide) rfl rfl⟩
    · have bit : SetsFlagBit [.setFlagOperation flags] ↔ flags &&& flagsChangedBit ≠ 0 := by
        simp [SetsFlagBit, lastFlags]
      rw [setsFlagBit_append, bit, ← recorded.operationFlags]
      exact flags_or_iff row.operationFlags flags
    · intro last same
      rw [lastFlags_append] at same
      exact Option.some.inj same
  | addKeywordToAdd keyword =>
    have added : (Recording.apply (.ofRow key row) (.addKeywordToAdd keyword)).mdbRow.addedKeywords
        = keyword := by
      simp [Recording.apply, OfflineImapOperation.addKeywordToAdd, OfflineImapOperation.addKeyword,
        OfflineImapOperation.setOperation, OfflineImapOperation.ofRow, msgFindKeyword_nil legal]
    have removed :
        (Recording.apply (.ofRow key row) (.addKeywordToAdd keyword)).mdbRow.removedKeywords =
          row.removedKeywords := by
      simp [Recording.apply, OfflineImapOperation.addKeywordToAdd,
        OfflineImapOperation.setOperation, OfflineImapOperation.ofRow, msgFindKeyword_nil legal]
    refine ⟨operation, recorded.operationFlags_of_other rfl rfl, recorded.newFlags_of_other rfl rfl,
      recorded.moveDest_of_other rfl rfl, recorded.copyDests_of_other rfl rfl, ?_,
      recorded.removedKeywords_of_other (by decide) rfl removed⟩
    intro _
    rw [added]
    exact legal
  | addKeywordToRemove keyword =>
    have removed :
        (Recording.apply (.ofRow key row) (.addKeywordToRemove keyword)).mdbRow.removedKeywords =
          keyword := by
      simp [Recording.apply, OfflineImapOperation.addKeywordToRemove,
        OfflineImapOperation.addKeyword, OfflineImapOperation.setOperation,
        OfflineImapOperation.ofRow, msgFindKeyword_nil legal]
    have added :
        (Recording.apply (.ofRow key row) (.addKeywordToRemove keyword)).mdbRow.addedKeywords =
          row.addedKeywords := by
      simp [Recording.apply, OfflineImapOperation.addKeywordToRemove,
        OfflineImapOperation.setOperation, OfflineImapOperation.ofRow, msgFindKeyword_nil legal]
    refine ⟨operation, recorded.operationFlags_of_other rfl rfl, recorded.newFlags_of_other rfl rfl,
      recorded.moveDest_of_other rfl rfl, recorded.copyDests_of_other rfl rfl,
      recorded.addedKeywords_of_other (by decide) rfl added, ?_⟩
    intro _
    rw [removed]
    exact legal
  | addMessageCopyOperation uri =>
    have stored : ((OfflineImapOperation.ofRow key row).setOperation .msgCopy).mdbRow.copyDests =
        [folderSepChar].intercalate (copyDestinationsOf recordings) := recorded.copyDests
    refine ⟨operation, recorded.operationFlags_of_other rfl rfl, recorded.newFlags_of_other rfl rfl,
      recorded.moveDest_of_other rfl rfl, ?_, recorded.addedKeywords_of_other (by decide) rfl rfl,
      recorded.removedKeywords_of_other (by decide) rfl rfl⟩
    show [folderSepChar].intercalate (((OfflineImapOperation.ofRow key row).setOperation
      .msgCopy).getCopiesFromDB.copyDestinations ++ [uri]) = _
    rw [getCopiesFromDB_of_intercalate copies stored, copyDestinationsOf_append]
    rfl
  | setDestinationFolderURI uri =>
    refine ⟨operation, recorded.operationFlags_of_other rfl rfl, recorded.newFlags_of_other rfl rfl,
      ?_, recorded.copyDests_of_other rfl rfl, recorded.addedKeywords_of_other (by decide) rfl rfl,
      recorded.removedKeywords_of_other (by decide) rfl rfl⟩
    intro last same
    rw [lastMove_append] at same
    exact Option.some.inj same

end RecordedRow

section Changes

variable {headerFlags : Nat → Option MessageFlags}

lemma changesOf_append (changes) (change : Nat × Recording) (key : Nat) :
    changesOf (changes ++ [change]) key =
      changesOf changes key ++ if change.1 = key then [change.2] else [] := by
  by_cases same : change.1 = key <;> simp [changesOf, same]

lemma recordChanges_append (changes) (change : Nat × Recording) :
    recordChanges headerFlags (changes ++ [change]) =
      recordChange headerFlags (recordChanges headerFlags changes) change := by
  rw [recordChanges, foldl_append]
  rfl

lemma mem_changesOf : recording ∈ changesOf changes key ↔ (key, recording) ∈ changes := by
  rw [changesOf, mem_filterMap]
  constructor
  · rintro ⟨⟨each, own⟩, mem, equal⟩
    split at equal
    · rename_i same
      rw [← Option.some.inj equal, ← same]
      exact mem
    · cases equal
  · intro mem
    exact ⟨(key, recording), mem, if_pos rfl⟩

lemma mem_copyDestinationsOf :
    uri ∈ copyDestinationsOf recordings ↔ .addMessageCopyOperation uri ∈ recordings := by
  rw [copyDestinationsOf, mem_filterMap]
  constructor
  · rintro ⟨recording, mem, same⟩
    cases recording with
    | addMessageCopyOperation own =>
      rw [← Option.some.inj same]
      exact mem
    | _ => cases same
  · intro mem
    exact ⟨_, mem, rfl⟩

/-- Every change is one that its callers record. -/
def LegalChanges (changes : List (Nat × Recording)) : Prop := ∀ change ∈ changes, change.2.Legal

lemma LegalChanges.copies (legal : LegalChanges changes) (key : Nat) :
    ∀ uri ∈ copyDestinationsOf (changesOf changes key), LegalDestination uri := by
  intro uri mem
  exact legal _ (mem_changesOf.mp (mem_copyDestinationsOf.mp mem))

/-- The rows of the recorded operations. -/
structure RecordedOps (changes : List (Nat × Recording)) (ops : OfflineOps) : Prop where
  distinct : ops.table.Nodup
  mem_table : ∀ key, key ∈ ops.table ↔ changesOf changes key ≠ []
  row : ∀ key, RecordedRow (changesOf changes key) (ops.row key)
  absent : ∀ key, key ∉ ops.table → ops.row key = OpRow.empty

namespace RecordedOps

lemma create (headerFlags : Nat → Option MessageFlags) (recorded : RecordedOps changes ops)
    (key : Nat) : ∃ row, (ops.createOfflineOpForKey headerFlags key).2 = .ofRow key row ∧
      RecordedRow (changesOf changes key) row := by
  by_cases mem : key ∈ ops.table
  · simp only [OfflineOps.createOfflineOpForKey, if_pos mem]
    exact ⟨ops.row key, rfl, recorded.row key⟩
  · have none : changesOf changes key = [] := by
      by_contra some
      exact mem ((recorded.mem_table key).mpr some)
    simp only [OfflineOps.createOfflineOpForKey, if_neg mem, recorded.absent key mem, none]
    cases headerFlags key with
    | none => exact ⟨OpRow.empty, rfl, RecordedRow.of_empty rfl rfl rfl⟩
    | some flags =>
      exact ⟨{ OpRow.empty with newFlags := flags }, rfl, RecordedRow.of_empty rfl rfl rfl⟩

lemma apply_messageKey (op : OfflineImapOperation) (recording : Recording) :
    (recording.apply op).messageKey = op.messageKey := by
  cases recording <;> rfl

lemma recordChange_eq (headerFlags : Nat → Option MessageFlags) (ops : OfflineOps) {row : OpRow}
    (recording : Recording)
    (created : (ops.createOfflineOpForKey headerFlags key).2 = .ofRow key row) :
    recordChange headerFlags ops (key, recording) =
      ⟨if key ∈ ops.table then ops.table else ops.table ++ [key],
        Function.update ops.row key (recording.apply (.ofRow key row)).mdbRow⟩ := by
  have same : ((recording.apply (.ofRow key row)).messageKey) = key :=
    apply_messageKey (.ofRow key row) recording
  simp only [recordChange, created, OfflineOps.setRow, same]
  by_cases mem : key ∈ ops.table <;> simp [OfflineOps.createOfflineOpForKey, mem]

lemma change (recorded : RecordedOps changes ops) (legal : LegalChanges changes)
    (change : Nat × Recording) (own : change.2.Legal) :
    RecordedOps (changes ++ [change]) (recordChange headerFlags ops change) := by
  obtain ⟨key, recording⟩ := change
  obtain ⟨row, created, held⟩ := recorded.create headerFlags key
  have applied := held.apply key (legal.copies key) own
  rw [recordChange_eq headerFlags ops recording created]
  have present : ∀ each, each ∈ (if key ∈ ops.table then ops.table else ops.table ++ [key]) ↔
      each = key ∨ each ∈ ops.table := by
    intro each
    by_cases mem : key ∈ ops.table
    · rw [if_pos mem]
      constructor
      · exact .inr
      · rintro (rfl | inTable)
        · exact mem
        · exact inTable
    · rw [if_neg mem, mem_append, mem_singleton]
      exact or_comm
  constructor
  · by_cases mem : key ∈ ops.table
    · simpa only [if_pos mem] using recorded.distinct
    · simp only [if_neg mem]
      exact recorded.distinct.append (nodup_singleton key) (by simpa using mem)
  · intro each
    rw [present, changesOf_append]
    by_cases same : key = each
    · simp [same]
    · simp [same, Ne.symm same, recorded.mem_table]
  · intro each
    rw [changesOf_append]
    by_cases same : key = each
    · subst same
      simpa using applied
    · simpa [same, Function.update_of_ne (Ne.symm same)] using recorded.row each
  · intro each missing
    rw [present, not_or] at missing
    show Function.update ops.row key _ each = _
    rw [Function.update_of_ne missing.1]
    exact recorded.absent each missing.2

end RecordedOps

lemma recordChanges_recorded (headerFlags : Nat → Option MessageFlags)
    (legal : LegalChanges changes) :
    RecordedOps changes (recordChanges headerFlags changes) := by
  induction changes using List.reverseRecOn with
  | nil =>
    constructor
    · exact nodup_nil
    · simp [recordChanges, OfflineOps.empty, changesOf]
    · intro key
      exact RecordedRow.of_empty rfl rfl rfl
    · intro key missing
      rfl
  | append_singleton changes change ih =>
    have earlier : LegalChanges changes := fun each mem => legal each (mem_append_left [change] mem)
    rw [recordChanges_append]
    exact (ih earlier).change earlier change (legal change (by simp))

end Changes

end CommCentral.Imap
