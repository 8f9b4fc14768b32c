import CommCentral.Imap.OfflinePhaseRun

/-! Every recorded change is played back once, and only if: the condition on the changes. -/
namespace CommCentral.Imap
open Lib OfflineSync List

/-- The type whose playback performs the action. -/
def PlaybackAction.type : PlaybackAction → OfflineOpType
  | setFlags _ => .flagsChanged
  | addKeywords _ => .addKeywords
  | removeKeywords _ => .removeKeywords
  | copyTo _ => .msgCopy
  | moveTo _ => .msgMoved
  | appendTo _ => .appendDraft

lemma PlaybackAction.type_mem (action : PlaybackAction) : action.type ∈ playbackOrder := by
  cases action <;> simp [PlaybackAction.type, playbackOrder]

section Counts

variable {rows : Nat → OpRow} {keys : List Nat} {type : OfflineOpType}

lemma type_playedArgument (recorded : type ∈ recordedTypes) (row) :
    (playedArgument type row).type = type := by
  simp only [recordedTypes, mem_cons, not_mem_nil, or_false] at recorded
  rcases recorded with rfl | rfl | rfl | rfl | rfl <;> rfl

lemma type_of_mem_handed
    (recorded : ∀ key ∈ keys, ∀ type ∈ (rows key).operation, type ∈ recordedTypes)
    (mem : (key, action) ∈ handed (batches [] (keys.map (playbackEntry rows type)))) :
    action.type = type := by
  by_cases known : type ∈ recordedTypes
  · obtain ⟨entry, inEntries, -, argument⟩ := exists_entry_of_mem_handed mem
    obtain ⟨own, -, rfl⟩ := mem_map.mp inEntries
    rw [← argument]
    exact type_playedArgument known (rows own)
  · have idle : ∀ entry ∈ keys.map (playbackEntry rows type), entry.due = false := by
      intro entry inEntries
      obtain ⟨own, inKeys, rfl⟩ := mem_map.mp inEntries
      exact decide_eq_false fun due => known (recorded own inKeys type due)
    rw [batches_eq_nil idle] at mem
    cases mem

/-- The messages that the playback of a type reaches when the types are played back. -/
def reached (rows : Nat → OpRow) (keys : List Nat) (types : List OfflineOpType)
    (type : OfflineOpType) : List Nat :=
  keys.takeWhile fun key => (rows key).Alive (types.dropWhile (· ≠ type))

lemma count_performedBy
    (recorded : ∀ key ∈ keys, ∀ type ∈ (rows key).operation, type ∈ recordedTypes)
    (distinct : types.Nodup) (listed : action.type ∈ types) :
    (performedBy rows keys types).count (key, action) =
      (handed (batches [] ((reached rows keys types action.type).map
        (playbackEntry rows action.type)))).count (key, action) := by
  have start : ∀ {test : Nat → Bool}, ∀ key ∈ keys.takeWhile test,
      ∀ type ∈ (rows key).operation, type ∈ recordedTypes := fun key mem =>
    recorded key (( takeWhile_prefix _).subset mem)
  have others : ∀ {types : List OfflineOpType}, action.type ∉ types →
      (performedBy rows keys types).count (key, action) = 0 := by
    intro types missing
    induction types with
    | nil => rfl
    | cons type later ih =>
      rw [mem_cons, not_or] at missing
      rw [performedBy, count_append, ih missing.2, Nat.add_zero, count_eq_zero]
      exact fun mem => missing.1 (type_of_mem_handed start mem)
  induction types with
  | nil => cases listed
  | cons type later ih =>
    obtain ⟨last, distinct⟩ := nodup_cons.mp distinct
    rw [performedBy, count_append]
    by_cases own : action.type = type
    · subst own
      rw [others last, Nat.add_zero, reached, dropWhile_cons_of_neg (by simp)]
    · have inLater : action.type ∈ later := (mem_cons.mp listed).resolve_left own
      have none : (handed (batches [] ((keys.takeWhile fun key =>
          (rows key).Alive (type :: later)).map (playbackEntry rows type)))).count
            (key, action) = 0 :=
        count_eq_zero.mpr fun mem => own (type_of_mem_handed start mem)
      rw [none, Nat.zero_add, ih distinct inLater, reached, reached,
        dropWhile_cons_of_pos (by simpa using Ne.symm own)]

/-- Whether the batches of a type perform each change of the messages once. -/
theorem count_handed_iff (distinct : keys.Nodup)
    (joins : ∀ key ∈ keys, joinsPlayback type (rows key) → type ∈ (rows key).operation) :
    (∀ key action, (handed (batches [] (keys.map (playbackEntry rows type)))).count (key, action) =
        if key ∈ keys ∧ type ∈ (rows key).operation ∧ action = playedArgument type (rows key)
        then 1 else 0) ↔ ¬ Repeats (keys.map (playbackEntry rows type)) := by
  have names := map_key_playbackEntry rows type keys
  rw [← handed_once_iff (names.symm ▸ distinct)]
  · constructor
    · intro once entry mem action
      obtain ⟨key, inKeys, rfl⟩ := mem_map.mp mem
      have count := once key action
      simp only [inKeys, true_and] at count
      simpa [playbackEntry] using count
    · intro once key action
      by_cases inKeys : key ∈ keys
      · have count := once (playbackEntry rows type key) (mem_map_of_mem inKeys) action
        simpa [playbackEntry, inKeys] using count
      · rw [if_neg fun all => inKeys all.1]
        apply count_handed_eq_zero
        rw [names]
        exact inKeys
  · intro entry mem
    obtain ⟨key, inKeys, rfl⟩ := mem_map.mp mem
    simpa [playbackEntry] using joins key inKeys

end Counts

/-- What the changes of a message ask for. A keyword list is what the row holds of it. -/
def Recorded (headerFlags : Nat → Option MessageFlags) (changes : List (Nat × Recording))
    (key : Nat) : PlaybackAction → Prop
  | .setFlags flags => lastFlags (changesOf changes key) = some flags
  | .addKeywords keywords =>
    (∃ recording ∈ changesOf changes key, recording.type = .addKeywords) ∧
      ((recordChanges headerFlags changes).row key).addedKeywords = keywords
  | .removeKeywords keywords =>
    (∃ recording ∈ changesOf changes key, recording.type = .removeKeywords) ∧
      ((recordChanges headerFlags changes).row key).removedKeywords = keywords
  | .copyTo uri => uri ∈ copyDestinationsOf (changesOf changes key)
  | .moveTo uri => lastMove (changesOf changes key) = some uri
  | .appendTo _ => False

instance (headerFlags : Nat → Option MessageFlags) (changes : List (Nat × Recording)) (key : Nat)
    (action : PlaybackAction) : Decidable (Recorded headerFlags changes key action) := by
  cases action <;> unfold Recorded <;> infer_instance

def Recording.destination : Recording → Option Uri
  | .addMessageCopyOperation uri | .setDestinationFolderURI uri => some uri
  | _ => none

/-- The changes are recorded on messages of the folder and their destination folders exist. -/
structure Playable (folder : PlaybackFolder) (changes : List (Nat × Recording)) : Prop where
  legal : LegalChanges changes
  headers : ∀ change ∈ changes, folder.hasHeader change.1
  folders : ∀ change ∈ changes, ∀ uri ∈ change.2.destination, (folder.findFolder uri).isSome

/-- The playback ends, every recorded change is performed once, no other action is, and no
message is copied after it has been moved. -/
def PlaysBackOnce (folder : PlaybackFolder) (headerFlags : Nat → Option MessageFlags)
    (changes : List (Nat × Recording)) : Prop :=
  ∃ performed, Performs folder (enterFolder (recordChanges headerFlags changes)) performed ∧
    (∀ key action, performed.count (key, action) =
      if Recorded headerFlags changes key action then 1 else 0) ∧
    ∀ key moved copied, ¬ [(key, PlaybackAction.moveTo moved), (key, .copyTo copied)].Sublist
      performed

def playbackPhase (type : OfflineOpType) : Nat := playbackOrder.idxOf type

/-- When the playback is complete: a message is copied to one folder only, every message
with a lower key has a change of the same or a later type, and no message with changed flags
is taken along by two batches. -/
structure PlaysCompletely (changes : List (Nat × Recording)) : Prop where
  copies : ∀ key, ∀ uri ∈ copyDestinationsOf (changesOf changes key),
    ∀ other ∈ copyDestinationsOf (changesOf changes key), uri = other
  order : ∀ first second, first < second → changesOf changes first ≠ [] →
    ∀ recording ∈ changesOf changes second, recording.type ≠ .flagsChanged →
      ∃ earlier ∈ changesOf changes first,
        playbackPhase recording.type ≤ playbackPhase earlier.type
  flags : ∀ first second third, first < second → second < third →
    ∀ flags, lastFlags (changesOf changes first) = some flags →
      lastFlags (changesOf changes second) = some flags →
      lastFlags (changesOf changes third) = some flags →
      SetsFlagBit (changesOf changes third) → SetsFlagBit (changesOf changes second)

section Rows

lemma exists_lastFlags (type : ∃ recording ∈ recordings, recording.type = .flagsChanged) :
    ∃ flags, lastFlags recordings = some flags := by
  obtain ⟨recording, mem, same⟩ := type
  rw [← Option.isSome_iff_exists, lastFlags, getLast?_isSome]
  intro none
  rw [filterMap_eq_nil_iff] at none
  have absent := none recording mem
  cases recording <;> simp_all [Recording.type]

lemma type_of_lastFlags (last : lastFlags recordings = some flags) :
    ∃ recording ∈ recordings, recording.type = .flagsChanged := by
  obtain ⟨recording, mem, same⟩ := mem_filterMap.mp (mem_of_getLast? last)
  refine ⟨recording, mem, ?_⟩
  cases recording <;> simp_all [Recording.type]

lemma exists_lastMove (type : ∃ recording ∈ recordings, recording.type = .msgMoved) :
    ∃ uri, lastMove recordings = some uri := by
  obtain ⟨recording, mem, same⟩ := type
  rw [← Option.isSome_iff_exists, lastMove, getLast?_isSome]
  intro none
  rw [filterMap_eq_nil_iff] at none
  have absent := none recording mem
  cases recording <;> simp_all [Recording.type]

lemma mem_of_lastMove (last : lastMove recordings = some uri) :
    .setDestinationFolderURI uri ∈ recordings := by
  obtain ⟨recording, mem, same⟩ := mem_filterMap.mp (mem_of_getLast? last)
  cases recording <;> simp_all

lemma exists_copyDestination (type : ∃ recording ∈ recordings, recording.type = .msgCopy) :
    ∃ uri, uri ∈ copyDestinationsOf recordings := by
  obtain ⟨recording, mem, same⟩ := type
  cases recording with
  | addMessageCopyOperation uri => exact ⟨uri, mem_copyDestinationsOf.mpr mem⟩
  | _ => cases same

end Rows

section Changes

variable {headerFlags : Nat → Option MessageFlags}

/-- The destination that the playback reads first is the first recorded one. -/
theorem getCopyDestination_recorded (legal : LegalChanges changes)
    (recorded : RecordedOps changes ops) :
    (OfflineImapOperation.ofRow 0 (ops.row key)).getCopyDestination
      0 = (copyDestinationsOf (changesOf changes key)).getD 0 [] := by
  have stored := (recorded.row key).copyDests
  rw [OfflineImapOperation.getCopyDestination,
    getCopiesFromDB_of_intercalate (legal.copies key) stored]

lemma recorded_iff (legal : LegalChanges changes) (other : action.type ≠ .msgCopy) :
    Recorded headerFlags changes key action ↔
      action.type ∈ ((recordChanges headerFlags changes).row key).operation ∧
        action = playedArgument action.type ((recordChanges headerFlags changes).row key) := by
  have row := (recordChanges_recorded headerFlags legal).row key
  rw [row.operation]
  cases action with
  | setFlags flags =>
    constructor
    · intro last
      exact ⟨type_of_lastFlags last, congrArg PlaybackAction.setFlags (row.newFlags flags last).symm⟩
    · rintro ⟨type, same⟩
      obtain ⟨last, found⟩ := exists_lastFlags type
      have equal := row.newFlags last found
      simp only [playedArgument, PlaybackAction.type, PlaybackAction.setFlags.injEq] at same
      rw [Recorded, found, same, equal]
  | addKeywords keywords =>
    simp only [Recorded, PlaybackAction.type, playedArgument, PlaybackAction.addKeywords.injEq]
    exact and_congr_right fun _ => eq_comm
  | removeKeywords keywords =>
    simp only [Recorded, PlaybackAction.type, playedArgument, PlaybackAction.removeKeywords.injEq]
    exact and_congr_right fun _ => eq_comm
  | copyTo uri => exact absurd rfl other
  | moveTo uri =>
    constructor
    · intro last
      exact ⟨⟨_, mem_of_lastMove last, rfl⟩,
        congrArg PlaybackAction.moveTo (row.moveDest uri last).symm⟩
    · rintro ⟨type, same⟩
      obtain ⟨last, found⟩ := exists_lastMove type
      have equal := row.moveDest last found
      simp only [playedArgument, PlaybackAction.type, PlaybackAction.moveTo.injEq] at same
      rw [Recorded, found, same, equal]
  | appendTo uri =>
    constructor
    · exact False.elim
    · rintro ⟨-, same⟩
      cases same

lemma copied_iff (legal : LegalChanges changes) (recorded : RecordedOps changes ops) :
    .msgCopy ∈ (ops.row key).operation ∧
        PlaybackAction.copyTo uri =
          playedArgument .msgCopy (ops.row key) ↔
      (copyDestinationsOf (changesOf changes key)).head? = some uri := by
  have row := recorded.row key
  rw [row.operation, playedArgument, PlaybackAction.copyTo.injEq,
    getCopyDestination_recorded legal recorded]
  cases copies : copyDestinationsOf (changesOf changes key) with
  | nil =>
    simp only [head?_nil, reduceCtorEq, iff_false, not_and]
    intro type
    obtain ⟨found, mem⟩ := exists_copyDestination type
    rw [copies] at mem
    cases mem
  | cons first rest =>
    have mem : first ∈ copyDestinationsOf (changesOf changes key) := by simp [copies]
    simp only [head?_cons, Option.some.injEq, getD_cons_zero]
    constructor
    · rintro ⟨-, same⟩
      exact same.symm
    · intro same
      exact ⟨⟨_, mem_copyDestinationsOf.mp mem, rfl⟩, same.symm⟩

lemma joins_of_recorded (recorded : RecordedOps changes ops) (type)
    (joins : joinsPlayback type (ops.row key)) : type ∈ (ops.row key).operation := by
  have row := recorded.row key
  cases type with
  | flagsChanged =>
    obtain ⟨recording, mem, flags, last, -⟩ := row.operationFlags.mp (of_decide_eq_true joins)
    rw [row.operation]
    refine ⟨recording, mem, ?_⟩
    obtain ⟨each, own, type⟩ := type_of_lastFlags last
    rw [← mem_singleton.mp own]
    exact type
  | _ => exact of_decide_eq_true joins

lemma recordedTypes_of_recorded (recorded : RecordedOps changes ops) (key : Nat) (type)
    (mem : type ∈ (ops.row key).operation) : type ∈ recordedTypes := by
  rw [(recorded.row key).operation] at mem
  obtain ⟨recording, -, rfl⟩ := mem
  cases recording <;> simp [Recording.type, recordedTypes]

lemma playableRow_of_playable (playable : Playable folder changes)
    (recorded : RecordedOps changes ops) (key : Nat) :
    PlayableRow folder (ops.row key) where
  types := recordedTypes_of_recorded recorded key
  addedKeywords := (recorded.row key).addedKeywords
  removedKeywords := (recorded.row key).removedKeywords
  copyFolder := by
    intro mem
    rw [(recorded.row key).operation] at mem
    obtain ⟨uri, inCopies⟩ := exists_copyDestination mem
    rw [getCopyDestination_recorded playable.legal recorded]
    cases copies : copyDestinationsOf (changesOf changes key) with
    | nil =>
      rw [copies] at inCopies
      cases inCopies
    | cons first rest =>
      have inFirst : first ∈ copyDestinationsOf (changesOf changes key) := by simp [copies]
      exact playable.folders _ (mem_changesOf.mp (mem_copyDestinationsOf.mp inFirst)) first rfl
  moveFolder := by
    intro mem
    have row := recorded.row key
    rw [row.operation] at mem
    obtain ⟨uri, last⟩ := exists_lastMove mem
    rw [row.moveDest uri last]
    exact playable.folders _ (mem_changesOf.mp (mem_of_lastMove last)) uri rfl

end Changes

section Playback

lemma playback_mono (plays : playback folder fuel sync = some commands) (le : fuel ≤ more) :
    playback folder more sync = some commands := by
  induction fuel generalizing more sync commands with
  | zero => cases plays
  | succ fuel ih =>
    obtain ⟨more, rfl⟩ : ∃ less, more = less + 1 :=
      Nat.exists_eq_add_one_of_ne_zero (Nat.ne_of_gt (Nat.lt_of_lt_of_le fuel.succ_pos le))
    have less := Nat.le_of_succ_le_succ le
    rw [playback] at plays ⊢
    cases outcome : sync.processNextOperation folder with
    | finished next =>
      simp only [outcome] at plays ⊢
      exact plays
    | again next =>
      simp only [outcome] at plays ⊢
      exact ih plays less
    | started command next =>
      simp only [outcome] at plays ⊢
      obtain ⟨later, found, rfl⟩ := Option.map_eq_some_iff.mp plays
      exact Option.map_eq_some_iff.mpr ⟨later, ih found less, rfl⟩

lemma Performs.unique (first : Performs folder sync left) (second : Performs folder sync right) :
    left = right := by
  obtain ⟨fuel, commands, plays, rfl⟩ := first
  obtain ⟨more, others, playsToo, rfl⟩ := second
  have same := (playback_mono plays (Nat.le_max_left fuel more)).symm.trans
    (playback_mono playsToo (Nat.le_max_right fuel more))
  rw [Option.some.inj same]

variable {headerFlags : Nat → Option MessageFlags}

lemma trashGhosts_recorded (recorded : RecordedOps changes ops) :
    trashGhosts ops = ops := by
  have kept : ∀ key, trashGhost ops key =
      ops := by
    intro key
    by_cases mem : key ∈ ops.table
    · have other : (OfflineImapOperation.ofRow key
          (ops.row key)).operation ≠ {.moveResult} := by
        intro ghost
        have inRow : .moveResult ∈ (ops.row key).operation := by
          have inGhost : OfflineOpType.moveResult ∈ ({.moveResult} : Finset OfflineOpType) := by
            decide
          rw [← ghost] at inGhost
          exact inGhost
        have recorded := recordedTypes_of_recorded recorded key .moveResult inRow
        revert recorded
        decide
      simp only [trashGhost, getOfflineOpForKey_of_mem mem, if_neg other]
    · simp only [trashGhost, getOfflineOpForKey_of_notMem mem]
  rw [trashGhosts]
  generalize ops.listAllOfflineOpIds = keys
  induction keys with
  | nil => rfl
  | cons key keys ih =>
    rw [foldl_cons, kept]
    exact ih

lemma mem_keys_iff (recorded : RecordedOps changes ops) :
    key ∈ ops.listAllOfflineOpIds ↔ changesOf changes key ≠ [] := by
  rw [OfflineOps.listAllOfflineOpIds, mem_insertionSort]
  exact recorded.mem_table key

lemma nodup_keys (recorded : RecordedOps changes ops) :
    ops.listAllOfflineOpIds.Nodup :=
  (perm_insertionSort _ _).nodup_iff.mpr recorded.distinct

lemma enterFolder_performs (playable : Playable folder changes)
    (recorded : RecordedOps changes ops) :
    Performs folder (enterFolder ops)
      (performedBy ops.row ops.listAllOfflineOpIds playbackOrder) := by
  have keyRecorded : ∀ key, key ∈ ops.listAllOfflineOpIds ↔
      changesOf changes key ≠ [] := fun key => mem_keys_iff recorded
  have alive : ∀ key ∈ ops.listAllOfflineOpIds,
      (ops.row key).Alive playbackOrder := by
    intro key mem
    obtain ⟨recording, inChanges⟩ := exists_mem_of_ne_nil _ ((keyRecorded key).mp mem)
    refine ⟨recording.type, ?_, (recorded.row key).operation _ |>.mpr ⟨recording, inChanges, rfl⟩⟩
    cases recording <;> simp [Recording.type, playbackOrder]
  have none : ops.listAllOfflineOpIds.dropWhile
      (fun key => (ops.row key).Alive playbackOrder) = [] := by
    apply dropWhile_eq_nil_iff.mpr
    simpa using alive
  rw [enterFolder, trashGhosts_recorded recorded]
  apply types_perform
  · intro key mem
    exact playableRow_of_playable playable recorded key
  · intro key mem
    obtain ⟨recording, inChanges⟩ := exists_mem_of_ne_nil _ ((keyRecorded key).mp mem)
    exact playable.headers _ (mem_changesOf.mp inChanges)
  · exact nodup_keys recorded
  · exact suffix_refl _
  · have start : ∀ key ∈ ops.listAllOfflineOpIds,
        key ∈ ops.table ∧
          ops.row key =
            (ops.row key).restrict playbackOrder := by
      intro key mem
      refine ⟨(mem_insertionSort _).mp mem, ?_⟩
      have full : (ops.row key).operation.filter
          (· ∈ playbackOrder) = (ops.row key).operation := by
        apply Finset.filter_true_of_mem
        intro type inRow
        have known := recordedTypes_of_recorded recorded key type inRow
        revert known
        cases type <;> decide
      rw [OpRow.restrict, full]
    constructor
    · intro key mem
      cases mem
    · intro key mem
      cases mem
    · intro key mem
      rw [if_neg (by simp [TakenAlong])]
      exact start key (( takeWhile_prefix _).subset mem)
    · intro key head
      have inRest : key ∈ (List.dropWhile (fun key => decide
          ((ops.row key).Alive playbackOrder))
            ops.listAllOfflineOpIds).head? := head
      rw [none] at inRest
      cases inRest

lemma count_performed (recorded : RecordedOps changes ops)
    (strict : action.type ≠ .flagsChanged) :
    (performedBy ops.row ops.listAllOfflineOpIds playbackOrder).count (key, action) =
      if key ∈ reached ops.row ops.listAllOfflineOpIds playbackOrder action.type ∧
        action.type ∈ (ops.row key).operation ∧
        action = playedArgument action.type (ops.row key)
      then 1 else 0 := by
  rw [count_performedBy (fun key _ => recordedTypes_of_recorded recorded key) (by decide)
    action.type_mem]
  have distinct : (reached ops.row ops.listAllOfflineOpIds playbackOrder action.type).Nodup :=
    (nodup_keys recorded).sublist ( takeWhile_prefix _).sublist
  apply (count_handed_iff distinct fun key _ => joins_of_recorded recorded action.type).mpr
  rintro ⟨first, second, third, sublist, -, due, alone, -⟩
  have mem : second ∈ (reached ops.row ops.listAllOfflineOpIds playbackOrder action.type).map
      (playbackEntry ops.row action.type) :=
    sublist.subset (by simp)
  obtain ⟨key, -, rfl⟩ := mem_map.mp mem
  have same : joinsPlayback action.type (ops.row key) =
      decide (action.type ∈ (ops.row key).operation) := by
    cases type : action.type <;> first | exact absurd type strict | rfl
  have joins : joinsPlayback action.type (ops.row key) = true := same.trans due
  rw [playbackEntry] at alone
  exact absurd joins (Bool.not_eq_true _ ▸ alone)

lemma pairwise_keys (recorded : RecordedOps changes ops) :
    ops.listAllOfflineOpIds.Pairwise (· < ·) := by
  have ordered : ops.listAllOfflineOpIds.Pairwise (· ≤ ·) := pairwise_insertionSort (· ≤ ·) _
  exact ordered.imp₂ (fun _ _ le ne => Nat.lt_of_le_of_ne le ne) (nodup_keys recorded)

/-- In a sorted list a start reaches an element when everything up to it passes the test. -/
theorem mem_takeWhile_iff {keys : List Nat} (sorted : keys.Pairwise (· < ·)) (test : Nat → Bool) :
    key ∈ keys.takeWhile test ↔ key ∈ keys ∧ ∀ other ∈ keys, other ≤ key → test other := by
  induction keys with
  | nil => simp
  | cons first keys ih =>
    obtain ⟨above, sorted⟩ := pairwise_cons.mp sorted
    rw [takeWhile_cons]
    cases passes : test first with
    | false =>
      simp only [Bool.false_eq_true, if_false, not_mem_nil, false_iff, not_and]
      intro mem all
      have le : first ≤ key := by
        cases mem_cons.mp mem with
        | inl same => exact Nat.le_of_eq same.symm
        | inr later => exact Nat.le_of_lt (above key later)
      rw [all first mem_cons_self le] at passes
      cases passes
    | true =>
      simp only [if_true, mem_cons, ih sorted]
      constructor
      · rintro (rfl | ⟨mem, all⟩)
        · refine ⟨.inl rfl, ?_⟩
          rintro other (rfl | later) le
          · exact passes
          · exact absurd (above other later) (Nat.not_lt.mpr le)
        · refine ⟨.inr mem, ?_⟩
          rintro other (rfl | later) le
          · exact passes
          · exact all other later le
      · rintro ⟨same | mem, all⟩
        · exact .inl same
        · exact .inr ⟨mem, fun other later => all other (.inr later)⟩

lemma mem_dropWhile_iff {type other : OfflineOpType} (known : type ∈ recordedTypes)
    (otherKnown : other ∈ recordedTypes) :
    other ∈ playbackOrder.dropWhile (· ≠ type) ↔ playbackPhase type ≤ playbackPhase other := by
  revert known otherKnown
  cases type <;> cases other <;> decide

lemma mem_reached_iff (recorded : RecordedOps changes ops) {type : OfflineOpType}
    (mem : type ∈ (ops.row key).operation) :
    key ∈ reached ops.row ops.listAllOfflineOpIds playbackOrder type ↔
      ∀ first < key, changesOf changes first ≠ [] → ∃ earlier ∈ changesOf changes first,
        playbackPhase type ≤ playbackPhase earlier.type := by
  have known := recordedTypes_of_recorded recorded key type mem
  have alive : ∀ first, (ops.row first).Alive
      (playbackOrder.dropWhile (· ≠ type)) ↔ ∃ earlier ∈ changesOf changes first,
        playbackPhase type ≤ playbackPhase earlier.type := by
    intro first
    have row := recorded.row first
    constructor
    · rintro ⟨other, listed, inRow⟩
      have otherKnown := recordedTypes_of_recorded recorded first other inRow
      obtain ⟨earlier, inChanges, rfl⟩ := (row.operation other).mp inRow
      exact ⟨earlier, inChanges, (mem_dropWhile_iff known otherKnown).mp listed⟩
    · rintro ⟨earlier, inChanges, le⟩
      have inRow := (row.operation earlier.type).mpr ⟨earlier, inChanges, rfl⟩
      have otherKnown := recordedTypes_of_recorded recorded first earlier.type inRow
      exact ⟨earlier.type, (mem_dropWhile_iff known otherKnown).mpr le, inRow⟩
  have own : ∃ earlier ∈ changesOf changes key, playbackPhase type ≤ playbackPhase earlier.type := by
    obtain ⟨recording, inChanges, rfl⟩ := ((recorded.row key).operation type).mp mem
    exact ⟨recording, inChanges, Nat.le_refl _⟩
  rw [reached, mem_takeWhile_iff (pairwise_keys recorded)]
  simp only [decide_eq_true_iff, alive, mem_keys_iff recorded]
  constructor
  · rintro ⟨-, all⟩ first lt recorded
    exact all first recorded (Nat.le_of_lt lt)
  · intro all
    refine ⟨?_, ?_⟩
    · obtain ⟨recording, inChanges, -⟩ := own
      exact ne_nil_of_mem inChanges
    · intro first recorded le
      cases Nat.lt_or_eq_of_le le with
      | inl lt => exact all first lt recorded
      | inr same => exact same ▸ own

lemma triple_sublist_iff {keys : List Nat} (sorted : keys.Pairwise (· < ·)) :
    [first, second, third].Sublist keys ↔
      (first < second ∧ second < third) ∧ first ∈ keys ∧ second ∈ keys ∧ third ∈ keys := by
  constructor
  · intro sublist
    have ordered := sorted.sublist sublist
    simp only [pairwise_cons, mem_cons, not_mem_nil, or_false] at ordered
    exact ⟨⟨ordered.1 second (.inl rfl), ordered.2.1 third rfl⟩, sublist.subset (by simp),
      sublist.subset (by simp), sublist.subset (by simp)⟩
  · rintro ⟨⟨lt12, lt23⟩, in1, in2, in3⟩
    have ordered : [first, second, third].Pairwise (· < ·) := by
      simp [lt12, lt23, Nat.lt_trans lt12 lt23]
    have subset : [first, second, third] ⊆ keys := by
      intro each mem
      simp only [mem_cons, not_mem_nil, or_false] at mem
      rcases mem with rfl | rfl | rfl
      · exact in1
      · exact in2
      · exact in3
    have distinct : [first, second, third].Nodup := ordered.imp Nat.ne_of_lt
    have asymm : ∀ left right : Nat, left < right → ¬ right < left :=
      fun _ _ lt gt => Nat.lt_asymm lt gt
    exact sublist_of_subperm_of_pairwise (subperm_of_subset distinct subset) ordered sorted

lemma flagsChanged_iff (recorded : RecordedOps changes ops) :
    .flagsChanged ∈ (ops.row key).operation ↔
      lastFlags (changesOf changes key) =
        some (ops.row key).newFlags := by
  have row := recorded.row key
  rw [row.operation]
  constructor
  · intro type
    obtain ⟨flags, last⟩ := exists_lastFlags type
    rw [last, row.newFlags flags last]
  · exact type_of_lastFlags

/-- Whether some message with changed flags is taken along twice. -/
theorem repeats_flags_iff (recorded : RecordedOps changes ops) :
    Repeats (ops.listAllOfflineOpIds.map
        (playbackEntry ops.row .flagsChanged)) ↔
      ∃ first second third flags, first < second ∧ second < third ∧
        lastFlags (changesOf changes first) = some flags ∧
        lastFlags (changesOf changes second) = some flags ∧
        lastFlags (changesOf changes third) = some flags ∧
        SetsFlagBit (changesOf changes third) ∧ ¬ SetsFlagBit (changesOf changes second) := by
  have sorted : ops.listAllOfflineOpIds.Pairwise (· < ·) := pairwise_keys recorded
  have rows := recorded.row
  constructor
  · rintro ⟨_, _, _, sublist, due1, due2, alone, joins, same12, same23⟩
    obtain ⟨list, inKeys, equal⟩ := sublist_map_iff.mp sublist
    obtain ⟨first, second, third, rfl⟩ : ∃ first second third, list = [first, second, third] := by
      rcases list with _ | ⟨first, _ | ⟨second, _ | ⟨third, _ | ⟨fourth, rest⟩⟩⟩⟩
      · cases equal
      · cases equal
      · cases equal
      · exact ⟨first, second, third, rfl⟩
      · cases equal
    simp only [map_cons, map_nil, List.cons.injEq, and_true] at equal
    obtain ⟨rfl, rfl, rfl⟩ := equal
    obtain ⟨⟨lt12, lt23⟩, -⟩ := (triple_sublist_iff sorted).mp inKeys
    have last1 := (flagsChanged_iff recorded).mp (of_decide_eq_true due1)
    have last2 := (flagsChanged_iff recorded).mp (of_decide_eq_true due2)
    have last3 := (flagsChanged_iff recorded).mp (joins_of_recorded recorded .flagsChanged joins)
    simp only [playbackEntry, playedArgument, PlaybackAction.setFlags.injEq] at same12 same23
    refine ⟨first, second, third, _, lt12, lt23, last1, ?_, ?_, ?_, ?_⟩
    · rw [last2, same12]
    · rw [last3, same12, same23]
    · exact (rows third).operationFlags.mp (of_decide_eq_true joins)
    · rw [← (rows second).operationFlags]
      exact of_decide_eq_false alone
  · rintro ⟨first, second, third, flags, lt12, lt23, last1, last2, last3, bit, noBit⟩
    have listed : ∀ key, lastFlags (changesOf changes key) = some flags →
        key ∈ ops.listAllOfflineOpIds := by
      intro key last
      rw [mem_keys_iff recorded]
      obtain ⟨recording, mem, -⟩ := type_of_lastFlags last
      exact ne_nil_of_mem mem
    have sublist := (triple_sublist_iff sorted).mpr
      ⟨⟨lt12, lt23⟩, listed first last1, listed second last2, listed third last3⟩
    have argument : ∀ key, lastFlags (changesOf changes key) = some flags →
        (playbackEntry ops.row .flagsChanged key).argument =
          .setFlags flags :=
      fun key last => congrArg PlaybackAction.setFlags ((rows key).newFlags flags last)
    have due : ∀ key, lastFlags (changesOf changes key) = some flags →
        (playbackEntry ops.row .flagsChanged key).due = true :=
      fun key last => decide_eq_true (((rows key).operation _).mpr (type_of_lastFlags last))
    refine ⟨_, _, _, sublist.map _, due first last1, due second last2, ?_, ?_,
      (argument first last1).trans (argument second last2).symm,
      (argument second last2).trans (argument third last3).symm⟩
    · exact decide_eq_false (fun changed => noBit ((rows second).operationFlags.mp changed))
    · exact decide_eq_true ((rows third).operationFlags.mpr bit)

lemma count_performed_flags (recorded : RecordedOps changes ops)
    (flags : action.type = .flagsChanged) :
    (performedBy ops.row ops.listAllOfflineOpIds playbackOrder).count (key, action) =
      (handed (batches [] (ops.listAllOfflineOpIds.map
        (playbackEntry ops.row .flagsChanged)))).count
          (key, action) := by
  have all : reached ops.row ops.listAllOfflineOpIds playbackOrder .flagsChanged =
        ops.listAllOfflineOpIds := by
    apply takeWhile_eq_self_iff.mpr
    intro key mem
    obtain ⟨recording, inChanges⟩ := exists_mem_of_ne_nil _ ((mem_keys_iff recorded).mp mem)
    have inRow := ((recorded.row key).operation
      recording.type).mpr ⟨recording, inChanges, rfl⟩
    have known := recordedTypes_of_recorded recorded key recording.type inRow
    have first : playbackPhase .flagsChanged = 0 := rfl
    apply decide_eq_true
    refine ⟨recording.type, (mem_dropWhile_iff (by decide) known).mpr ?_, inRow⟩
    rw [first]
    exact Nat.zero_le _
  rw [count_performedBy (fun key _ => recordedTypes_of_recorded recorded key) (by decide)
    action.type_mem, flags, all]

lemma exists_recorded (legal : LegalChanges changes) {type : OfflineOpType}
    (mem : type ∈ ((recordChanges headerFlags changes).row key).operation) :
    Recorded headerFlags changes key
      (playedArgument type ((recordChanges headerFlags changes).row key)) := by
  have recorded := recordChanges_recorded headerFlags legal
  have known := recordedTypes_of_recorded recorded key type mem
  have own := type_playedArgument known ((recordChanges headerFlags changes).row key)
  by_cases copy : type = .msgCopy
  · subst copy
    have head := (copied_iff legal recorded).mp ⟨mem, rfl⟩
    exact mem_of_mem_head? head
  · apply (recorded_iff legal (own.symm ▸ copy)).mpr
    rw [own]
    exact ⟨mem, rfl⟩

lemma copies_before_moves (recorded : RecordedOps changes ops) (key : Nat) (moved copied : Uri) :
    ¬ [(key, PlaybackAction.moveTo moved), (key, .copyTo copied)].Sublist
      (performedBy ops.row ops.listAllOfflineOpIds playbackOrder) := by
  have recorded : ∀ {test : Nat → Bool},
      ∀ key ∈ ops.listAllOfflineOpIds.takeWhile test,
        ∀ type ∈ (ops.row key).operation, type ∈ recordedTypes :=
    fun key _ => recordedTypes_of_recorded recorded key
  have early : ∀ action : PlaybackAction, ∀ types : List OfflineOpType, action.type ∉ types →
      (key, action) ∉ performedBy ops.row ops.listAllOfflineOpIds types := by
    intro action types missing
    induction types with
    | nil => exact not_mem_nil
    | cons type later ih =>
      rw [mem_cons, not_or] at missing
      rw [performedBy, mem_append, not_or]
      exact ⟨fun mem => missing.1 (type_of_mem_handed recorded mem), ih missing.2⟩
  have shift : ∀ {type : OfflineOpType} {later : List OfflineOpType}, type ≠ .msgMoved →
      [(key, PlaybackAction.moveTo moved), (key, .copyTo copied)].Sublist
        (performedBy ops.row ops.listAllOfflineOpIds (type :: later)) →
      [(key, PlaybackAction.moveTo moved), (key, .copyTo copied)].Sublist
        (performedBy ops.row ops.listAllOfflineOpIds later) := by
    intro type later other sublist
    rw [performedBy, sublist_append_iff] at sublist
    obtain ⟨start, rest, split, inType, inLater⟩ := sublist
    cases start with
    | nil => exact split ▸ inLater
    | cons action start =>
      rw [cons_append, List.cons.injEq] at split
      have mem : (key, PlaybackAction.moveTo moved) ∈ _ := inType.subset (split.1 ▸ mem_cons_self)
      exact absurd (type_of_mem_handed recorded mem).symm other
  intro sublist
  have moves := shift (by decide) (shift (by decide) (shift (by decide) (shift (by decide) sublist)))
  exact early (.copyTo copied) _ (by simp [PlaybackAction.type]) (moves.subset (by simp))

lemma mem_keys_of_mem_operation (recorded : RecordedOps changes ops) {type : OfflineOpType}
    (mem : type ∈ (ops.row key).operation) :
    key ∈ ops.listAllOfflineOpIds := by
  obtain ⟨recording, inChanges, -⟩ := ((recorded.row key).operation type).mp mem
  exact (mem_keys_iff recorded).mpr (ne_nil_of_mem inChanges)

/-- New flags are performed once if and only if no message is taken along twice. -/
theorem flags_once_iff (playable : Playable folder changes) :
    (∀ key action, action.type = .flagsChanged →
      (performedBy (recordChanges headerFlags changes).row
        (recordChanges headerFlags changes).listAllOfflineOpIds playbackOrder).count (key, action) =
          if Recorded headerFlags changes key action then 1 else 0) ↔
      ¬ Repeats ((recordChanges headerFlags changes).listAllOfflineOpIds.map
        (playbackEntry (recordChanges headerFlags changes).row .flagsChanged)) := by
  have recorded := recordChanges_recorded headerFlags playable.legal
  have meaning : ∀ key action, action.type = .flagsChanged →
      (Recorded headerFlags changes key action ↔
        key ∈ (recordChanges headerFlags changes).listAllOfflineOpIds ∧
          .flagsChanged ∈ ((recordChanges headerFlags changes).row key).operation ∧
          action = playedArgument .flagsChanged ((recordChanges headerFlags changes).row key)) := by
    intro key action type
    rw [recorded_iff playable.legal (by rw [type]; decide), type]
    constructor
    · rintro ⟨mem, same⟩
      exact ⟨mem_keys_of_mem_operation recorded mem, mem, same⟩
    · exact And.right
  rw [← count_handed_iff (nodup_keys recorded) fun key _ =>
    joins_of_recorded recorded .flagsChanged]
  constructor
  · intro once key action
    by_cases type : action.type = .flagsChanged
    · rw [← count_performed_flags recorded type, once key action type]
      simp only [meaning key action type]
    · rw [if_neg]
      · apply count_eq_zero.mpr
        intro mem
        exact type (type_of_mem_handed
          (fun key _ => recordedTypes_of_recorded recorded key) mem)
      · rintro ⟨-, -, rfl⟩
        exact type rfl
  · intro once key action type
    rw [count_performed_flags recorded type, once key action]
    simp only [meaning key action type]

lemma strict_once_iff (playable : Playable folder changes)
    (strict : action.type ≠ .flagsChanged) :
    ((performedBy (recordChanges headerFlags changes).row
        (recordChanges headerFlags changes).listAllOfflineOpIds playbackOrder).count (key, action) =
          if Recorded headerFlags changes key action then 1 else 0) ↔
      (Recorded headerFlags changes key action ↔
        key ∈ reached (recordChanges headerFlags changes).row
            (recordChanges headerFlags changes).listAllOfflineOpIds playbackOrder action.type ∧
          action.type ∈ ((recordChanges headerFlags changes).row key).operation ∧
          action = playedArgument action.type ((recordChanges headerFlags changes).row key)) := by
  have recordedOps := recordChanges_recorded headerFlags playable.legal
  rw [count_performed recordedOps strict]
  by_cases recorded : Recorded headerFlags changes key action
  · simp [recorded]
  · simp [recorded]

/-- The changes are played back once if and only if no message is copied to two folders,
waits behind one without a change of its phase, or is taken along twice. -/
theorem playsBackOnce_iff (playable : Playable folder changes) :
    PlaysBackOnce folder headerFlags changes ↔ PlaysCompletely changes := by
  have recordedOps := recordChanges_recorded headerFlags playable.legal
  have performs := enterFolder_performs playable recordedOps
  constructor
  · rintro ⟨performed, own, once, -⟩
    obtain rfl := own.unique performs
    constructor
    · have first : ∀ key, ∀ uri ∈ copyDestinationsOf (changesOf changes key),
          (copyDestinationsOf (changesOf changes key)).head? = some uri := by
        intro key uri mem
        have strict : (PlaybackAction.copyTo uri).type ≠ .flagsChanged := by
          simp [PlaybackAction.type]
        have played := ((strict_once_iff playable strict).mp (once key (.copyTo uri))).mp mem
        exact (copied_iff playable.legal recordedOps).mp played.2
      intro key uri mem other otherMember
      exact Option.some.inj ((first key uri mem).symm.trans (first key other otherMember))
    · intro first second lt recorded recording mem strict
      have inRow := ((recordedOps.row second).operation
        recording.type).mpr ⟨recording, mem, rfl⟩
      have own := type_playedArgument (recordedTypes_of_recorded recordedOps second _ inRow)
        ((recordChanges headerFlags changes).row second)
      have played := ((strict_once_iff playable (own.symm ▸ strict)).mp (once second _)).mp
        (exists_recorded playable.legal inRow)
      rw [own] at played
      exact (mem_reached_iff recordedOps inRow).mp played.1 first lt recorded
    · intro first second third lt12 lt23 flags last1 last2 last3 bit
      by_contra noBit
      apply (flags_once_iff playable).mp fun key action _ => once key action
      exact (repeats_flags_iff recordedOps).mpr
        ⟨first, second, third, flags, lt12, lt23, last1, last2, last3, bit, noBit⟩
  · intro complete
    refine ⟨_, performs, ?_, copies_before_moves recordedOps⟩
    intro key action
    by_cases flags : action.type = .flagsChanged
    · apply (flags_once_iff playable).mpr _ key action flags
      intro repeats
      obtain ⟨first, second, third, flags, lt12, lt23, last1, last2, last3, bit, noBit⟩ :=
        (repeats_flags_iff recordedOps).mp repeats
      exact noBit (complete.flags first second third lt12 lt23 flags last1 last2 last3 bit)
    · rw [strict_once_iff playable flags]
      have reaches : action.type ∈ ((recordChanges headerFlags changes).row key).operation →
          key ∈ reached (recordChanges headerFlags changes).row
            (recordChanges headerFlags changes).listAllOfflineOpIds playbackOrder action.type := by
        intro inRow
        apply (mem_reached_iff recordedOps inRow).mpr
        intro first lt recorded
        obtain ⟨recording, mem, type⟩ := ((recordedOps.row key).operation _).mp inRow
        rw [← type] at flags ⊢
        exact complete.order first key lt recorded recording mem flags
      by_cases copy : action.type = .msgCopy
      · cases action with
        | copyTo uri =>
          constructor
          · intro mem
            cases copies : copyDestinationsOf (changesOf changes key) with
            | nil =>
              rw [Recorded, copies] at mem
              cases mem
            | cons head rest =>
              have same := complete.copies key uri mem head (by simp [copies])
              have first : (copyDestinationsOf (changesOf changes key)).head? = some uri := by
                rw [copies, same]
                rfl
              have played : .msgCopy ∈ ((recordChanges headerFlags changes).row key).operation ∧ _ :=
                (copied_iff playable.legal recordedOps).mpr first
              exact ⟨reaches played.1, played⟩
          · rintro ⟨-, played⟩
            exact mem_of_mem_head? ((copied_iff playable.legal recordedOps).mp played)
        | _ => cases copy
      · rw [recorded_iff playable.legal copy]
        constructor
        · intro played
          exact ⟨reaches played.1, played⟩
        · exact And.right

theorem playsBackOnce_iff_flagsAndMove :
    Playable ⟨fun _ => some true, fun _ => true⟩
        [(1, .setFlagOperation 0x1), (1, .setDestinationFolderURI ['a']),
          (2, .addMessageCopyOperation ['b'])] ∧
      (PlaysBackOnce ⟨fun _ => some true, fun _ => true⟩ (fun _ => none)
          [(1, .setFlagOperation 0x1), (1, .setDestinationFolderURI ['a']),
            (2, .addMessageCopyOperation ['b'])] ↔
        PlaysCompletely [(1, .setFlagOperation 0x1), (1, .setDestinationFolderURI ['a']),
          (2, .addMessageCopyOperation ['b'])]) := by
  have playable : Playable ⟨fun _ => some true, fun _ => true⟩
      [(1, .setFlagOperation 0x1), (1, .setDestinationFolderURI ['a']),
        (2, .addMessageCopyOperation ['b'])] := by
    constructor
    · intro change mem
      revert change
      decide
    · intro change mem
      rfl
    · intro change mem uri destination
      rfl
  exact ⟨playable, playsBackOnce_iff playable⟩

/-- A move of message 2 is lost: the operation of message 1, which has nothing left after
its flags, ends the search of every later type. -/
theorem move_not_played_back :
    ¬ PlaysBackOnce ⟨fun _ => some true, fun _ => true⟩ (fun _ => none)
      [(1, .setFlagOperation 0x1), (2, .setDestinationFolderURI ['a'])] := by
  rintro ⟨performed, own, once, -⟩
  have plays : Performs ⟨fun _ => some true, fun _ => true⟩ (enterFolder
      (recordChanges (fun _ => none)
        [(1, .setFlagOperation 0x1), (2, .setDestinationFolderURI ['a'])]))
        [(1, .setFlags 0x1)] := ⟨4, [.setImapFlags [1] 0x1], by decide, rfl⟩
  obtain rfl := own.unique plays
  have count := once 2 (.moveTo ['a'])
  revert count
  decide

end Playback

end CommCentral.Imap
