import CommCentral.Imap.OfflinePhase
import Mathlib.Data.List.Infix
import Mathlib.Data.List.TakeWhile

/-! The run of one type's playback, and of all types one after another. -/
namespace CommCentral.Imap
open Lib OfflineSync List

variable {rows : Nat → OpRow} {type : OfflineOpType} {visited waiting rest keys : List Nat}
  {started : List PlaybackAction} {ops : OfflineOps}

/-- An earlier batch has taken the message along. -/
def TakenAlong (rows : Nat → OpRow) (type : OfflineOpType) (started : List PlaybackAction)
    (key : Nat) : Prop :=
  joinsPlayback type (rows key) = true ∧ playedArgument type (rows key) ∈ started

instance : Decidable (TakenAlong rows type started key) := inferInstanceAs (Decidable (_ ∧ _))

/-- Where the playback of a type stands: what the `later` types need of the visited messages
is left, the waiting messages still have this type unless a batch has taken them along, and
the first of the rest has no operation. -/
structure Phase (rows : Nat → OpRow) (type : OfflineOpType) (later : List OfflineOpType)
    (visited waiting rest : List Nat) (started : List PlaybackAction) (ops : OfflineOps) :
    Prop where
  kept : ∀ key ∈ visited, (rows key).Alive later →
    key ∈ ops.table ∧ ops.row key = (rows key).restrict later
  removed : ∀ key ∈ visited, ¬ (rows key).Alive later → key ∉ ops.table
  waiting : ∀ key ∈ waiting, key ∈ ops.table ∧ ops.row key =
    (rows key).restrict (if TakenAlong rows type started key then later else type :: later)
  blocked : ∀ key ∈ rest.head?, key ∉ ops.table

section Visit

lemma visit_eq_self (row : ops.row key = (rows key).restrict later)
    (alive : (rows key).Alive later) : ops.visit key = ops := by
  rw [OfflineOps.visit, if_neg]
  rw [row, OpRow.restrict_eq_empty_iff]
  exact not_not_intro alive

lemma visit_eq_remove (row : ops.row key = (rows key).restrict later)
    (dead : ¬ (rows key).Alive later) :
    ops.visit key = ops.removeOfflineOp (.ofRow key (ops.row key)) := by
  rw [OfflineOps.visit, if_pos]
  rw [row, OpRow.restrict_eq_empty_iff]
  exact dead

lemma mem_table_visit (differs : other ≠ key) :
    other ∈ (ops.visit key).table ↔ other ∈ ops.table := by
  rw [OfflineOps.visit]
  split
  · simp [OfflineOps.removeOfflineOp, OfflineImapOperation.ofRow, differs]
  · rfl

lemma row_visit (differs : other ≠ key) : (ops.visit key).row other = ops.row other := by
  rw [OfflineOps.visit]
  split
  · exact Function.update_of_ne differs _ _
  · rfl

lemma Phase.visit (phase : Phase rows type later visited waiting rest started ops)
    (mem : key ∈ ops.table) (row : ops.row key = (rows key).restrict later)
    (fresh : key ∉ visited ++ waiting ++ rest) :
    Phase rows type later (visited ++ [key]) waiting rest started (ops.visit key) := by
  simp only [mem_append, not_or] at fresh
  have others : ∀ {list : List Nat} {other : Nat}, key ∉ list → other ∈ list → other ≠ key := by
    intro list other missing present same
    exact missing (same ▸ present)
  constructor
  · intro other inVisited alive
    rw [mem_append, mem_singleton] at inVisited
    cases inVisited with
    | inl before =>
      have differs := others fresh.1.1 before
      rw [mem_table_visit differs, row_visit differs]
      exact phase.kept other before alive
    | inr same =>
      subst same
      rw [visit_eq_self row alive]
      exact ⟨mem, row⟩
  · intro other inVisited dead
    rw [mem_append, mem_singleton] at inVisited
    cases inVisited with
    | inl before =>
      rw [mem_table_visit (others fresh.1.1 before)]
      exact phase.removed other before dead
    | inr same =>
      subst same
      rw [visit_eq_remove row dead]
      simp [OfflineOps.removeOfflineOp, OfflineImapOperation.ofRow]
  · intro other inWaiting
    have differs := others fresh.1.2 inWaiting
    rw [mem_table_visit differs, row_visit differs]
    exact phase.waiting other inWaiting
  · intro other inRest
    rw [mem_table_visit (others fresh.2 (mem_of_mem_head? inRest))]
    exact phase.blocked other inRest

end Visit

section Batch

lemma batch_test_eq_follows (last : type ∉ later)
    (starts : (playbackEntry rows type starter).starts started = true) (row : ops.row other = (rows
      other).restrict (if TakenAlong rows type started other then later else type :: later)) :
    (joinsPlayback type (ops.row other) && decide (playedArgument type (ops.row other) =
        playedArgument type (rows starter))) =
      (playbackEntry rows type other).follows (playedArgument type (rows starter)) := by
  rw [row, playedArgument_restrict]
  by_cases same : playedArgument type (rows other) = playedArgument type (rows starter)
  · have joined : joinsPlayback type ((rows other).restrict
        (if TakenAlong rows type started other then later else type :: later)) =
          joinsPlayback type (rows other) := by
      by_cases flags : type = .flagsChanged
      · subst flags
        rfl
      · have strict : ∀ row : OpRow, joinsPlayback type row = decide (type ∈ row.operation) := by
          intro row
          cases type <;> first | exact absurd rfl flags | rfl
        have fresh : ¬ TakenAlong rows type started other := by
          rintro ⟨joins, early⟩
          have due : type ∈ (rows starter).operation := by
            simp only [Entry.starts, playbackEntry, Bool.and_eq_true, decide_eq_true_eq] at starts
            exact starts.1
          rw [same] at early
          simp [Entry.starts, playbackEntry, strict, due, early] at starts
        rw [if_neg fresh, strict, strict]
        simp [OpRow.restrict]
    rw [joined]
    rfl
  · simp [Entry.follows, playbackEntry, same]

section

variable (last : type ∉ later)
  (phase : Phase rows type later visited (key :: waiting) rest started ops)
include last phase

lemma map_messageKey_collect (same : keys = visited ++ key :: waiting ++ rest)
    (starts : (playbackEntry rows type key).starts started = true)
    {test : OfflineImapOperation → Bool} (tests : ∀ other otherRow, test (.ofRow other otherRow) =
      (joinsPlayback type otherRow && decide (playedArgument type otherRow = playedArgument type
      (rows key)))) :
    (collect ⟨ops, keys, visited.length, type, []⟩ (.ofRow key (ops.row key)) test).map
        (·.messageKey) =
      key :: ((waiting.map (playbackEntry rows type)).filter
        (Entry.follows (playedArgument type (rows key)))).map Entry.key := by
  have drop : keys.drop (visited.length + 1) = waiting ++ rest := by
    simp [same]
  have found := matchingOps_append test (fun other mem =>
    (phase.waiting other (mem_cons_of_mem key mem)).1) phase.blocked
  have filter : (waiting.filter fun other => test (.ofRow other (ops.row other))) =
      waiting.filter (Entry.follows (playedArgument type (rows key)) ∘ playbackEntry rows type) := by
    apply filter_congr
    intro other mem
    rw [tests]
    exact batch_test_eq_follows last starts
      (phase.waiting other (mem_cons_of_mem key mem)).2
  rw [collect, drop, found, filter, map_cons, map_map, filter_map, map_map]
  rfl

/-- Clearing the batch of the first waiting message and passing over the message. -/
theorem Phase.batch (distinct : (visited ++ key :: waiting ++ rest).Nodup)
    (starts : (playbackEntry rows type key).starts started = true)
    (table : cleared.table = ops.table) (row : ∀ other, cleared.row other = if other ∈ key ::
      ((waiting.map (playbackEntry rows type)).filter (Entry.follows (playedArgument type (rows
      key)))).map Entry.key then (ops.row other).clear type else ops.row other) :
    cleared.row key = (rows key).restrict later ∧
      Phase rows type later visited waiting rest (playedArgument type (rows key) :: started)
        cleared := by
  have inBatch : ∀ other, other ∈ ((waiting.map (playbackEntry rows type)).filter
      (Entry.follows (playedArgument type (rows key)))).map Entry.key ↔ other ∈ waiting ∧
        joinsPlayback type (rows other) = true ∧
          playedArgument type (rows other) = playedArgument type (rows key) := by
    intro other
    simp [Entry.follows, playbackEntry, and_assoc]
  obtain ⟨-, tail, apart⟩ := nodup_append.mp (nodup_append.mp distinct).1
  have keyWaiting : key ∉ waiting := (nodup_cons.mp tail).1
  have unchanged : ∀ other ∈ visited, cleared.row other = ops.row other := by
    intro other before
    rw [row, if_neg]
    rw [mem_cons, inBatch]
    rintro (same | ⟨inWaiting, -⟩)
    · exact apart other before key mem_cons_self same
    · exact apart other before other (mem_cons_of_mem key inWaiting) rfl
  constructor
  · have fresh : ¬ TakenAlong rows type started key := by
      rintro ⟨joins, early⟩
      simp [Entry.starts, playbackEntry, joins, early] at starts
    rw [row, if_pos mem_cons_self, (phase.waiting key mem_cons_self).2, if_neg fresh,
      OpRow.clear_restrict_cons last]
  constructor
  · intro other before alive
    rw [table, unchanged other before]
    exact phase.kept other before alive
  · intro other before dead
    rw [table]
    exact phase.removed other before dead
  · intro other inWaiting
    obtain ⟨present, held⟩ := phase.waiting other (mem_cons_of_mem key inWaiting)
    refine ⟨table ▸ present, ?_⟩
    have differs : other ≠ key := by
      rintro rfl
      exact keyWaiting inWaiting
    rw [row]
    simp only [mem_cons, inBatch, differs, inWaiting, false_or, true_and]
    by_cases follows : joinsPlayback type (rows other) = true ∧
        playedArgument type (rows other) = playedArgument type (rows key)
    · have taken : TakenAlong rows type (playedArgument type (rows key) :: started) other :=
        ⟨follows.1, by simp [follows.2]⟩
      rw [if_pos follows, if_pos taken, held]
      split
      · exact OpRow.clear_restrict last
      · exact OpRow.clear_restrict_cons last
    · have same : TakenAlong rows type (playedArgument type (rows key) :: started) other ↔
          TakenAlong rows type started other := by
        simp only [TakenAlong, mem_cons]
        constructor
        · rintro ⟨joins, equal | early⟩
          · exact absurd ⟨joins, equal⟩ follows
          · exact ⟨joins, early⟩
        · rintro ⟨joins, early⟩
          exact ⟨joins, .inr early⟩
      rw [if_neg follows, held]
      simp only [same]
  · intro other first
    rw [table]
    exact phase.blocked other first

end

end Batch

section Run

/-- Going on from a key index with the keys that stand there. -/
def resume (folder : PlaybackFolder) (keys : List Nat) (type : OfflineOpType) (ops : OfflineOps)
    (keyIndex : Nat) (remaining : List Nat) : PlaybackStep :=
  let (ops, keyIndex, op) := findNextOp type ops keyIndex remaining
  processFound folder ⟨ops, keys, keyIndex, type, []⟩ op

lemma processNextOperation_eq_resume {remaining : List Nat}
    (same : keys = visited ++ key :: remaining) (mem : key ∈ ops.table) :
    processNextOperation folder ⟨ops, keys, visited.length, type, []⟩ =
      resume folder keys type ops visited.length (key :: remaining) := by
  have current : keys[visited.length]? = some key := by simp [same]
  have drop : keys.drop visited.length = key :: remaining := by simp [same]
  simp only [processNextOperation, current, getOfflineOpForKey_of_mem mem, drop]
  rfl

lemma starts_playbackEntry_iff (rows : Nat → OpRow) (type) (started) (key : Nat) :
    (playbackEntry rows type key).starts started = true ↔
      type ∈ (rows key).operation ∧ ¬ TakenAlong rows type started key := by
  rw [Entry.starts_iff]
  exact and_congr_left fun _ => decide_eq_true_iff

lemma PlayableRow.restrict (playable : PlayableRow folder row) (types) :
    PlayableRow folder (row.restrict types) where
  types := fun type mem => playable.types type (Finset.mem_filter.mp mem).1
  addedKeywords := fun mem => playable.addedKeywords (Finset.mem_filter.mp mem).1
  removedKeywords := fun mem => playable.removedKeywords (Finset.mem_filter.mp mem).1
  copyFolder := fun mem => playable.copyFolder (Finset.mem_filter.mp mem).1
  moveFolder := fun mem => playable.moveFolder (Finset.mem_filter.mp mem).1

lemma eq_ofRow_of_mem_collect {sync : OfflineSync} {test : OfflineImapOperation → Bool}
    (inKeys : key ∈ sync.currentKeys)
    (mem : op ∈ sync.collect (.ofRow key (sync.currentDB.row key)) test) :
    ∃ found ∈ sync.currentKeys, op = .ofRow found (sync.currentDB.row found) := by
  cases mem_cons.mp mem with
  | inl own => exact ⟨key, inKeys, own⟩
  | inr later =>
    obtain ⟨found, inDrop, same⟩ := eq_ofRow_of_mem_matchingOps later
    exact ⟨found, mem_of_mem_drop inDrop, same⟩

lemma phase_performs (last : type ∉ later)
    (playable : ∀ key ∈ keys, PlayableRow folder (rows key))
    (headers : ∀ key ∈ keys, folder.hasHeader key) (distinct : keys.Nodup)
    (same : keys = visited ++ waiting ++ rest)
    (phase : Phase rows type later visited waiting rest started ops) (next : ∀ ops keyIndex, Phase
      rows type later (visited ++ waiting) [] rest [] ops → StepPerforms folder (processFound folder
      ⟨ops, keys, keyIndex, type, []⟩ none) actions) :
    StepPerforms folder (resume folder keys type ops visited.length (waiting ++ rest))
      (handed (batches started (waiting.map (playbackEntry rows type))) ++ actions) := by
  induction waiting generalizing visited started ops with
  | nil =>
    rw [append_nil] at next
    simp only [resume, nil_append, findNextOp_blocked phase.blocked]
    exact next ops visited.length ⟨phase.kept, phase.removed, by simp, phase.blocked⟩
  | cons key waiting ih =>
    obtain ⟨present, held⟩ := phase.waiting key mem_cons_self
    have ordered : (visited ++ key :: waiting ++ rest).Nodup := same ▸ distinct
    have fresh : key ∉ visited ++ waiting ++ rest := by
      rw [append_assoc, cons_append, nodup_middle] at ordered
      rw [append_assoc]
      exact (nodup_cons.mp ordered).1
    have shifted : keys = visited ++ [key] ++ waiting ++ rest := by simp [same]
    have length : (visited ++ [key]).length = visited.length + 1 := length_append
    have goOn : ∀ {started ops}, key ∈ ops.table → ops.row key = (rows key).restrict later →
        Phase rows type later visited waiting rest started ops →
        StepPerforms folder (resume folder keys type ops visited.length (key :: (waiting ++ rest)))
          (handed (batches started (waiting.map (playbackEntry rows type))) ++ actions) := by
      intro started ops present held phase
      have other : type ∉ (ops.row key).operation := by
        rw [held]
        exact fun mem => last (by simpa using (Finset.mem_filter.mp mem).2)
      have passed := ih shifted (phase.visit present held fresh) (by simpa using next)
      rw [length] at passed
      simpa only [resume, findNextOp_pass present other] using passed
    cases starts : (playbackEntry rows type key).starts started with
    | false =>
      have row : ops.row key = (rows key).restrict later := by
        rw [held]
        split
        · rfl
        · rename_i fresh
          apply OpRow.restrict_cons_of_notMem
          intro due
          simp [Entry.starts, playbackEntry, due, TakenAlong] at starts fresh
          exact fresh starts.1 starts.2
      have waits : Phase rows type later visited waiting rest started ops :=
        ⟨phase.kept, phase.removed,
          fun other mem => phase.waiting other (mem_cons_of_mem key mem),
          phase.blocked⟩
      rw [map_cons, batches_cons_of_not_starts starts]
      exact goOn present row waits
    | true =>
      have inKeys : key ∈ keys := by simp [same]
      obtain ⟨due, fresh⟩ := (starts_playbackEntry_iff rows type started key).mp starts
      have left : type ∈ (ops.row key).operation := by
        rw [held, if_neg fresh]
        exact Finset.mem_filter.mpr ⟨due, by simp⟩
      have playableRow : PlayableRow folder (ops.row key) := by
        rw [held]
        exact (playable key inKeys).restrict _
      obtain ⟨test, clears, command, startsBatch⟩ := processFound_startsBatch
        ⟨ops, keys, visited.length, type, []⟩ playableRow left rfl (by
          intro test op mem
          obtain ⟨found, inCurrent, rfl⟩ := eq_ofRow_of_mem_collect inKeys mem
          exact headers found inCurrent)
      have batchKeys := startsBatch.keys.trans
        (map_messageKey_collect last phase same starts (by simpa [held] using startsBatch.tests))
      have holds : ∀ op ∈ clears, ops.Holds op := by
        intro op mem
        obtain ⟨found, inCollected, sameKey, operation, mdbRow⟩ := startsBatch.holds op mem
        obtain ⟨each, -, rfl⟩ := eq_ofRow_of_mem_collect inKeys inCollected
        rw [OfflineOps.Holds, sameKey, operation, mdbRow]
        exact ⟨rfl, rfl⟩
      obtain ⟨table, row⟩ := clearCurrentOps_currentDB
        ⟨ops, keys, visited.length, type, clears⟩ holds
      simp only [batchKeys] at row
      obtain ⟨own, waits⟩ := phase.batch last ordered starts table row
      have resumed : Performs folder (OfflineSync.onStopRunningUrl
          ⟨ops, keys, visited.length, type, clears⟩)
          (handed (batches (playedArgument type (rows key) :: started)
            (waiting.map (playbackEntry rows type))) ++ actions) := by
        apply Performs.of_step
        have again := goOn (table.symm ▸ present) own waits
        rwa [← processNextOperation_eq_resume (by simp [same]) (table.symm ▸ present)] at again
      have found : resume folder keys type ops visited.length (key :: waiting ++ rest) =
          .started command ⟨ops, keys, visited.length, type, clears⟩ := by
        rw [resume, cons_append, findNextOp_found present left]
        exact startsBatch.started
      rw [found]
      refine ⟨_, resumed, ?_⟩
      rw [startsBatch.performs, batchKeys, map_cons, batches_cons_of_starts starts,
        handed_cons, held, playedArgument_restrict, append_assoc]
      rfl

end Run

section Types

/-- The order in which the types are played back. -/
def playbackOrder : List OfflineOpType :=
  [.flagsChanged, .addKeywords, .removeKeywords, .msgCopy, .msgMoved, .appendDraft,
    .appendTemplate, .deleteAllMsgs]

/-- What the playback of the types performs: each type reaches the messages up to the first
one that no longer has any of the types left. -/
def performedBy (rows : Nat → OpRow) (keys : List Nat) :
    List OfflineOpType → List (Nat × PlaybackAction)
  | [] => []
  | type :: later =>
    handed (batches [] ((keys.takeWhile fun key => (rows key).Alive (type :: later)).map
      (playbackEntry rows type))) ++ performedBy rows keys later

lemma next_of_suffix (suffix : type :: later <:+ playbackOrder) :
    nextPlaybackOpType type = later.head? ∧ type ∉ later := by
  have member := (mem_tails _ _).mpr suffix
  simp only [playbackOrder, List.tails, mem_cons, not_mem_nil, or_false,
    List.cons.injEq, reduceCtorEq] at member
  rcases member with ⟨rfl, rfl⟩ | ⟨rfl, rfl⟩ | ⟨rfl, rfl⟩ | ⟨rfl, rfl⟩ | ⟨rfl, rfl⟩ | ⟨rfl, rfl⟩ |
    ⟨rfl, rfl⟩ | ⟨rfl, rfl⟩ <;> exact ⟨rfl, by decide⟩

lemma OpRow.Alive.cons {row : OpRow} (alive : row.Alive later) : row.Alive (type :: later) := by
  obtain ⟨each, inLater, mem⟩ := alive
  exact ⟨each, mem_cons_of_mem type inLater, mem⟩

lemma alive_cons (type) (key : Nat) (alive : decide ((rows key).Alive later) = true) :
    decide ((rows key).Alive (type :: later)) = true :=
  decide_eq_true (of_decide_eq_true alive).cons

/-- The playback of a type starts with the messages that have it or a later type left. -/
def TypeStart (rows : Nat → OpRow) (keys : List Nat) (type : OfflineOpType)
    (later : List OfflineOpType) (ops : OfflineOps) : Prop :=
  Phase rows type later [] (keys.takeWhile fun key => (rows key).Alive (type :: later))
    (keys.dropWhile fun key => (rows key).Alive (type :: later)) [] ops

lemma not_of_mem_head?_dropWhile {α : Type} {test : α → Bool} {list : List α} {first : α}
    (head : first ∈ (list.dropWhile test).head?) : test first = false := by
  have fails := head?_dropWhile_not test list
  rw [Option.mem_def.mp head] at fails
  exact fails

section Prefixes

variable {α : Type} {weak strong : α → Bool} {list : List α}

/-- A stronger test holds of a shorter start. -/
theorem mem_takeWhile_of_imp (implied : ∀ each, strong each → weak each)
    (mem : first ∈ list.takeWhile strong) : first ∈ list.takeWhile weak := by
  have same : (list.takeWhile weak).takeWhile strong = list.takeWhile strong := by
    rw [takeWhile_takeWhile]
    congr 1
    ext each
    cases holds : strong each with
    | false => rfl
    | true => simp [implied each holds]
  rw [← same] at mem
  exact ( takeWhile_prefix strong).subset mem

/-- The first element that fails the stronger test passes the weaker one, or is the first
that fails it. -/
theorem head?_dropWhile_of_imp (implied : ∀ each, strong each → weak each)
    (head : first ∈ (list.dropWhile strong).head?) (later : first ∉ list.takeWhile weak) :
    first ∈ (list.dropWhile weak).head? := by
  have whole : list.takeWhile weak ++ list.dropWhile weak = list := takeWhile_append_dropWhile
  rw [← whole, dropWhile_append] at head
  split at head
  · cases drop : list.dropWhile weak with
    | nil => simp [drop] at head
    | cons each rest =>
      have starts : each ∈ (list.dropWhile weak).head? := by simp [drop]
      have fails := not_of_mem_head?_dropWhile starts
      have strongFails : strong each = false := by
        cases holds : strong each with
        | false => rfl
        | true => rw [implied each holds] at fails; cases fails
      rw [drop, dropWhile_cons_of_neg (by simp [strongFails])] at head
      exact head
  · rename_i filled
    have inStart : first ∈ (list.takeWhile weak).dropWhile strong := by
      cases drop : (list.takeWhile weak).dropWhile strong with
      | nil => simp [drop] at filled
      | cons each rest =>
        rw [drop, cons_append, head?_cons, Option.mem_some_iff] at head
        simp [head]
    exact absurd ((dropWhile_suffix strong).subset inStart) later

end Prefixes

lemma TypeStart.next (ended : Phase rows type (second :: later) (keys.takeWhile fun key => (rows
      key).Alive (type :: second :: later)) [] (keys.dropWhile fun key => (rows key).Alive (type ::
      second :: later)) [] ops) : TypeStart rows keys second later ops := by
  constructor
  · intro key mem
    cases mem
  · intro key mem
    cases mem
  · intro key mem
    have alive : (rows key).Alive (second :: later) := by
      simpa using mem_takeWhile_imp mem
    have before : key ∈ keys.takeWhile fun key => (rows key).Alive (type :: second :: later) :=
      mem_takeWhile_of_imp (alive_cons type) mem
    simpa [TakenAlong] using ended.kept key before alive
  · intro key head
    have dead : ¬ (rows key).Alive (second :: later) := by
      simpa using not_of_mem_head?_dropWhile head
    by_cases before : key ∈ keys.takeWhile fun key => (rows key).Alive (type :: second :: later)
    · exact ended.removed key before dead
    · apply ended.blocked key
      exact head?_dropWhile_of_imp (alive_cons type) head before

lemma performedBy_eq_nil (idle : keys.takeWhile (fun key => (rows key).Alive later) = []) :
    performedBy rows keys later = [] := by
  induction later with
  | nil => rfl
  | cons type later ih =>
    have shorter : keys.takeWhile (fun key => (rows key).Alive later) = [] := by
      apply eq_nil_iff_forall_not_mem.mpr
      intro key mem
      have inLonger := mem_takeWhile_of_imp (alive_cons type) mem
      rw [idle] at inLonger
      cases inLonger
    rw [performedBy, idle, ih shorter]
    rfl

lemma processNextOperation_blocked (same : keys = rest)
    (blocked : ∀ key ∈ rest.head?, key ∉ ops.table) :
    processNextOperation folder ⟨ops, keys, 0, type, []⟩ =
      .finished ⟨ops, keys, 0, type, []⟩ := by
  subst same
  cases keys with
  | nil => rfl
  | cons key keys => simp [processNextOperation, getOfflineOpForKey_of_notMem (blocked key rfl)]

/-- The playback of one type performs its batches over the messages it reaches. -/
theorem type_performs (last : type ∉ later)
    (playable : ∀ key ∈ keys, PlayableRow folder (rows key))
    (headers : ∀ key ∈ keys, folder.hasHeader key) (distinct : keys.Nodup)
    (start : TypeStart rows keys type later ops)
    (next : ∀ ops keyIndex,
      Phase rows type later (keys.takeWhile fun key => (rows key).Alive (type :: later)) []
        (keys.dropWhile fun key => (rows key).Alive (type :: later)) [] ops →
      StepPerforms folder (processFound folder ⟨ops, keys, keyIndex, type, []⟩ none)
        (performedBy rows keys later)) :
    Performs folder ⟨ops, keys, 0, type, []⟩ (performedBy rows keys (type :: later)) := by
  have whole : keys = [] ++ keys.takeWhile (fun key => (rows key).Alive (type :: later)) ++
      keys.dropWhile fun key => (rows key).Alive (type :: later) :=
    takeWhile_append_dropWhile.symm
  apply Performs.of_step
  cases reached : keys.takeWhile fun key => (rows key).Alive (type :: later) with
  | nil =>
    have rest : keys = keys.dropWhile fun key => (rows key).Alive (type :: later) := by
      simpa [reached] using whole
    rw [performedBy_eq_nil reached, processNextOperation_blocked rest start.blocked]
    rfl
  | cons key waiting =>
    have present : key ∈ ops.table := (start.waiting key (by simp [reached])).1
    have run := phase_performs last playable headers distinct whole start next
    have first : keys = [] ++ key :: (waiting ++
        keys.dropWhile fun key => (rows key).Alive (type :: later)) := by
      simpa [reached] using whole
    have step : processNextOperation folder ⟨ops, keys, [].length, type, []⟩ = _ :=
      processNextOperation_eq_resume first present
    rw [length_nil] at step run
    rw [step, performedBy]
    rw [reached] at run ⊢
    exact run

lemma types_perform (playable : ∀ key ∈ keys, PlayableRow folder (rows key))
    (headers : ∀ key ∈ keys, folder.hasHeader key) (distinct : keys.Nodup)
    (suffix : type :: later <:+ playbackOrder) (start : TypeStart rows keys type later ops) :
    Performs folder ⟨ops, keys, 0, type, []⟩ (performedBy rows keys (type :: later)) := by
  induction later generalizing type ops with
  | nil =>
    obtain ⟨next, last⟩ := next_of_suffix suffix
    apply type_performs last playable headers distinct start
    intro ended keyIndex _
    simp only [processFound, next, head?_nil]
    rfl
  | cons second later ih =>
    obtain ⟨next, last⟩ := next_of_suffix suffix
    apply type_performs last playable headers distinct start
    intro ended keyIndex phase
    simp only [processFound, next, head?_cons]
    exact ih ((suffix_cons type (second :: later)).trans suffix) (TypeStart.next phase)

end Types

end CommCentral.Imap
