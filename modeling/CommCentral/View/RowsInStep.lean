import CommCentral.View.ViewEvents

/-! What keeps the row arrays of a message list view in step, for the expanding, collapsing
and sorting of threads. -/
namespace CommCentral.View

open Lib List Option
open Attempt (Keeps)

lemma insertAt?_length {α : Type} {list items later : List α} {index : Nat}
    (inserted : insertAt? list index items = some later) :
    later.length = list.length + items.length := by
  rw [insertAt?] at inserted
  split at inserted
  · cases inserted
    rw [length_append, length_append, length_take, length_drop]
    omega
  · cases inserted

section

variable {α : Type} {list later : List α}

lemma removeAt?_length {index count : Nat} (removed : removeAt? list index count = some later) :
    later.length + count = list.length := by
  rw [removeAt?] at removed
  split at removed
  · cases removed
    rw [length_append, length_take, length_drop]
    omega
  · cases removed

lemma assign?_length {index : Nat} {item : α} (assigned : assign? list index item = some later) :
    later.length = list.length := by
  rw [assign?] at assigned
  split at assigned
  · cases assigned
    exact length_set
  · cases assigned

lemma copyAt?_length {unassigned : α} {indices : List Nat}
    (copied : copyAt? list unassigned indices = some later) : later.length = list.length := by
  obtain ⟨elements, -, kept⟩ := bind_eq_some_iff.mp copied
  split at kept
  · cases kept
    rw [length_append, length_replicate]
    omega
  · cases kept

end

namespace Rows

variable {rows later : Rows}

lemma InStep.of_lengths (inStep : rows.InStep) (keys : later.keys.length = rows.keys.length)
    (flags : later.flags.length = rows.flags.length)
    (levels : later.levels.length = rows.levels.length) : later.InStep := by
  rw [InStep, keys, flags, levels]
  exact inStep

lemma InStep.insert {items : Rows} (inStep : rows.InStep) (added : items.InStep)
    (inserted : rows.insert? index items = some later) : later.InStep := by
  obtain ⟨keys, insertedKeys, inserted⟩ := bind_eq_some_iff.mp inserted
  obtain ⟨flags, insertedFlags, inserted⟩ := bind_eq_some_iff.mp inserted
  obtain ⟨levels, insertedLevels, inserted⟩ := bind_eq_some_iff.mp inserted
  cases inserted
  rw [InStep, insertAt?_length insertedKeys, insertAt?_length insertedFlags,
    insertAt?_length insertedLevels, ← inStep.1, ← inStep.2, ← added.1, ← added.2]
  exact ⟨rfl, rfl⟩

lemma InStep.remove {count : Nat} (inStep : rows.InStep)
    (removed : rows.remove? index count = some later) : later.InStep := by
  obtain ⟨keys, removedKeys, removed⟩ := bind_eq_some_iff.mp removed
  obtain ⟨flags, removedFlags, removed⟩ := bind_eq_some_iff.mp removed
  obtain ⟨levels, removedLevels, removed⟩ := bind_eq_some_iff.mp removed
  cases removed
  have ofKeys := removeAt?_length removedKeys
  have ofFlags := removeAt?_length removedFlags
  have ofLevels := removeAt?_length removedLevels
  obtain ⟨first, second⟩ := inStep
  constructor
  · change keys.length = flags.length
    omega
  · change keys.length = levels.length
    omega

lemma InStep.set {key : Nat} {flags : UInt32} (inStep : rows.InStep)
    (assigned : rows.set? index key flags level = some later) : later.InStep := by
  obtain ⟨keys, ofKeys, assigned⟩ := bind_eq_some_iff.mp assigned
  obtain ⟨newFlags, ofFlags, assigned⟩ := bind_eq_some_iff.mp assigned
  obtain ⟨levels, ofLevels, assigned⟩ := bind_eq_some_iff.mp assigned
  cases assigned
  exact inStep.of_lengths (assign?_length ofKeys) (assign?_length ofFlags)
    (assign?_length ofLevels)

lemma InStep.setKey {key : Nat} (inStep : rows.InStep)
    (assigned : rows.setKey? index key = some later) : later.InStep := by
  obtain ⟨keys, ofKeys, assigned⟩ := bind_eq_some_iff.mp assigned
  cases assigned
  exact inStep.of_lengths (assign?_length ofKeys) rfl rfl

lemma InStep.setFlags {flags : UInt32} (inStep : rows.InStep)
    (assigned : rows.setFlags? index flags = some later) : later.InStep := by
  obtain ⟨newFlags, ofFlags, assigned⟩ := bind_eq_some_iff.mp assigned
  cases assigned
  exact inStep.of_lengths rfl (assign?_length ofFlags) rfl

lemma InStep.setLevel {level : UInt8} (inStep : rows.InStep)
    (assigned : rows.setLevel? index level = some later) : later.InStep := by
  obtain ⟨newLevels, ofLevels, assigned⟩ := bind_eq_some_iff.mp assigned
  cases assigned
  exact inStep.of_lengths rfl rfl (assign?_length ofLevels)

lemma replicate_inStep (numRows key : Nat) (flags : UInt32) (level : UInt8) :
    (Rows.replicate numRows key flags level).InStep := by
  constructor
  · rw [Rows.replicate, length_replicate, length_replicate]
  · rw [Rows.replicate, length_replicate, length_replicate]

lemma InStep.reverseThreads (inStep : rows.InStep)
    (reversed : rows.reverseThreads? = some later) : later.InStep := by
  obtain ⟨keys, ofKeys, reversed⟩ := bind_eq_some_iff.mp reversed
  obtain ⟨flags, ofFlags, reversed⟩ := bind_eq_some_iff.mp reversed
  obtain ⟨levels, ofLevels, reversed⟩ := bind_eq_some_iff.mp reversed
  split at reversed
  · cases reversed
  · cases reversed
    exact inStep.of_lengths (copyAt?_length ofKeys) (copyAt?_length ofFlags)
      (copyAt?_length ofLevels)

lemma InStep.reverseSort (inStep : rows.InStep)
    (reversed : rows.reverseSort? = some later) : later.InStep := by
  rw [reverseSort?] at reversed
  split at reversed
  · cases reversed
  · cases reversed
    apply inStep.of_lengths
    · exact length_reverse
    · rw [length_append, length_reverse, ← length_append, take_append_drop]
    · rfl

lemma topRows?_inStep (kept : rows.topRows? = some later) : later.InStep := by
  rw [topRows?] at kept
  split at kept
  · cases kept
  · cases kept
    constructor
    · exact (length_map _).trans (length_map _).symm
    · exact (length_map _).trans length_replicate.symm

end Rows

/-- The expansion appends no level of its own. -/
def Expansion.Paired (expansion : Expansion) : Prop :=
  ¬ (expansion.unreadOnly ∧ hasFlag expansion.flags flagRead)

instance (expansion : Expansion) : Decidable expansion.Paired := inferInstanceAs (Decidable (¬ _))

/-- The rows shown, the rows kept and the rows that a caller holds in its locals are in
step as long as every expansion was paired. -/
def Sound (held : Rows) (view : ThreadedView) : Prop :=
  (∀ expansion ∈ view.expansions, expansion.Paired) →
    view.rows.InStep ∧ view.prevRows.InStep ∧ held.InStep

variable {α β : Type} {property : ThreadedView → Prop}

lemma readThen_keeps {field : ThreadedView → α} {next : α → ViewM β}
    (kept : ∀ value, Keeps property (next value)) : Keeps property (Attempt.read field >>= next) :=
  (Keeps.read field).bind kept

lemma updateRest_sound {change : ThreadedView → ThreadedView}
    (rows : ∀ view, (change view).rows = view.rows)
    (prevRows : ∀ view, (change view).prevRows = view.prevRows)
    (expansions : ∀ view, (change view).expansions = view.expansions) :
    Keeps (Sound held) (Attempt.update change : ViewM Unit) := by
  apply Keeps.update
  intro view sound paired
  rw [rows, prevRows]
  apply sound
  rw [← expansions]
  exact paired

lemma changeRows_sound {change : Rows → Option Rows}
    (kept : ∀ rows later, rows.InStep → change rows = some later → later.InStep) :
    Keeps (Sound held) (changeRows change) := by
  intro view sound
  rw [changeRows]
  cases outcome : change view.rows with
  | none => exact sound
  | some rows =>
    intro paired
    exact ⟨kept _ _ (sound paired).1 outcome, (sound paired).2⟩

lemma demand_keeps (value : Option α) : Keeps property (demand value) := by
  cases value with
  | none => exact Keeps.throw _
  | some value => exact Keeps.pure _

variable (index : Nat)

lemma flagsAt_keeps : Keeps property (flagsAt index) := readThen_keeps demand_keeps

lemma keyAt_keeps : Keeps property (keyAt index) := readThen_keeps demand_keeps

lemma levelAt_keeps : Keeps property (levelAt index) := readThen_keeps demand_keeps

lemma setFlagsAt_sound (flags : UInt32) : Keeps (Sound held) (setFlagsAt index flags) :=
  changeRows_sound fun _ _ inStep assigned => inStep.setFlags assigned

lemma setMsgHdrAt_sound (index key : Nat) (flags : UInt32) (level : UInt8) :
    Keeps (Sound held) (setMsgHdrAt index key flags level) :=
  changeRows_sound fun _ _ inStep assigned => inStep.set assigned

lemma insertMsgHdrAt_sound (index key : Nat) (flags : UInt32) (level : UInt8) :
    Keeps (Sound held) (insertMsgHdrAt index key flags level) := by
  apply changeRows_sound
  intro rows later inStep inserted
  split at inserted
  · cases inserted
    exact inStep
  · exact inStep.insert ⟨rfl, rfl⟩ inserted

variable (viewIndex numRows : Nat)

lemma insertEmptyRows_sound : Keeps (Sound held) (insertEmptyRows viewIndex numRows) :=
  changeRows_sound fun _ _ inStep inserted =>
    inStep.insert (Rows.replicate_inStep numRows 0 0 1) inserted

lemma removeRows_sound : Keeps (Sound held) (removeRows viewIndex numRows) :=
  changeRows_sound fun _ _ inStep removed => inStep.remove removed

lemma removeRow_sound : Keeps (Sound held) (removeRow index) := by
  apply changeRows_sound
  intro rows later inStep removed
  split at removed
  · exact inStep.remove removed
  · cases removed
    exact inStep

section Threads

variable (env : ViewEnv)

lemma scanUp_keeps (key start index : Nat) : Keeps property (scanUp key start index) := by
  induction index with
  | zero => exact Keeps.pure _
  | succ index ih =>
    apply Keeps.unlessPure
    refine Keeps.bind (keyAt_keeps index) ?_
    intro found
    exact Keeps.unlessPure ih

lemma findAncestorLevel_keeps (startOfThread viewIndex steps : Nat) (hdr) :
    Keeps property (findAncestorLevel env startOfThread viewIndex steps hdr) := by
  induction steps generalizing hdr with
  | zero => exact Keeps.throw _
  | succ steps ih =>
    apply Keeps.unlessPure
    refine Keeps.bind (scanUp_keeps _ _ _) ?_
    intro found
    cases found with
    | some index => exact (levelAt_keeps index).bind fun _ => Keeps.pure _
    | none =>
      apply Keeps.unlessPure
      cases env.msgHdrForKey hdr.threadParent with
      | none => exact Keeps.pure _
      | some parent => exact ih parent

lemma findLevelInThread_keeps (hdr) (startOfThread viewIndex : Nat) :
    Keeps property (findLevelInThread env hdr startOfThread viewIndex) := by
  apply readThen_keeps
  intro grouped
  exact Keeps.unlessPure (findAncestorLevel_keeps env _ _ _ hdr)

section

variable (inserted : ∀ index key flags level, Keeps property (insertMsgHdrAt index key flags level))
include inserted

lemma listUnread_keeps (viewFlags) (topLevelMsgKey startOfThread numListed : Nat) (hdrs) :
    Keeps property (listUnread env viewFlags topLevelMsgKey startOfThread numListed hdrs) := by
  induction hdrs generalizing numListed with
  | nil => exact Keeps.pure _
  | cons hdr rest ih =>
    cases hdr with
    | none => exact ih numListed
    | some hdr =>
      apply Keeps.ite
      · intro _
        exact ih numListed
      · intro _
        refine Keeps.bind (findLevelInThread_keeps env hdr _ _) ?_
        intro level
        exact (inserted _ _ _ _).bind fun _ => ih (numListed + 1)

lemma listUnreadIdsInThread_keeps (thread) (startOfThread : Nat) :
    Keeps property (listUnreadIdsInThread env thread startOfThread) := by
  cases thread with
  | none => exact Keeps.pure _
  | some thread =>
    refine Keeps.bind (keyAt_keeps startOfThread) ?_
    intro topLevelMsgKey
    exact readThen_keeps fun viewFlags => listUnread_keeps env inserted viewFlags _ _ _ _

end

variable (viewFlags : ViewFlags)

lemma listMessages_sound (numChildren level : Nat) {below : Nat → Listing → ViewM ListingResult}
    (sound : ∀ key listing, Keeps (Sound held) (below key listing)) (listing) (hdrs) :
    Keeps (Sound held) (listMessages viewFlags numChildren level below listing hdrs) := by
  induction hdrs generalizing listing with
  | nil => exact Keeps.pure _
  | cons hdr rest ih =>
    apply Keeps.unlessPure
    apply Keeps.ite
    · intro _
      exact ih listing
    · intro _
      apply (setMsgHdrAt_sound _ _ _ _).bind
      intro _
      apply (sound hdr.messageKey listing.next).bind
      intro result
      exact Keeps.whenPure (ih result.2)

lemma listIdsInThreadOrder_sound (thread) (depth parentKey level : Nat) (listing) :
    Keeps (Sound held) (listIdsInThreadOrder viewFlags thread depth parentKey level listing) := by
  induction depth generalizing parentKey level listing with
  | zero =>
    rw [listIdsInThreadOrder]
    cases thread.messages parentKey with
    | none => exact Keeps.pure _
    | some messages => exact listMessages_sound _ _ _ (fun _ _ => Keeps.pure _) _ _
  | succ depth ih =>
    rw [listIdsInThreadOrder]
    cases thread.messages parentKey with
    | none => exact Keeps.pure _
    | some messages => exact listMessages_sound _ _ _ (fun key listing => ih key _ listing) _ _

lemma listInOrder_sound (listing) (hdrs) :
    Keeps (Sound held) (listInOrder viewFlags listing hdrs) := by
  induction hdrs generalizing listing with
  | nil => exact Keeps.pure _
  | cons hdr rest ih =>
    cases hdr with
    | none => exact ih listing
    | some hdr =>
      apply Keeps.ite
      · intro _
        exact ih listing
      · intro _
        exact (setMsgHdrAt_sound _ _ _ _).bind fun _ => ih listing.next

lemma listThreaded_sound (thread) (startOfThread : Nat) (listing) :
    Keeps (Sound held) (listThreaded viewFlags thread startOfThread listing) := by
  apply Keeps.whenPure
  refine Keeps.bind (keyAt_keeps startOfThread) ?_
  intro parentKey
  exact (listIdsInThreadOrder_sound viewFlags thread _ _ _ _).bind fun _ => Keeps.pure _

variable (thread : Option RowThread)

lemma listIdsInThread_sound (startOfThread : Nat) :
    Keeps (Sound held) (listIdsInThread thread startOfThread) := by
  cases thread with
  | none => exact Keeps.pure _
  | some thread =>
    apply Keeps.unlessPure
    apply readThen_keeps
    intro viewFlags
    apply (insertEmptyRows_sound _ _).bind
    intro _
    apply (listThreaded_sound viewFlags thread _ _).bind
    intro threaded
    apply Keeps.bind
    · exact Keeps.whenPure (listInOrder_sound _ _ _)
    · intro listing
      apply Keeps.whenPure
      exact (removeRows_sound _ _).bind fun _ => Keeps.pure _

/-- An expansion that is not paired leaves nothing to keep. -/
theorem listExpanded_sound (index : Nat) (sound : Sound held view)
    (recorded : ⟨unreadOnly, flags⟩ ∈ view.expansions) :
    Sound held (listExpanded env unreadOnly flags thread index view).2 := by
  rw [listExpanded]
  by_cases unread : unreadOnly = true
  · rw [if_pos unread]
    by_cases read : hasFlag flags flagRead = true
    · rw [if_pos read]
      apply listUnreadIdsInThread_keeps env insertMsgHdrAt_sound thread index
      intro paired
      exact absurd ⟨unread, read⟩ (paired _ recorded)
    · rw [if_neg read]
      exact listUnreadIdsInThread_keeps env insertMsgHdrAt_sound thread index view sound
  · rw [if_neg unread]
    exact listIdsInThread_sound thread index view sound

/-- An expansion that counts has no more to be kept than before. -/
theorem recordExpansion_sound (expansion : Expansion) :
    Keeps (Sound held) (recordExpansion expansion) := by
  apply Keeps.update
  intro view sound paired
  exact sound fun earlier mem => paired earlier (mem_append_left _ mem)

variable (index : Nat)

lemma expandByIndex_sound : Keeps (Sound held) (expandByIndex env index) := by
  apply readThen_keeps
  intro start
  apply Keeps.unlessPure
  refine Keeps.bind (flagsAt_keeps index) ?_
  intro flags
  cases threadContainingIndex env start index with
  | none => exact Keeps.pure _
  | some thread =>
    apply (recordExpansion_sound ⟨start.viewFlags.unreadOnly, flags⟩).bind_of
    intro view _ later _ outcome sound
    have recorded : ⟨start.viewFlags.unreadOnly, flags⟩ ∈ later.expansions := by
      have after : (recordExpansion _ view).2 = later := congrArg Prod.snd outcome
      rw [← after]
      exact mem_append_right _ (mem_singleton_self _)
    have listed := listExpanded_sound env thread index sound recorded
    change Sound held (Attempt.bind (listExpanded env _ _ _ _) _ later).2
    rw [Attempt.bind]
    cases ended : listExpanded env start.viewFlags.unreadOnly flags thread index later with
    | mk result last =>
      rw [ended] at listed
      cases result with
      | error error => exact listed
      | ok numExpanded =>
        apply Keeps.ite _ _ last listed
        · intro _
          exact (setFlagsAt_sound _ _).bind fun _ => Keeps.pure _
        · intro _
          exact Keeps.pure _

lemma afterThreadTop_keeps : Keeps property (afterThreadTop index) := by
  induction index with
  | zero => exact (levelAt_keeps 0).bind fun _ => Keeps.pure _
  | succ index ih =>
    refine Keeps.bind (levelAt_keeps _) ?_
    intro level
    exact Keeps.unlessPure ih

lemma countExpandedThread_keeps : Keeps property (countExpandedThread index) := by
  refine Keeps.bind (afterThreadTop_keeps index) ?_
  intro next
  exact readThen_keeps fun _ => Keeps.pure _

lemma collapseByIndex_sound : Keeps (Sound held) (collapseByIndex index) := by
  apply readThen_keeps
  intro viewFlags
  refine Keeps.bind (flagsAt_keeps index) ?_
  intro flags
  apply Keeps.unlessPure
  apply readThen_keeps
  intro view
  apply Keeps.unlessPure
  refine Keeps.bind (countExpandedThread_keeps index) ?_
  intro count
  exact (setFlagsAt_sound _ _).bind fun _ => removeRows_sound _ _

lemma expandIfElided_sound : Keeps (Sound held) (expandIfElided env index) := by
  refine Keeps.bind (flagsAt_keeps index) ?_
  intro flags
  apply Keeps.whenPure
  exact (expandByIndex_sound env index).bind fun _ => Keeps.pure _

lemma expandAllBelow_sound (size : Nat) : Keeps (Sound held) (expandAllBelow env size) := by
  induction size with
  | zero => exact Keeps.pure _
  | succ index ih => exact (expandIfElided_sound env index).bind fun _ => ih

lemma expandAll_sound : Keeps (Sound held) (expandAll env) :=
  readThen_keeps (expandAllBelow_sound env)

lemma collapseAllFrom_sound (fuel index : Nat) : Keeps (Sound held) (collapseAllFrom fuel index) := by
  induction fuel generalizing index with
  | zero => exact Keeps.pure _
  | succ fuel ih =>
    apply readThen_keeps
    intro size
    apply Keeps.whenPure
    apply Keeps.bind
    · refine Keeps.bind (flagsAt_keeps index) ?_
      intro flags
      exact Keeps.whenPure (collapseByIndex_sound index)
    · intro _
      exact ih (index + 1)

lemma collapseAll_sound : Keeps (Sound held) collapseAll :=
  readThen_keeps fun size => collapseAllFrom_sound size 0

end Threads

section Sorting

variable (env : ViewEnv)

variable (sortType : SortType)

lemma sortRows_sound (sortOrder) : Keeps (Sound held) (sortRows env sortType sortOrder) := by
  intro view sound
  rw [sortRows]
  dsimp only
  split
  · exact sound
  · cases outcome : env.quickSort view sortType sortOrder
        (view.rows.keys.zip view.rows.flags) with
    | none => exact sound
    | some sorted =>
      intro paired
      have length := env.quickSort_length _ _ _ _ _ outcome
      obtain ⟨inStep, kept⟩ := sound paired
      refine ⟨inStep.of_lengths ?_ ?_ rfl, kept⟩
      · rw [length_map, length, length_zip, ← inStep.1, Nat.min_self]
      · rw [length_append, length_map, length, length_zip, ← inStep.1,
          Nat.min_self, length_drop, inStep.1]
        change _ + (_ - view.rows.keys.length) = _
        rw [inStep.1, Nat.sub_self]
        rfl

lemma reverseRows_sound (threadedDisplay : Bool) : Keeps (Sound held) (reverseRows threadedDisplay) := by
  apply changeRows_sound
  intro rows later inStep reversed
  split at reversed
  · exact inStep.reverseThreads reversed
  · exact inStep.reverseSort reversed

lemma baseSort_sound (sortOrder) : Keeps (Sound held) (baseSort env sortType sortOrder) := by
  apply readThen_keeps
  intro view
  apply Keeps.ite
  · intro _
    apply Keeps.unlessPure
    apply (reverseRows_sound _).bind
    intro _
    exact updateRest_sound (fun _ => rfl) (fun _ => rfl) fun _ => rfl
  · intro _
    exact Keeps.unlessPure (sortRows_sound env sortType sortOrder)

lemma markThread_sound (index : Nat) (flags : UInt32) :
    Keeps (Sound held) (markThread env index flags) := by
  apply readThen_keeps
  intro view
  split
  · exact Keeps.whenPure (setFlagsAt_sound _ _)
  · exact Keeps.pure _

lemma expandAgain_sound (index : Nat) (flags : UInt32) :
    Keeps (Sound held) (expandAgain env index flags) := by
  apply (setFlagsAt_sound _ _).bind
  intro _
  apply (expandByIndex_sound env index).bind
  intro numExpanded
  cases numExpanded with
  | none => exact Keeps.throw _
  | some numExpanded =>
    apply Keeps.whenPure
    exact (setFlagsAt_sound _ _).bind fun _ => Keeps.pure _

lemma expandSortedFrom_sound (fuel index : Nat) :
    Keeps (Sound held) (expandSortedFrom env fuel index) := by
  induction fuel generalizing index with
  | zero => exact Keeps.pure _
  | succ fuel ih =>
    apply readThen_keeps
    intro size
    apply Keeps.unlessPure
    refine Keeps.bind (flagsAt_keeps index) ?_
    intro flags
    apply Keeps.ite
    · intro _
      exact (expandAgain_sound env index flags).bind fun _ => ih _
    · intro _
      apply Keeps.ite
      · intro _
        exact (markThread_sound env index flags).bind fun _ => ih _
      · intro _
        exact ih _

lemma sortThreads_sound (sortOrder) : Keeps (Sound held) (sortThreads env sortType sortOrder) := by
  apply Keeps.bind
  · exact changeRows_sound fun _ _ _ kept => Rows.topRows?_inStep kept
  · intro _
    apply Keeps.bind
    · exact updateRest_sound (fun _ => rfl) (fun _ => rfl) fun _ => rfl
    · intro _
      apply (baseSort_sound env sortType sortOrder).bind
      intro _
      apply Keeps.bind
      · exact updateRest_sound (fun _ => rfl) (fun _ => rfl) fun _ => rfl
      · intro _
        exact readThen_keeps fun size => expandSortedFrom_sound env size 0

/-- Without kept rows there is nothing to drift apart from the rows shown. -/
theorem clearPrevIdArray_sound : Keeps (Sound held) clearPrevIdArray := by
  apply Keeps.update
  intro view sound paired
  exact ⟨(sound paired).1, ⟨rfl, rfl⟩, (sound paired).2.2⟩

lemma flatten_sound : Keeps (Sound held) (flatten env) := by
  apply Keeps.bind
  · apply Keeps.update
    intro view sound paired
    exact ⟨(sound paired).1, (sound paired).1, (sound paired).2.2⟩
  · intro _
    apply (expandAll_sound env).bind
    intro _
    exact updateRest_sound (fun _ => rfl) (fun _ => rfl) fun _ => rfl

lemma restorePrevView_sound : Keeps (Sound held) restorePrevView := by
  apply Keeps.update
  intro view sound paired
  exact ⟨(sound paired).2.1, (sound paired).2⟩

lemma sortFilled_sound (sound : Keeps (Sound held) rebuild) (view) (sortType) (sortOrder) :
    Keeps (Sound held) (sortFilled env rebuild view sortType sortOrder) := by
  have sorted (sortType : SortType) : Keeps (Sound held) (baseSort env sortType sortOrder) :=
    baseSort_sound env sortType sortOrder
  apply Keeps.ite
  · intro _
    apply Keeps.ite
    · intro _
      apply Keeps.bind
      · exact updateRest_sound (fun _ => rfl) (fun _ => rfl) fun _ => rfl
      · intro _
        exact Keeps.ite (fun _ => restorePrevView_sound) fun _ => sound
    · intro _
      apply Keeps.ite
      · intro _
        exact sortThreads_sound env _ sortOrder
      · intro _
        apply Keeps.ite
        · intro _
          exact (flatten_sound env).bind fun _ => sorted _
        · intro _
          exact sorted _
  · intro _
    apply Keeps.ite
    · intro _
      exact (sorted _).bind fun _ => sorted _
    · intro _
      exact sorted _

lemma sortWith_sound (sound : Keeps (Sound held) rebuild) (sortType) (sortOrder) :
    Keeps (Sound held) (sortWith env rebuild sortType sortOrder) := by
  apply readThen_keeps
  intro view
  apply Keeps.ite
  · intro _
    exact updateRest_sound (fun _ => rfl) (fun _ => rfl) fun _ => rfl
  · intro _
    exact Keeps.unlessPure (sortFilled_sound env sound view _ _)

lemma initSort_sound (sortOrder) : Keeps (Sound held) (initSort env sortType sortOrder) := by
  apply readThen_keeps
  intro grouped
  apply Keeps.unlessPure
  apply Keeps.bind
  · apply Keeps.ite
    · intro _
      apply (baseSort_sound env _ sortOrder).bind
      intro _
      exact updateRest_sound (fun _ => rfl) (fun _ => rfl) fun _ => rfl
    · intro _
      exact Keeps.pure _
  · intro _
    apply Keeps.bind
    · apply readThen_keeps
      intro viewFlags
      exact Keeps.whenPure (expandAll_sound env)
    · intro _
      apply (sortWith_sound env (Keeps.throw _) sortType sortOrder).bind
      intro _
      exact Keeps.unlessPure clearPrevIdArray_sound

lemma appendRow_sound (key : Nat) (flags : UInt32) (level : UInt8) :
    Keeps (Sound held) (appendRow key flags level) := by
  apply Keeps.update
  intro view sound paired
  obtain ⟨⟨ofFlags, ofLevels⟩, kept⟩ := sound paired
  refine ⟨⟨?_, ?_⟩, kept⟩
  · rw [length_append, length_append, ofFlags]
    rfl
  · rw [length_append, length_append, ofLevels]
    rfl

variable (viewFlags : ViewFlags)

lemma addThreadRow_sound (key : Nat) (flags : UInt32) :
    Keeps (Sound held) (addThreadRow env viewFlags key flags) := by
  apply (appendRow_sound _ _ _).bind
  intro _
  apply Keeps.whenPure
  apply readThen_keeps
  intro size
  exact (expandByIndex_sound env _).bind fun _ => Keeps.pure _

lemma addThreads_sound (threads) : Keeps (Sound held) (addThreads env viewFlags threads) := by
  induction threads with
  | nil => exact Keeps.pure _
  | cons thread rest ih =>
    apply Keeps.ite
    · intro _
      exact ih
    · intro _
      split
      · exact Keeps.pure _
      · apply Keeps.ite
        · intro _
          exact ih
        · intro _
          exact (addThreadRow_sound env viewFlags _ _).bind fun _ => ih

lemma initThreadedView_sound : Keeps (Sound held) (initThreadedView env) := by
  apply Keeps.bind
  · apply Keeps.update
    intro view sound paired
    exact ⟨⟨rfl, rfl⟩, ⟨rfl, rfl⟩, (sound paired).2.2⟩
  · intro _
    cases env.threads with
    | none => exact Keeps.pure _
    | some threads =>
      apply readThen_keeps
      intro view
      apply (addThreads_sound env view.viewFlags threads).bind
      intro complete
      exact Keeps.whenPure (initSort_sound env _ _)

lemma sort_sound (sortOrder) : Keeps (Sound held) (sort env sortType sortOrder) := by
  apply sortWith_sound
  apply (initThreadedView_sound env).bind
  intro _
  apply Keeps.unlessPure
  exact sortWith_sound env (Keeps.throw _) _ sortOrder

end Sorting

end CommCentral.View
