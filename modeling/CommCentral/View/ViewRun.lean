import CommCentral.View.RowsInStep

/-! Runs of a threaded message list view: the row arrays stay in step until a row that is
read is expanded in a view of unread messages. -/
namespace CommCentral.View

open Lib List
open Attempt (Keeps)

section Events

variable {property : ThreadedView → Prop} (env : ViewEnv)

variable (hdr : RowHdr)

lemma addHdr_sound : Keeps (Sound held) (addHdr env hdr) := by
  apply readThen_keeps
  intro viewFlags
  apply Keeps.unlessPure
  apply Keeps.bind
  · apply readThen_keeps
    intro view
    cases env.insertIndex view hdr with
    | some index => exact (insertMsgHdrAt_sound _ _ _ _).bind fun _ => Keeps.pure _
    | none =>
      apply (insertMsgHdrAt_sound _ _ _ _).bind
      intro _
      apply Keeps.bind
      · exact updateRest_sound (fun _ => rfl) (fun _ => rfl) fun _ => rfl
      · intro _
        exact Keeps.pure _
  · intro index
    exact clearPrevIdArray_sound.bind fun _ => Keeps.pure _

lemma findParentInThread_keeps (start steps parentKey : Nat) :
    Keeps property (findParentInThread env start steps parentKey) := by
  induction steps generalizing parentKey with
  | zero => exact Keeps.throw _
  | succ steps ih =>
    apply Keeps.unlessPure
    apply readThen_keeps
    intro view
    cases indexOfKey view parentKey start with
    | some parentIndex => exact Keeps.pure _
    | none =>
      cases env.msgHdrForKey parentKey with
      | none => exact Keeps.pure _
      | some hdr => exact ih hdr.threadParent

lemma startOfThread_keeps (index : Nat) : Keeps property (startOfThread index) := by
  induction index with
  | zero => exact (levelAt_keeps 0).bind fun _ => Keeps.pure _
  | succ index ih =>
    refine Keeps.bind (levelAt_keeps _) ?_
    intro level
    exact Keeps.unlessPure ih

lemma threadIndexOfMsgHdr_keeps : Keeps property (threadIndexOfMsgHdr env hdr) := by
  apply readThen_keeps
  intro view
  cases (env.threadContaining hdr).join with
  | none => exact Keeps.pure _
  | some thread =>
    dsimp only
    cases (findHdr view hdr.messageKey true).or (indexOfFirstDisplayedKey view thread) with
    | none => exact Keeps.pure _
    | some index => exact startOfThread_keeps index

lemma threadIndexOfMsg_keeps (msgKey : Nat) : Keeps property (threadIndexOfMsg env msgKey) := by
  apply readThen_keeps
  intro threaded
  apply Keeps.whenPure
  cases env.msgHdrForKey msgKey with
  | none => exact Keeps.pure _
  | some hdr => exact threadIndexOfMsgHdr_keeps env hdr

lemma threadRows_held {children : Rows} (sound : Sound held view)
    (copied : threadRows index view = (.ok children, later)) : Sound children later := by
  change (if _ ≤ _ then _ else _ : ViewM Rows) view = _ at copied
  split at copied
  · cases copied
    intro paired
    obtain ⟨inStep, kept, -⟩ := sound paired
    refine ⟨inStep, kept, ?_, ?_⟩
    · rw [length_take, length_take, length_drop, length_drop, inStep.1]
    · have below := ( takeWhile_prefix (p := (· != 0))
        (l := (view.rows.levels.take view.size).drop (index + 1))).length_le
      rw [length_drop, length_take] at below
      rw [length_take, length_drop]
      exact Nat.min_eq_left (below.trans (Nat.sub_le_sub_right (Nat.min_le_left _ _) _))
  · cases copied

lemma expansionDelta_keeps (index : Nat) : Keeps property (expansionDelta index) := by
  apply readThen_keeps
  intro threaded
  exact Keeps.whenPure (countExpandedThread_keeps index)

lemma collectThread_sound (index : Nat) (saveFlags : UInt32) :
    Keeps (Sound held) (collectThread index saveFlags) := by
  apply Keeps.unlessPure
  refine Keeps.bind (expansionDelta_keeps index) ?_
  intro _
  apply Keeps.bind
  · apply readThen_keeps
    intro view
    exact Keeps.unlessPure (Keeps.throw _)
  · intro children
    exact (collapseByIndex_sound index).bind fun _ => Keeps.pure _

lemma collectThread_held {children : Rows} (sound : Sound held view)
    (collected : collectThread index saveFlags view = (.ok children, later)) :
    Sound children later := by
  rw [collectThread] at collected
  split at collected
  · cases collected
    intro paired
    exact ⟨(sound paired).1, (sound paired).2.1, rfl, rfl⟩
  · obtain ⟨_, counted, ofCount, collected⟩ := Attempt.bind_ok collected
    obtain ⟨rows, copied, ofCopied, collected⟩ := Attempt.bind_ok collected
    obtain ⟨_, collapsed, ofCollapsed, collected⟩ := Attempt.bind_ok collected
    cases collected
    have before := expansionDelta_keeps index view sound
    rw [ofCount] at before
    have after := collapseByIndex_sound index copied (threadRows_held before ofCopied)
    rw [ofCollapsed] at after
    exact after

lemma insertChildren_sound (newIndex) (saveFlags : UInt32) :
    Keeps (Sound held) (insertChildren newIndex held saveFlags) := by
  apply Keeps.ite
  · intro _
    exact Keeps.pure _
  · intro _ view sound
    rw [changeRows]
    cases outcome : view.rows.insert? (newIndex.elim 0 (· + 1)) held with
    | none => exact sound
    | some rows =>
      intro paired
      obtain ⟨inStep, kept, holding⟩ := sound paired
      exact ⟨inStep.insert holding outcome, kept, holding⟩

lemma moveThreadAt_sound (threadIndex : Nat) :
    Keeps (Sound {}) (moveThreadAt env threadIndex) := by
  apply readThen_keeps
  intro view
  refine Keeps.bind (flagsAt_keeps threadIndex) ?_
  intro saveFlags
  apply (collectThread_sound threadIndex saveFlags).bind_of
  intro start children later sound outcome _
  -- The rows of the thread are in the locals until they are inserted again.
  have rest : Keeps (Sound children) (do
      removeRow threadIndex
      let hdr ← demand (msgHdrForViewIndex env view threadIndex)
      let added ← addHdr env hdr
      let found ← Attempt.read fun view : ThreadedView => findHdr view hdr.messageKey false
      insertChildren (added.or found) children saveFlags
      setFlagsAt ((added.or found).getD 0) saveFlags) := by
    apply (removeRow_sound threadIndex).bind
    intro _
    refine Keeps.bind (demand_keeps _) ?_
    intro hdr
    apply (addHdr_sound env hdr).bind
    intro added
    apply readThen_keeps
    intro found
    exact (insertChildren_sound _ _).bind fun _ => setFlagsAt_sound _ _
  intro paired
  obtain ⟨inStep, kept, -⟩ := rest later (collectThread_held sound outcome) paired
  exact ⟨inStep, kept, rfl, rfl⟩

lemma markParent_sound (viewFlags) (index : Nat) (flags : UInt32) :
    Keeps (Sound held) (markParent viewFlags index flags) := by
  apply Keeps.unlessPure
  exact (setFlagsAt_sound _ _).bind fun _ => Keeps.pure _

lemma addToThread_sound (parentKey threadIndex : Nat) (flags : UInt32) :
    Keeps (Sound held) (addToThread env hdr parentKey threadIndex flags) := by
  apply Keeps.ite
  · intro _
    apply Keeps.ite
    · intro _
      apply (insertMsgHdrAt_sound _ _ _ _).bind
      intro _
      apply (collapseByIndex_sound threadIndex).bind
      intro _
      exact (expandByIndex_sound env threadIndex).bind fun _ => Keeps.pure _
    · intro _
      refine Keeps.bind (findParentInThread_keeps env _ _ _) ?_
      intro parentIndex
      refine Keeps.bind (levelAt_keeps parentIndex) ?_
      intro level
      apply Keeps.bind
      · exact readThen_keeps fun _ => Keeps.pure _
      · intro insertIndex
        exact insertMsgHdrAt_sound _ _ _ _
  · intro _
    apply Keeps.whenPure
    exact changeRows_sound fun _ _ inStep assigned => inStep.setKey assigned

lemma expandDisplayed_sound (threadIndex : Nat) :
    Keeps (Sound held) (expandDisplayed env hdr threadIndex) := by
  apply Keeps.whenPure
  refine Keeps.bind (flagsAt_keeps threadIndex) ?_
  intro flags
  apply Keeps.whenPure
  exact (expandByIndex_sound env threadIndex).bind fun _ => Keeps.pure _

lemma onNewThreadHeader_sound (parentKey : Nat) (view) :
    Keeps (Sound {}) (onNewThreadHeader env hdr parentKey view) := by
  refine Keeps.bind (threadIndexOfMsg_keeps env _) ?_
  intro threadIndex
  cases threadIndex with
  | some threadIndex =>
    refine Keeps.bind (flagsAt_keeps threadIndex) ?_
    intro _
    apply (markParent_sound _ _ _).bind
    intro flags
    apply (addToThread_sound env hdr parentKey threadIndex flags).bind
    intro _
    apply (expandDisplayed_sound env hdr threadIndex).bind
    intro _
    exact Keeps.whenPure (moveThreadAt_sound env threadIndex)
  | none =>
    dsimp only
    cases (env.threadContaining hdr).join with
    | none => exact Keeps.pure _
    | some thread =>
      apply Keeps.unlessPure
      exact (addHdr_sound env hdr).bind fun _ => Keeps.pure _

lemma addHdrToThread_sound : Keeps (Sound held) (addHdrToThread env hdr) := by
  apply readThen_keeps
  intro view
  cases env.groupIndex view hdr with
  | none => exact Keeps.pure _
  | some group =>
    cases group with
    | none => exact (insertMsgHdrAt_sound _ _ _ _).bind fun _ => Keeps.pure _
    | some index =>
      apply Keeps.whenPure
      refine Keeps.bind (flagsAt_keeps index) ?_
      intro flags
      exact (setMsgHdrAt_sound _ _ _ _).bind fun _ => Keeps.pure _

lemma updatePrevFlags_inStep (inStep : prevRows.InStep)
    (updated : updatePrevFlags prevRows key flags = some later) : later.InStep := by
  rw [updatePrevFlags] at updated
  split at updated
  · cases updated
    exact inStep
  · obtain ⟨prevFlag, -, updated⟩ := Option.bind_eq_some_iff.mp updated
    exact inStep.setFlags updated

lemma onExtraFlagChanged_sound (index : Nat) (flags : UInt32) :
    Keeps (Sound held) (onExtraFlagChanged index flags) := by
  intro view sound
  rw [onExtraFlagChanged]
  split
  · split
    · exact sound
    · exact sound
    · rename_i prevRows updated
      obtain ⟨key, -, updated⟩ := Option.map_eq_some_iff.mp updated
      intro paired
      obtain ⟨inStep, kept, holding⟩ := sound paired
      exact ⟨inStep, updatePrevFlags_inStep kept updated, holding⟩
  · exact sound

lemma markGroup_sound (sortType) (thread) (index : Nat) :
    Keeps (Sound held) (markGroup sortType thread index) := by
  apply Keeps.whenPure
  refine Keeps.bind (flagsAt_keeps index) ?_
  intro flags
  exact (setFlagsAt_sound _ _).bind fun _ => onExtraFlagChanged_sound _ _

lemma openGroup_sound (expands : ThreadedView → RowThread → Bool) (thread) (index : Nat) :
    Keeps (Sound held) (openGroup env expands thread index) := by
  apply readThen_keeps
  intro view
  apply (markGroup_sound _ _ _).bind
  intro _
  apply Keeps.whenPure
  apply (expandByIndex_sound env index).bind
  intro numExpanded
  cases numExpanded with
  | none => exact Keeps.throw _
  | some numExpanded => exact Keeps.pure _

lemma openGroupsFrom_sound (expands : ThreadedView → RowThread → Bool) (fuel index : Nat) :
    Keeps (Sound held) (openGroupsFrom env expands fuel index) := by
  induction fuel generalizing index with
  | zero => exact Keeps.pure _
  | succ fuel ih =>
    apply readThen_keeps
    intro view
    apply Keeps.unlessPure
    cases (threadContainingIndex env view index).join with
    | none => exact ih (index + 1)
    | some thread => exact (openGroup_sound env expands thread index).bind fun _ => ih _

variable (headers : List RowHdr)

lemma addHdrsToThreads_sound : Keeps (Sound held) (addHdrsToThreads env headers) := by
  induction headers with
  | nil => exact Keeps.pure _
  | cons hdr rest ih => exact (addHdrToThread_sound env hdr).bind fun _ => ih

lemma openWithHdrs_sound : Keeps (Sound held) (openWithHdrs env headers) := by
  apply readThen_keeps
  intro sortType
  apply Keeps.unlessPure
  apply Keeps.bind
  · exact updateRest_sound (fun _ => rfl) (fun _ => rfl) fun _ => rfl
  · intro _
    apply Keeps.unlessPure
    apply (addHdrsToThreads_sound env headers).bind
    intro _
    cases env.expandsGroup with
    | none => exact Keeps.pure _
    | some expands => exact readThen_keeps fun size => openGroupsFrom_sound env expands size 0

lemma rebuildView_sound : Keeps (Sound held) (rebuildView env) := by
  rw [rebuildView]
  cases env.headers with
  | none => exact Keeps.pure _
  | some headers =>
    apply Keeps.bind
    · apply Keeps.update
      intro view sound paired
      exact ⟨⟨rfl, rfl⟩, (sound paired).2⟩
    · intro _
      exact openWithHdrs_sound env headers

lemma showInGroup_sound (newThread : Bool) (threadIndex : Nat) :
    Keeps (Sound held) (showInGroup env hdr newThread threadIndex) := by
  apply readThen_keeps
  intro view
  refine Keeps.bind (flagsAt_keeps threadIndex) ?_
  intro flags
  apply (setFlagsAt_sound _ _).bind
  intro _
  exact Keeps.unlessPure (insertMsgHdrAt_sound _ _ _ _)

lemma onNewGroupHeader_sound : Keeps (Sound held) (onNewGroupHeader env hdr) := by
  apply Keeps.ite
  · intro _
    exact rebuildView_sound env
  · intro _
    apply (addHdrToThread_sound env hdr).bind
    intro added
    cases added with
    | none => exact Keeps.pure _
    | some newThread =>
      refine Keeps.bind (threadIndexOfMsgHdr_keeps env hdr) ?_
      intro threadIndex
      cases threadIndex with
      | none => exact Keeps.pure _
      | some threadIndex => exact showInGroup_sound env hdr newThread threadIndex

lemma onNewHeader_sound (parentKey : Nat) (ensureListed : Bool) :
    Keeps (Sound {}) (onNewHeader env hdr parentKey ensureListed) := by
  apply readThen_keeps
  intro view
  apply Keeps.ite
  · intro _
    exact onNewGroupHeader_sound env hdr
  · intro _
    apply Keeps.unlessPure
    apply Keeps.ite
    · intro _
      exact onNewThreadHeader_sound env hdr parentKey view
    · intro _
      exact (addHdr_sound env hdr).bind fun _ => Keeps.pure _

variable (thread : RowThread)

lemma promoteNext_sound (index : Nat) : Keeps (Sound held) (promoteNext thread index) := by
  apply (removeRow_sound index).bind
  intro _
  apply readThen_keeps
  intro size
  apply Keeps.whenPure
  cases thread.getChildHdrAt 0 with
  | none => exact Keeps.pure _
  | some hdr =>
    apply (setFlagsAt_sound _ _).bind
    intro _
    exact changeRows_sound fun _ _ inStep assigned => inStep.setLevel assigned

lemma unmarkThread_sound (key : Nat) : Keeps (Sound held) (unmarkThread key) := by
  apply readThen_keeps
  intro view
  cases findKey view key with
  | none => exact Keeps.pure _
  | some threadIndex => exact (flagsAt_keeps threadIndex).bind fun _ => setFlagsAt_sound _ _

lemma replaceTop_sound (index : Nat) : Keeps (Sound held) (replaceTop thread index) := by
  rw [replaceTop]
  cases thread.getChildHdrAt 0 with
  | none => exact Keeps.pure _
  | some hdr =>
    apply Keeps.bind
    · exact changeRows_sound fun _ _ inStep assigned => inStep.setKey assigned
    · intro _
      exact setFlagsAt_sound _ _

lemma removeThreadedRow_sound (thread) (flags : UInt32) (index : Nat) :
    Keeps (Sound held) (removeThreadedRow thread flags index) := by
  apply Keeps.ite
  · intro _
    cases thread with
    | none => exact Keeps.pure _
    | some thread => exact promoteNext_sound thread index
  · intro _
    apply Keeps.ite
    · intro _
      rw [removeChildRow]
      split
      · exact (unmarkThread_sound _).bind fun _ => removeRow_sound index
      · exact removeRow_sound index
    · intro _
      cases thread with
      | none => exact removeRow_sound index
      | some thread =>
        exact Keeps.ite (fun _ => replaceTop_sound thread index) fun _ => removeRow_sound index

lemma removeByIndex_sound (index : Nat) : Keeps (Sound held) (removeByIndex env index) := by
  apply readThen_keeps
  intro view
  apply Keeps.unlessPure
  apply clearPrevIdArray_sound.bind
  intro _
  refine Keeps.bind (flagsAt_keeps index) ?_
  intro flags
  exact Keeps.ite (fun _ => removeThreadedRow_sound _ _ _) fun _ => removeRow_sound index

/-- One step of a view, whichever way it ends. -/
theorem perform_sound (op : ViewOp) : Keeps (Sound {}) (op.perform env) := by
  cases op with
  | initThreadedView => exact initThreadedView_sound env
  | expandByIndex index => exact (expandByIndex_sound env index).bind fun _ => Keeps.pure _
  | collapseByIndex index => exact collapseByIndex_sound index
  | expandAll => exact expandAll_sound env
  | collapseAll => exact collapseAll_sound
  | onNewHeader hdr parentKey ensureListed => exact onNewHeader_sound env hdr parentKey ensureListed
  | removeByIndex index => exact removeByIndex_sound env index
  | moveThreadAt index => exact moveThreadAt_sound env index
  | sort sortType sortOrder => exact sort_sound env sortType sortOrder

end Events

lemma reached_sound (steps) {start : ThreadedView} (sound : Sound {} start) :
    ∀ view ∈ reached start steps, Sound {} view := by
  induction steps generalizing start with
  | nil =>
    intro view mem
    cases mem
  | cons step rest ih =>
    obtain ⟨env, op⟩ := step
    have kept := perform_sound env op start sound
    rw [reached]
    cases outcome : op.perform env start with
    | mk result later =>
      rw [outcome] at kept
      cases result with
      | error halt =>
        intro view mem
        cases mem
      | ok value =>
        intro view mem
        cases mem with
        | head => exact kept
        | tail _ mem => exact ih kept view mem

/-- A message that was sent at the time of its key. -/
def sampleHdr (messageKey threadParent : Nat) (isRead : Bool) : RowHdr where
  messageKey := messageKey
  flags := if isRead then flagRead else 0
  isRead := isRead
  isKilled := false
  threadParent := threadParent
  dateInSeconds := messageKey

/-- A thread of the messages, the first of them its root. -/
def sampleThread (hdrs : List RowHdr) : RowThread where
  flags := 0
  numChildren := hdrs.length
  numUnreadChildren := (hdrs.filter fun hdr => !hdr.isRead).length
  childKeys := hdrs.map RowHdr.messageKey
  children := hdrs.map some
  firstUnreadChild := hdrs.find? fun hdr => !hdr.isRead
  rootHdr := hdrs.head?
  newestMsgDate := 3
  messages := fun key => some (hdrs.filter fun hdr => hdr.threadParent == key)

/-- A mailbox of one thread, sorted already. -/
def sampleEnv (known hdrs : List RowHdr) : ViewEnv where
  msgHdrForKey := fun key => known.find? fun hdr => hdr.messageKey == key
  threadContaining := fun _ => some (some (sampleThread hdrs))
  threads := some [sampleThread hdrs]
  wantsThisThread := fun _ => true
  parentSteps := 10
  insertIndex := fun _ _ => none
  currentlyDisplayedViewIndex := none
  customColumnsMissing := false
  sameSortColumns := true
  quickSort := fun _ _ _ entries => some entries
  quickSort_length := fun _ _ _ _ _ sorted => by cases sorted; rfl
  dayChanged := false
  headers := none
  customHandlerMissing := false
  groupIndex := fun _ _ => none
  insertedInGroup := fun _ _ => 0
  indexInGroup := fun _ _ => 0
  expandsGroup := none

/-- The first message of the thread is unread, then one is read and one is not. -/
def threeMessages : List RowHdr :=
  [sampleHdr 1 nsMsgKey_None false, sampleHdr 2 1 true, sampleHdr 3 2 false]

/-- The thread is collapsed, its first message is deleted and the thread is expanded. -/
def promotedRun : List (ViewEnv × ViewOp) :=
  let before := sampleEnv threeMessages threeMessages
  let after := sampleEnv threeMessages threeMessages.tail
  [(before, .initThreadedView), (before, .collapseByIndex 0), (after, .removeByIndex 0),
    (after, .expandByIndex 0)]

def unreadThreads : ThreadedView :=
  ThreadedView.new { threadedDisplay := true, unreadOnly := true } .byDate .ascending

/-- In every run of a view from the start the row arrays are in step as long as no row that
is read was expanded while only unread messages were shown. -/
theorem rows_inStep (viewFlags : ViewFlags) (sortType : SortType) (sortOrder : SortOrder)
    (steps : List (ViewEnv × ViewOp)) :
    ∀ view ∈ reached (ThreadedView.new viewFlags sortType sortOrder) steps,
      (∀ expansion ∈ view.expansions, ¬ (expansion.unreadOnly ∧ hasFlag expansion.flags flagRead)) →
        view.rows.InStep := by
  intro view mem paired
  have start : Sound {} (ThreadedView.new viewFlags sortType sortOrder) := by
    intro _
    exact ⟨⟨rfl, rfl⟩, ⟨rfl, rfl⟩, rfl, rfl⟩
  exact (reached_sound steps start view mem paired).1

/-- Up to the last step of the run every expanded row was unread. -/
theorem rows_inStep_promoted : (reached unreadThreads (promotedRun.take 3)).length = 3 ∧
    ∀ view ∈ reached unreadThreads (promotedRun.take 3), view.rows.InStep := by
  have paired : ∀ view ∈ reached unreadThreads (promotedRun.take 3),
      ∀ expansion ∈ view.expansions,
        ¬ (expansion.unreadOnly ∧ hasFlag expansion.flags flagRead) := by
    decide +kernel
  refine ⟨by decide +kernel, ?_⟩
  intro view mem
  exact rows_inStep _ _ _ _ view mem (paired view mem)

/-- The last step leaves three levels for two messages. -/
theorem expanded_read_row_drifts : ¬ ∀ viewFlags sortType sortOrder steps,
    ∀ view ∈ reached (ThreadedView.new viewFlags sortType sortOrder) steps,
      view.rows.InStep := by
  intro inStep
  have drifted : ¬ ∀ view ∈ reached unreadThreads promotedRun, view.rows.InStep := by
    decide +kernel
  exact drifted (inStep _ _ _ promotedRun)

end CommCentral.View
