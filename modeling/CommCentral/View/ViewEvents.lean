import CommCentral.View.ViewSort

/-! What a threaded message list view does on a new header, on a removed row and when a
thread moves. -/
namespace CommCentral.View

open Lib

section

variable (env : ViewEnv)

/-- The thread flags of a row that is added alone, a thread of its own without a parent. -/
def addedFlags (hdr : RowHdr) : UInt32 :=
  if hdr.threadParent = nsMsgKey_None then hdr.flags ||| viewFlagIsThread else hdr.flags

/-- The insertion of `AddHdr`. Without a place for the header the view is not sorted any
more. -/
def insertHdr (hdr : RowHdr) : ViewM Nat := do
  let view ← Attempt.read fun view : ThreadedView => view
  match env.insertIndex view hdr with
  | some index => do
    insertMsgHdrAt index hdr.messageKey (addedFlags hdr) 0
    pure index
  | none => do
    let index := if view.sortOrder = .ascending then view.size else 0
    insertMsgHdrAt index hdr.messageKey (addedFlags hdr) 0
    Attempt.update fun view => { view with sortValid := false }
    pure index

/-- The header is left out of a view that does not show ignored messages. -/
def ignoresHdr (viewFlags : ViewFlags) (hdr : RowHdr) : Bool :=
  let thread := (env.threadContaining hdr).join
  !viewFlags.showIgnored && (thread.any (fun thread => hasFlag thread.flags flagIgnored) ||
    hdr.isKilled)

/-- `AddHdr`, with `*resultIndex` if it is not `nsMsgViewIndex_None`. -/
def addHdr (hdr : RowHdr) : ViewM (Option Nat) := do
  let viewFlags ← Attempt.read ThreadedView.viewFlags
  if ignoresHdr env viewFlags hdr then pure none
  else do
    let index ← insertHdr env hdr
    clearPrevIdArray
    pure (some index)

def findParentInThread (startOfThread : Nat) : (steps parentKey : Nat) → ViewM Nat
  | 0, _ => Attempt.throw .endless
  | steps + 1, parentKey =>
    if parentKey = nsMsgKey_None then pure startOfThread
    else do
      let view ← Attempt.read fun view : ThreadedView => view
      match indexOfKey view parentKey startOfThread with
      | some parentIndex => pure parentIndex
      | none =>
        match env.msgHdrForKey parentKey with
        | none => pure startOfThread
        | some hdr => findParentInThread startOfThread steps hdr.threadParent

/-- The row after the parent and the rows below it whose level is not under `targetLevel`. -/
def getInsertInfoForNewHdr (parentIndex targetLevel : Nat) : ViewM Nat := do
  let view ← Attempt.read fun view : ThreadedView => view
  let below := (view.rows.levels.take view.size).drop (parentIndex + 1)
  pure (parentIndex + 1 + (below.takeWhile fun level => targetLevel ≤ level.toNat).length)

/-- The row of level 0 at or above the index. -/
def startOfThread : (index : Nat) → ViewM (Option Nat)
  | 0 => do
    let level ← levelAt 0
    pure (if level = 0 then some 0 else none)
  | index + 1 => do
    let level ← levelAt (index + 1)
    if level = 0 then pure (some (index + 1)) else startOfThread index

/-- `GetIndexOfFirstDisplayedKeyInThread`, dummy rows allowed. -/
def indexOfFirstDisplayedKey (view : ThreadedView) (thread : RowThread) : Option Nat :=
  thread.childHdrs.findSome? fun child => child.bind fun hdr => findHdr view hdr.messageKey true

def threadIndexOfMsgHdr (hdr : RowHdr) : ViewM (Option Nat) := do
  let view ← Attempt.read fun view : ThreadedView => view
  match (env.threadContaining hdr).join with
  | none => pure none
  | some thread =>
    match (findHdr view hdr.messageKey true).or (indexOfFirstDisplayedKey view thread) with
    | none => pure none
    | some index => startOfThread index

def threadIndexOfMsg (msgKey : Nat) : ViewM (Option Nat) := do
  let threaded ← Attempt.read fun view : ThreadedView => view.viewFlags.threadedDisplay
  if threaded then
    match env.msgHdrForKey msgKey with
    | none => pure none
    | some hdr => threadIndexOfMsgHdr env hdr
  else pure none

def msgHdrForViewIndex (view : ThreadedView) (index : Nat) : Option RowHdr := do
  let key ← view.rows.keys[index]?
  if key = nsMsgKey_None then none else env.msgHdrForKey key

/-- Copies of the rows below the first row of an expanded thread. -/
def threadRows (index : Nat) : ViewM Rows := do
  let view ← Attempt.read fun view : ThreadedView => view
  let levels := ((view.rows.levels.take view.size).drop (index + 1)).takeWhile (· != 0)
  let count := levels.length
  if index + 1 + count ≤ view.rows.flags.length then
    pure
      ⟨(view.rows.keys.drop (index + 1)).take count,
        (view.rows.flags.drop (index + 1)).take count, levels⟩
  else Attempt.throw .crash

def expansionDelta (index : Nat) : ViewM Nat := do
  let threaded ← Attempt.read fun view : ThreadedView => view.viewFlags.threadedDisplay
  if threaded then countExpandedThread index else pure 0

/-- The rows of an expanded thread are copied before it is collapsed. -/
def collectThread (index : Nat) (saveFlags : UInt32) : ViewM Rows :=
  if hasFlag saveFlags flagElided then pure {}
  else do
    let _ ← expansionDelta index
    let children ← threadRows index
    collapseByIndex index
    pure children

/-- A thread that is not found again has its rows put at the top. -/
def insertChildren (newIndex : Option Nat) (children : Rows) (saveFlags : UInt32) : ViewM Unit :=
  if hasFlag saveFlags flagElided then pure ()
  else changeRows fun rows => rows.insert? (newIndex.elim 0 (· + 1)) children

def moveThreadAt (threadIndex : Nat) : ViewM Unit := do
  let view ← Attempt.read fun view : ThreadedView => view
  let saveFlags ← flagsAt threadIndex
  let children ← collectThread threadIndex saveFlags
  removeRow threadIndex
  let hdr ← demand (msgHdrForViewIndex env view threadIndex)
  let added ← addHdr env hdr
  let found ← Attempt.read fun view : ThreadedView => findHdr view hdr.messageKey false
  insertChildren (added.or found) children saveFlags
  setFlagsAt ((added.or found).getD 0) saveFlags

/-- A row that gets its first child becomes a thread. -/
def markParent (viewFlags : ViewFlags) (index : Nat) (flags : UInt32) : ViewM UInt32 :=
  if hasFlag flags viewFlagHasChildren then pure flags
  else do
    let flags := flags ||| viewFlagHasChildren ||| viewFlagIsThread
    let flags := if viewFlags.unreadOnly then flags else flags ||| flagElided
    setFlagsAt index flags
    pure flags

/-- A new header in an expanded thread. One without a parent is the new first row. -/
def insertInThread (hdr : RowHdr) (parentKey threadIndex : Nat) : ViewM Unit :=
  if parentKey = nsMsgKey_None then do
    insertMsgHdrAt threadIndex hdr.messageKey
      (hdr.flags ||| viewFlagIsThread ||| viewFlagHasChildren) 0
    collapseByIndex threadIndex
    let _ ← expandByIndex env threadIndex
    pure ()
  else do
    let parentIndex ← findParentInThread env threadIndex env.parentSteps parentKey
    let level ← levelAt parentIndex
    let insertIndex ← getInsertInfoForNewHdr parentIndex (level.toNat + 1)
    insertMsgHdrAt insertIndex hdr.messageKey hdr.flags (UInt8.ofNat (level.toNat + 1))

def addToThread (hdr : RowHdr) (parentKey threadIndex : Nat) (flags : UInt32) : ViewM Unit :=
  if !hasFlag flags flagElided then insertInThread env hdr parentKey threadIndex
  else if parentKey = nsMsgKey_None then
    changeRows fun rows => rows.setKey? threadIndex hdr.messageKey
  else pure ()

/-- A displayed thread is not collapsed by a new message. -/
def expandDisplayed (hdr : RowHdr) (threadIndex : Nat) : ViewM Unit :=
  if hasFlag hdr.flags flagNew then do
    let flags ← flagsAt threadIndex
    if hasFlag flags flagElided && env.currentlyDisplayedViewIndex == some threadIndex then do
      let _ ← expandByIndex env threadIndex
      pure ()
    else pure ()
  else pure ()

def addMsgToThreadNotInView (thread : RowThread) (hdr : RowHdr) : ViewM Unit :=
  if hasFlag thread.flags flagIgnored || hdr.isKilled then pure ()
  else do
    let _ ← addHdr env hdr
    pure ()

def onNewThreadHeader (hdr : RowHdr) (parentKey : Nat) (view : ThreadedView) : ViewM Unit := do
  let threadIndex ← threadIndexOfMsg env hdr.messageKey
  let thread := (env.threadContaining hdr).join
  match threadIndex with
  | some threadIndex => do
    let flags ← flagsAt threadIndex
    let flags ← markParent view.viewFlags threadIndex flags
    addToThread env hdr parentKey threadIndex flags
    expandDisplayed env hdr threadIndex
    if view.sortType = .byDate ∧
        thread.any fun thread => hdr.dateInSeconds == thread.newestMsgDate then
      moveThreadAt env threadIndex
    else pure ()
  | none =>
    match thread with
    | some thread => addMsgToThreadNotInView env thread hdr
    | none => pure ()

/-- `AddHdrToThread`: false for the header of a known group, `none` if it has no group. -/
def addHdrToThread (hdr : RowHdr) : ViewM (Option Bool) := do
  let view ← Attempt.read fun view : ThreadedView => view
  match env.groupIndex view hdr with
  | none => pure none
  | some none => do
    insertMsgHdrAt ((env.insertIndex view hdr).getD view.size) hdr.messageKey
      (hdr.flags ||| viewFlagDummy ||| viewFlagHasChildren ||| viewFlagIsThread ||| flagElided) 0
    pure (some true)
  | some (some index) =>
    if env.insertedInGroup view hdr = 0 then do
      let flags ← flagsAt index
      setMsgHdrAt index hdr.messageKey
        ((hdr.flags &&& ~~~flagElided) ||| (flags &&& (flagElided ||| viewFlagDummy)) |||
          viewFlagIsThread ||| viewFlagHasChildren) 0
      pure (some false)
    else pure (some false)

/-- The kept view takes the new flags but for three of its own. -/
def mergedFlags (flags prevFlag : UInt32) : UInt32 :=
  let kept := flagElided ||| viewFlagIsThread ||| viewFlagHasChildren
  (flags &&& ~~~kept) ||| (prevFlag &&& kept)

def updatePrevFlags (prevRows : Rows) (key : Nat) (flags : UInt32) : Option Rows :=
  match prevRows.keys.findIdx? (· == key) with
  | none => some prevRows
  | some index => do
    let prevFlag ← prevRows.flags[index]?
    prevRows.setFlags? index (mergedFlags flags prevFlag)

def onExtraFlagChanged (index : Nat) (flags : UInt32) : ViewM Unit := fun view =>
  let sortValid := view.sortValid &&
    !(view.sortType matches .byStatus | .byFlagged | .byUnread | .byPriority)
  if view.havePrevView then
    match (view.rows.keys[index]?).map fun key => updatePrevFlags view.prevRows key flags with
    | none => (.ok (), { view with sortValid := sortValid })
    | some none => (.error .crash, view)
    | some (some prevRows) => (.ok (), { view with prevRows := prevRows, sortValid := sortValid })
  else (.ok (), { view with sortValid := sortValid })

def orExtraFlag (index : Nat) (orFlag : UInt32) : ViewM Unit := do
  let flags ← flagsAt index
  setFlagsAt index (flags ||| orFlag)
  onExtraFlagChanged index (flags ||| orFlag)

def addHdrsToThreads : List RowHdr → ViewM Unit
  | [] => pure ()
  | hdr :: rest => do
    let _ ← addHdrToThread env hdr
    addHdrsToThreads rest

/-- A group of more than one message has children. -/
def markGroup (sortType : SortType) (thread : RowThread) (index : Nat) : ViewM Unit :=
  let viewFlag := if sortType = .byDate then viewFlagDummy else 0
  if 1 < thread.numChildren ∨ viewFlag ≠ 0 then
    orExtraFlag index (viewFlag ||| viewFlagHasChildren)
  else pure ()

/-- The result is the number of rows shown below the first row of the group. -/
def openGroup (expands : ThreadedView → RowThread → Bool) (thread : RowThread) (index : Nat) :
    ViewM Nat := do
  let view ← Attempt.read fun view : ThreadedView => view
  markGroup view.sortType thread index
  if view.viewFlags.expandAll || expands view thread then do
    let numExpanded ← expandByIndex env index
    match numExpanded with
    | none => Attempt.throw .uninitialized
    | some numExpanded => pure numExpanded
  else pure 0

/-- The second loop of `OpenWithHdrs`, which passes one group at a time. -/
def openGroupsFrom (expands : ThreadedView → RowThread → Bool) : (fuel index : Nat) → ViewM Unit
  | 0, _ => pure ()
  | fuel + 1, index => do
    let view ← Attempt.read fun view : ThreadedView => view
    if view.size ≤ index then pure ()
    else
      match (threadContainingIndex env view index).join with
      | none => openGroupsFrom expands fuel (index + 1)
      | some thread => do
        let numExpanded ← openGroup env expands thread index
        openGroupsFrom expands fuel (index + numExpanded + 1)

def openWithHdrs (headers : List RowHdr) : ViewM Unit := do
  let sortType ← Attempt.read ThreadedView.sortType
  if sortType matches .byThread | .byId | .byNone | .bySize then pure ()
  else do
    Attempt.update fun view =>
      { view with viewFlags.threadedDisplay := true, viewFlags.groupBySort := true }
    if sortType = .byCustom ∧ env.customHandlerMissing then pure ()
    else do
      addHdrsToThreads env headers
      match env.expandsGroup with
      | none => pure ()
      | some expands => do
        let size ← Attempt.read ThreadedView.size
        openGroupsFrom env expands size 0

def rebuildView : ViewM Unit :=
  match env.headers with
  | none => pure ()
  | some headers => do
    Attempt.update fun view => { view with rows := {} }
    openWithHdrs env headers

/-- The row of a group that got a header, and the header itself if the group is expanded. -/
def showInGroup (hdr : RowHdr) (newThread : Bool) (threadIndex : Nat) : ViewM Unit := do
  let view ← Attempt.read fun view : ThreadedView => view
  let flags ← flagsAt threadIndex
  let flags :=
    if newThread then if view.viewFlags.expandAll then flags &&& ~~~flagElided else flags
    else flags ||| viewFlagHasChildren ||| viewFlagIsThread
  setFlagsAt threadIndex flags
  if hasFlag flags flagElided then pure ()
  else
    insertMsgHdrAt (threadIndex + max 1 (env.indexInGroup view hdr)) hdr.messageKey hdr.flags 1

/-- `nsMsgGroupView::OnNewHeader` of a grouped view. -/
def onNewGroupHeader (hdr : RowHdr) : ViewM Unit :=
  if env.dayChanged then rebuildView env
  else do
    let added ← addHdrToThread env hdr
    match added with
    | none => pure ()
    | some newThread => do
      let threadIndex ← threadIndexOfMsgHdr env hdr
      match threadIndex with
      | none => pure ()
      | some threadIndex => showInGroup env hdr newThread threadIndex

/-- `nsMsgThreadedDBView::OnNewHeader` -/
def onNewHeader (hdr : RowHdr) (parentKey : Nat) (ensureListed : Bool) : ViewM Unit := do
  let view ← Attempt.read fun view : ThreadedView => view
  if view.viewFlags.groupBySort then onNewGroupHeader env hdr
  else if view.viewFlags.unreadOnly && !ensureListed && hasFlag hdr.flags flagRead then pure ()
  else if view.viewFlags.threadedDisplay then onNewThreadHeader env hdr parentKey view
  else do
    let _ ← addHdr env hdr
    pure ()

/-- The row below the removed first row of an expanded thread becomes the first one. -/
def promoteNext (thread : RowThread) (index : Nat) : ViewM Unit := do
  removeRow index
  let size ← Attempt.read ThreadedView.size
  if index < size ∧ 0 < thread.numChildren then
    match thread.getChildHdrAt 0 with
    | none => pure ()
    | some hdr => do
      setFlagsAt index
        (if 1 < thread.numChildren then hdr.flags ||| viewFlagIsThread ||| viewFlagHasChildren
        else hdr.flags)
      changeRows fun rows => rows.setLevel? index 0
  else pure ()

/-- A thread that has one message left is not shown as a thread. -/
def unmarkThread (key : Nat) : ViewM Unit := do
  let view ← Attempt.read fun view : ThreadedView => view
  match findKey view key with
  | none => pure ()
  | some threadIndex => do
    let flags ← flagsAt threadIndex
    setFlagsAt threadIndex
      (flags &&& ~~~(viewFlagIsThread ||| flagElided ||| viewFlagHasChildren))

/-- A row below the first of its thread. -/
def removeChildRow (thread : Option RowThread) (index : Nat) : ViewM Unit :=
  match thread.bind fun thread =>
      if thread.numChildren = 1 then thread.childKeys[0]? else none with
  | some key => do
    unmarkThread key
    removeRow index
  | none => removeRow index

/-- The row of a collapsed thread shows the first message that is left. -/
def replaceTop (thread : RowThread) (index : Nat) : ViewM Unit :=
  match thread.getChildHdrAt 0 with
  | none => pure ()
  | some hdr => do
    changeRows fun rows => rows.setKey? index hdr.messageKey
    setFlagsAt index
      (if thread.numChildren = 1 then
        (hdr.flags ||| viewFlagIsThread) &&& ~~~viewFlagHasChildren &&& ~~~flagElided
      else hdr.flags ||| viewFlagIsThread ||| viewFlagHasChildren ||| flagElided)

def removeThreadedRow (thread : Option RowThread) (flags : UInt32) (index : Nat) : ViewM Unit :=
  if hasFlag flags viewFlagIsThread && !hasFlag flags flagElided &&
      hasFlag flags viewFlagHasChildren then
    match thread with
    | none => pure ()
    | some thread => promoteNext thread index
  else if !hasFlag flags viewFlagIsThread then removeChildRow thread index
  else
    match thread with
    | none => removeRow index
    | some thread => if 0 < thread.numChildren then replaceTop thread index else removeRow index

/-- `nsMsgThreadedDBView::RemoveByIndex` -/
def removeByIndex (index : Nat) : ViewM Unit := do
  let view ← Attempt.read fun view : ThreadedView => view
  if view.size ≤ index then pure ()
  else do
    clearPrevIdArray
    let flags ← flagsAt index
    if view.viewFlags.threadedDisplay then
      removeThreadedRow (threadContainingIndex env view index).join flags index
    else removeRow index

end

/-- The operations of a view that change its rows. -/
inductive ViewOp
  | initThreadedView
  | expandByIndex (index : Nat)
  | collapseByIndex (index : Nat)
  | expandAll
  | collapseAll
  | onNewHeader (hdr : RowHdr) (parentKey : Nat) (ensureListed : Bool)
  | removeByIndex (index : Nat)
  | moveThreadAt (index : Nat)
  | sort (sortType : SortType) (sortOrder : SortOrder)

def ViewOp.perform (env : ViewEnv) : ViewOp → ViewM Unit
  | .initThreadedView => View.initThreadedView env
  | .expandByIndex index => do
    let _ ← View.expandByIndex env index
    pure ()
  | .collapseByIndex index => View.collapseByIndex index
  | .expandAll => View.expandAll env
  | .collapseAll => View.collapseAll
  | .onNewHeader hdr parentKey ensureListed => View.onNewHeader env hdr parentKey ensureListed
  | .removeByIndex index => View.removeByIndex env index
  | .moveThreadAt index => View.moveThreadAt env index
  | .sort sortType sortOrder => View.sort env sortType sortOrder

/-- A view before `Open`. -/
def ThreadedView.new (viewFlags : ViewFlags) (sortType : SortType) (sortOrder : SortOrder) :
    ThreadedView :=
  { viewFlags := viewFlags, sortType := sortType, sortOrder := sortOrder }

/-- The views after each step, up to one that does not return. -/
def reached (view : ThreadedView) : List (ViewEnv × ViewOp) → List ThreadedView
  | [] => []
  | (env, op) :: rest =>
    match op.perform env view with
    | (.ok _, later) => later :: reached later rest
    | (.error _, _) => []

end CommCentral.View
