import CommCentral.View.ThreadRows

/-! Building and sorting a threaded message list view. -/
namespace CommCentral.View

open Lib

/-- The threads from the last one up, each from its first row to the row after its last. -/
def blocksBelow (flags : List UInt32) : (startThread nextThread : Nat) → List (Nat × Nat)
  | 0, _ => []
  | startThread + 1, nextThread =>
    if hasFlag (flags.getD startThread 0) viewFlagIsThread then
      (startThread, nextThread) :: blocksBelow flags startThread startThread
    else blocksBelow flags startThread nextThread

/-- A copy of the elements at the indices, in an array of the same length. -/
def copyAt? {α : Type} (list : List α) (unassigned : α) (indices : List Nat) :
    Option (List α) := do
  let copied ← indices.mapM fun index => list[index]?
  if copied.length ≤ list.length then
    return copied ++ List.replicate (list.length - copied.length) unassigned
  else none

def Rows.reverseThreads? (rows : Rows) : Option Rows := do
  let size := rows.keys.length
  let indices := (blocksBelow rows.flags size size).flatMap fun block =>
    List.range' block.1 (block.2 - block.1)
  let keys ← copyAt? rows.keys 0 indices
  let flags ← copyAt? rows.flags 0 indices
  let levels ← copyAt? rows.levels 0 indices
  if rows.flags.length < size then none else return ⟨keys, flags, levels⟩

/-- The first rows of the threads alone, all of level 0. -/
def Rows.topRows? (rows : Rows) : Option Rows :=
  let kept := (rows.keys.zip rows.flags).filter fun row => hasFlag row.2 viewFlagIsThread
  if rows.flags.length < rows.keys.length ∨ rows.levels.length < kept.length then none
  else some ⟨kept.map Prod.fst, kept.map Prod.snd, List.replicate kept.length 0⟩

/-- `ReverseSort`, which leaves the levels. -/
def Rows.reverseSort? (rows : Rows) : Option Rows :=
  let size := rows.keys.length
  if 2 ≤ size ∧ rows.flags.length < size then none
  else some
    { rows with
      keys := rows.keys.reverse
      flags := (rows.flags.take size).reverse ++ rows.flags.drop size }

section

variable (env : ViewEnv)

/-- The keys and flags in their new order. The levels stay. -/
def sortRows (sortType : SortType) (sortOrder : SortOrder) : ViewM Unit := fun view =>
  let size := view.size
  if view.rows.flags.length < size then (.error .crash, view)
  else
    match env.quickSort view sortType sortOrder (view.rows.keys.zip view.rows.flags) with
    | none => (.ok (), view)
    | some sorted =>
      (.ok (),
        { view with
          rows :=
            { view.rows with
              keys := sorted.map Prod.fst
              flags := sorted.map Prod.snd ++ view.rows.flags.drop size }
          sortType := sortType
          sortOrder := sortOrder
          sortValid := true })

def reverseRows (threadedDisplay : Bool) : ViewM Unit :=
  changeRows fun rows => if threadedDisplay then rows.reverseThreads? else rows.reverseSort?

/-- `nsMsgDBView::Sort` -/
def baseSort (sortType : SortType) (sortOrder : SortOrder) : ViewM Unit := do
  let view ← Attempt.read fun view : ThreadedView => view
  if view.sortType = sortType ∧ view.sortValid ∧ env.sameSortColumns then
    if view.sortOrder = sortOrder then pure ()
    else do
      reverseRows view.viewFlags.threadedDisplay
      Attempt.update fun view => { view with sortOrder := sortOrder }
  else if sortType = .byThread ∨ view.size = 0 then pure ()
  else sortRows env sortType sortOrder

def setThreadedDisplay : ViewM Unit :=
  Attempt.update fun view => { view with viewFlags.threadedDisplay := true }

/-- A row that is alone in the view gets the flags of a collapsed thread if its thread has
more messages. -/
def markThread (index : Nat) (flags : UInt32) : ViewM Unit := do
  let view ← Attempt.read fun view : ThreadedView => view
  match threadContainingIndex env view index with
  | some (some thread) =>
    if 1 < thread.numChildren then
      setFlagsAt index (flags ||| viewFlagHasChildren ||| flagElided)
    else pure ()
  | _ => pure ()

/-- An expanded thread is expanded again, with the number of rows below its first. -/
def expandAgain (index : Nat) (flags : UInt32) : ViewM Nat := do
  setFlagsAt index (flags ||| flagElided)
  let numExpanded ← expandByIndex env index
  match numExpanded with
  | none => Attempt.throw .uninitialized
  | some numExpanded =>
    if 0 < numExpanded then do
      setFlagsAt index (flags ||| viewFlagHasChildren)
      pure numExpanded
    else pure 0

/-- The second loop of `SortThreads`, which passes one thread at a time. -/
def expandSortedFrom : (fuel index : Nat) → ViewM Unit
  | 0, _ => pure ()
  | fuel + 1, index => do
    let size ← Attempt.read ThreadedView.size
    if size ≤ index then pure ()
    else do
      let flags ← flagsAt index
      if flags &&& (viewFlagHasChildren ||| flagElided) = viewFlagHasChildren then do
        let numExpanded ← expandAgain env index flags
        expandSortedFrom fuel (index + numExpanded + 1)
      else if hasFlag flags viewFlagIsThread && !hasFlag flags viewFlagHasChildren then do
        markThread env index flags
        expandSortedFrom fuel (index + 1)
      else expandSortedFrom fuel (index + 1)

def sortThreads (sortType : SortType) (sortOrder : SortOrder) : ViewM Unit := do
  changeRows Rows.topRows?
  Attempt.update fun view => { view with sortType := .byNone }
  baseSort env sortType sortOrder
  setThreadedDisplay
  let size ← Attempt.read ThreadedView.size
  expandSortedFrom env size 0

def ThreadedView.clearPrevIdArray (view : ThreadedView) : ThreadedView :=
  { view with prevRows := {}, havePrevView := false }

def clearPrevIdArray : ViewM Unit := Attempt.update ThreadedView.clearPrevIdArray

/-- The rows of a view that was sorted by thread are kept when it is flattened. -/
def flatten : ViewM Unit := do
  Attempt.update fun view =>
    { view with
      prevRows := view.rows
      viewFlags.threadedDisplay := false
      viewFlags.groupBySort := false }
  expandAll env
  Attempt.update fun view => { view with havePrevView := true }

def sortByThread : ViewM Unit :=
  Attempt.update fun view =>
    { view with
      sortType := .byThread
      viewFlags.threadedDisplay := true
      viewFlags.groupBySort := false }

def restorePrevView : ViewM Unit :=
  Attempt.update fun view => { view with rows := view.prevRows, sortValid := true }

/-- `Sort` of a view that has rows. The thread list is built anew by `rebuild`. -/
def sortFilled (rebuild : ViewM Unit) (view : ThreadedView) (sortType : SortType)
    (sortOrder : SortOrder) : ViewM Unit :=
  let threaded := view.viewFlags.threadedDisplay || view.viewFlags.groupBySort
  let sortType := if sortType = .byThread ∧ view.viewFlags.threadedDisplay then .byId else sortType
  if sortType ≠ view.sortType ∨ !view.sortValid ∨ threaded then
    if sortType = .byThread then do
      sortByThread
      if view.havePrevView then restorePrevView else rebuild
    else if threaded then sortThreads env sortType sortOrder
    else if view.sortType = .byThread then do
      flatten env
      baseSort env sortType sortOrder
    else baseSort env sortType sortOrder
  else if view.sortOrder ≠ sortOrder then do
    baseSort env sortType sortOrder
    baseSort env sortType sortOrder
  else baseSort env sortType sortOrder

/-- `Sort` of a view without rows. -/
def sortEmpty (sortType : SortType) : ViewM Unit :=
  Attempt.update fun view =>
    { view with
      sortType := sortType
      viewFlags.threadedDisplay := view.viewFlags.threadedDisplay || sortType = .byThread }

def sortWith (rebuild : ViewM Unit) (sortType : SortType) (sortOrder : SortOrder) :
    ViewM Unit := do
  let view ← Attempt.read fun view : ThreadedView => view
  if view.size = 0 then sortEmpty sortType
  else if env.customColumnsMissing then pure ()
  else sortFilled env rebuild view sortType sortOrder

/-- `Sort` of a view that is threaded already or not sorted by thread: the thread list is
not built anew. -/
def sortInPlace (sortType : SortType) (sortOrder : SortOrder) : ViewM Unit :=
  sortWith env (Attempt.throw .crash) sortType sortOrder

def prepareThreads (sortType : SortType) (sortOrder : SortOrder) : ViewM Unit :=
  if sortType = .byThread then do
    baseSort env .byId sortOrder
    sortByThread
  else pure ()

def expandInitially : ViewM Unit := do
  let viewFlags ← Attempt.read ThreadedView.viewFlags
  if viewFlags.unreadOnly || viewFlags.expandAll || !viewFlags.threadedDisplay then
    expandAll env
  else pure ()

def initSort (sortType : SortType) (sortOrder : SortOrder) : ViewM Unit := do
  let grouped ← Attempt.read fun view : ThreadedView => view.viewFlags.groupBySort
  if grouped then pure ()
  else do
    prepareThreads env sortType sortOrder
    expandInitially env
    sortInPlace env sortType sortOrder
    if sortType = .byThread then pure () else clearPrevIdArray

/-- The flags of the row of a thread in a view that is being built. -/
def threadRowFlags (thread : RowThread) (numChildren : Nat) (hdr : RowHdr) : UInt32 :=
  let flags := adjustReadFlag hdr (hdr.flags &&& ~~~msgViewFlags) ||| viewFlagIsThread |||
    thread.flags
  if 1 < numChildren then flags ||| viewFlagHasChildren else flags

def appendRow (key : Nat) (flags : UInt32) (level : UInt8) : ViewM Unit :=
  Attempt.update fun view =>
    { view with
      rows := ⟨view.rows.keys ++ [key], view.rows.flags ++ [flags], view.rows.levels ++ [level]⟩ }

/-- The row of a thread, expanded at once in a view that shows all messages. -/
def addThreadRow (viewFlags : ViewFlags) (key : Nat) (flags : UInt32) : ViewM Unit := do
  let flags := if hasFlag flags viewFlagHasChildren then flags ||| flagElided else flags
  appendRow key flags 0
  if (!viewFlags.threadedDisplay || viewFlags.expandAll) && hasFlag flags flagElided then do
    let size ← Attempt.read ThreadedView.size
    let _ ← expandByIndex env (size - 1)
    pure ()
  else pure ()

/-- The loop of `InitThreadedView`; the result is false if a thread has no first header. -/
def addThreads (viewFlags : ViewFlags) : List RowThread → ViewM Bool
  | [] => pure true
  | thread :: rest =>
    let numChildren := if viewFlags.unreadOnly then thread.numUnreadChildren else thread.numChildren
    if numChildren = 0 then addThreads viewFlags rest
    else
      match if viewFlags.unreadOnly then thread.firstUnreadChild else thread.rootHdr with
      | none => pure false
      | some hdr =>
        let flags := threadRowFlags thread numChildren hdr
        if !env.wantsThisThread thread ||
            !viewFlags.showIgnored && (hasFlag flags flagIgnored || hdr.isKilled) then
          addThreads viewFlags rest
        else do
          addThreadRow env viewFlags hdr.messageKey flags
          addThreads viewFlags rest

def clearRows : ViewM Unit :=
  Attempt.update fun view => { view with rows := {}, prevRows := {}, havePrevView := false }

def initThreadedView : ViewM Unit := do
  clearRows
  match env.threads with
  | none => pure ()
  | some threads => do
    let view ← Attempt.read fun view : ThreadedView => view
    let complete ← addThreads env view.viewFlags threads
    if complete then initSort env view.sortType view.sortOrder else pure ()

/-- The thread list of a flat view that is sorted by thread. -/
def rebuildThreads (sortOrder : SortOrder) : ViewM Unit := do
  initThreadedView env
  if sortOrder = .ascending then pure () else sortInPlace env .byThread sortOrder

/-- `nsMsgThreadedDBView::Sort` -/
def sort (sortType : SortType) (sortOrder : SortOrder) : ViewM Unit :=
  sortWith env (rebuildThreads env sortOrder) sortType sortOrder

end

end CommCentral.View
