import CommCentral.View.RowArrays

/-! Expanding and collapsing the threads of a message list view. -/
namespace CommCentral.View

open Lib

section

variable (env : ViewEnv)

/-- The row above `index`, down from the one before it and not before `start - 1`, that has
the key. -/
def scanUp (key start : Nat) : (index : Nat) → ViewM (Option Nat)
  | 0 => pure none
  | index + 1 =>
    if index + 1 < start then pure none
    else do
      let found ← keyAt index
      if found = key then pure (some index) else scanUp key start index

/-- The search of `FindLevelInThread` for an ancestor of the header in the view. -/
def findAncestorLevel (startOfThread viewIndex : Nat) : (steps : Nat) → RowHdr → ViewM UInt8
  | 0, _ => Attempt.throw .endless
  | steps + 1, hdr =>
    if hdr.threadParent = nsMsgKey_None then pure 1
    else do
      let found ← scanUp hdr.threadParent startOfThread viewIndex
      match found with
      | some index => do
        let level ← levelAt index
        pure (level + 1)
      | none =>
        if hdr.messageKey = hdr.threadParent then pure 1
        else
          match env.msgHdrForKey hdr.threadParent with
          | none => pure 1
          | some parent => findAncestorLevel startOfThread viewIndex steps parent

def findLevelInThread (hdr : RowHdr) (startOfThread viewIndex : Nat) : ViewM UInt8 := do
  let grouped ← Attempt.read fun view : ThreadedView => view.viewFlags.groupBySort
  if grouped then pure (if startOfThread = viewIndex then 0 else 1)
  else findAncestorLevel env startOfThread viewIndex env.parentSteps hdr

def RowThread.childHdrs (thread : RowThread) : List (Option RowHdr) :=
  (List.range thread.numChildren).map thread.getChildHdrAt

/-- The header is not shown because its subthread is ignored. -/
def skipsHdr (viewFlags : ViewFlags) (hdr : RowHdr) : Bool := !viewFlags.showIgnored && hdr.isKilled

/-- The loop of `ListUnreadIdsInThread`, with the number of rows listed. -/
def listUnread (viewFlags : ViewFlags) (topLevelMsgKey startOfThread : Nat) :
    (numListed : Nat) → List (Option RowHdr) → ViewM Nat
  | numListed, [] => pure numListed
  | numListed, none :: rest => listUnread viewFlags topLevelMsgKey startOfThread numListed rest
  | numListed, some hdr :: rest =>
    if skipsHdr viewFlags hdr ∨ hdr.isRead ∨ hdr.messageKey = topLevelMsgKey then
      listUnread viewFlags topLevelMsgKey startOfThread numListed rest
    else do
      let viewIndex := startOfThread + 1 + numListed
      let level ← findLevelInThread env hdr startOfThread viewIndex
      insertMsgHdrAt viewIndex hdr.messageKey (adjustReadFlag hdr hdr.flags) level
      listUnread viewFlags topLevelMsgKey startOfThread (numListed + 1) rest

def listUnreadIdsInThread (thread : Option RowThread) (startOfThread : Nat) : ViewM Nat :=
  match thread with
  | none => pure 0
  | some thread => do
    let topLevelMsgKey ← keyAt startOfThread
    let viewFlags ← Attempt.read ThreadedView.viewFlags
    listUnread env viewFlags topLevelMsgKey startOfThread 0 thread.childHdrs

/-- Where the listing of a thread stands. -/
structure Listing where
  viewIndex : Nat
  numListed : Nat

def Listing.next (listing : Listing) : Listing := ⟨listing.viewIndex + 1, listing.numListed + 1⟩

/-- Whether a listing succeeded, and how far it came. -/
abbrev ListingResult := Bool × Listing

/-- The loop of `ListIdsInThreadOrder` over the messages below one parent. -/
def listMessages (viewFlags : ViewFlags) (numChildren level : Nat)
    (below : Nat → Listing → ViewM ListingResult) :
    Listing → List RowHdr → ViewM ListingResult
  | listing, [] => pure (true, listing)
  | listing, hdr :: rest =>
    if listing.numListed = numChildren then pure (false, listing)
    else if skipsHdr viewFlags hdr then
      listMessages viewFlags numChildren level below listing rest
    else do
      setMsgHdrAt listing.viewIndex hdr.messageKey
        (adjustReadFlag hdr hdr.flags &&& ~~~msgViewFlags) (UInt8.ofNat level)
      let (succeeded, listing) ← below hdr.messageKey listing.next
      if succeeded then listMessages viewFlags numChildren level below listing rest
      else pure (false, listing)

/-- `ListIdsInThreadOrder`. Each level lists a message, so there are no more levels than
messages to list. -/
def listIdsInThreadOrder (viewFlags : ViewFlags) (thread : RowThread) :
    (depth : Nat) → (parentKey level : Nat) → Listing → ViewM ListingResult
  | depth, parentKey, level, listing =>
    match thread.messages parentKey with
    | none => pure (false, listing)
    | some messages =>
      let below := match depth with
        | 0 => fun _ listing => pure (false, listing)
        | depth + 1 => fun key listing =>
          listIdsInThreadOrder viewFlags thread depth key (level + 1) listing
      listMessages viewFlags (thread.numChildren - 1) level below listing messages

/-- The loop of `ListIdsInThread` that lists the messages in the order of the database. -/
def listInOrder (viewFlags : ViewFlags) : Listing → List (Option RowHdr) → ViewM Listing
  | listing, [] => pure listing
  | listing, none :: rest => listInOrder viewFlags listing rest
  | listing, some hdr :: rest =>
    if skipsHdr viewFlags hdr then listInOrder viewFlags listing rest
    else do
      setMsgHdrAt listing.viewIndex hdr.messageKey
        (adjustReadFlag hdr hdr.flags &&& ~~~msgViewFlags) 1
      listInOrder viewFlags listing.next rest

/-- The listing of a thread by its parents, unless the view is flat or grouped. -/
def listThreaded (viewFlags : ViewFlags) (thread : RowThread) (startOfThread : Nat)
    (listing : Listing) : ViewM Listing :=
  if viewFlags.threadedDisplay && !viewFlags.groupBySort then do
    let parentKey ← keyAt startOfThread
    let (_, listing) ← listIdsInThreadOrder viewFlags thread (thread.numChildren - 1) parentKey 1
      listing
    pure listing
  else pure listing

/-- The flat listing, if nothing has been listed. -/
def listRemaining (viewFlags : ViewFlags) (thread : RowThread) (listing : Listing) :
    ViewM Listing :=
  if listing.numListed = 0 then listInOrder viewFlags listing thread.childHdrs.tail
  else pure listing

def listIdsInThread (thread : Option RowThread) (startOfThread : Nat) : ViewM Nat :=
  match thread with
  | none => pure 0
  | some thread =>
    if thread.numChildren = 0 then pure 0
    else do
      let viewFlags ← Attempt.read ThreadedView.viewFlags
      let numChildren := thread.numChildren - 1
      insertEmptyRows (startOfThread + 1) numChildren
      let listing ← listThreaded viewFlags thread startOfThread ⟨startOfThread + 1, 0⟩
      let listing ← listRemaining viewFlags thread listing
      -- Killed subthreads leave rows over.
      if listing.numListed < numChildren then do
        removeRows listing.viewIndex (numChildren - listing.numListed)
        pure listing.numListed
      else pure listing.numListed

/-- `GetThreadContainingIndex`: failed, or a thread that may be null. -/
def threadContainingIndex (view : ThreadedView) (index : Nat) : Option (Option RowThread) := do
  let key ← view.rows.keys[index]?
  let hdr ← if key = nsMsgKey_None then none else env.msgHdrForKey key
  env.threadContaining hdr

/-- The entry of level 0 for a first row that is read. -/
def appendLevel : ViewM Unit :=
  Attempt.update fun view =>
    { view with rows := { view.rows with levels := view.rows.levels ++ [0] } }

def recordExpansion (expansion : Expansion) : ViewM Unit :=
  Attempt.update fun view => { view with expansions := view.expansions ++ [expansion] }

/-- The messages that `ExpandByIndex` lists below the row. -/
def listExpanded (unreadOnly : Bool) (flags : UInt32) (thread : Option RowThread)
    (index : Nat) : ViewM Nat :=
  if unreadOnly then
    if hasFlag flags flagRead then do
      appendLevel
      listUnreadIdsInThread env thread index
    else listUnreadIdsInThread env thread index
  else listIdsInThread thread index

/-- `ExpandByIndex`, with `*pNumExpanded` if it is assigned. -/
def expandByIndex (index : Nat) : ViewM (Option Nat) := do
  let view ← Attempt.read fun view : ThreadedView => view
  if view.size ≤ index then pure none
  else do
    let flags ← flagsAt index
    match threadContainingIndex env view index with
    | none => pure none
    | some thread => do
      recordExpansion ⟨view.viewFlags.unreadOnly, flags⟩
      let numExpanded ← listExpanded env view.viewFlags.unreadOnly flags thread index
      if 0 < numExpanded then do
        setFlagsAt index (flags &&& ~~~flagElided)
        pure (some numExpanded)
      else pure (some numExpanded)

/-- The index after the row of level 0 at or above `index`. -/
def afterThreadTop : (index : Nat) → ViewM Nat
  | 0 => do
    let level ← levelAt 0
    pure (if level = 0 then 1 else 0)
  | index + 1 => do
    let level ← levelAt (index + 1)
    if level = 0 then pure (index + 2) else afterThreadTop index

def countExpandedThread (index : Nat) : ViewM Nat := do
  let next ← afterThreadTop index
  let levels ← Attempt.read fun view : ThreadedView => view.rows.levels
  pure (1 + ((levels.drop next).takeWhile (· != 0)).length)

/-- `CollapseByIndex` on a row that is expanded and has children. -/
def collapseExpanded (index : Nat) (flags : UInt32) : ViewM Unit := do
  let view ← Attempt.read fun view : ThreadedView => view
  if view.size ≤ index then pure ()
  else do
    let count ← countExpandedThread index
    setFlagsAt index (flags ||| flagElided)
    removeRows (index + 1) (min (count - 1) (view.size - (index + 1)))

def collapseByIndex (index : Nat) : ViewM Unit := do
  let viewFlags ← Attempt.read ThreadedView.viewFlags
  let flags ← flagsAt index
  if hasFlag flags flagElided || !viewFlags.threadedDisplay ||
      !hasFlag flags viewFlagHasChildren then pure ()
  else collapseExpanded index flags

def expandIfElided (index : Nat) : ViewM Unit := do
  let flags ← flagsAt index
  if hasFlag flags flagElided then do
    let _ ← expandByIndex env index
    pure ()
  else pure ()

/-- The loop of `ExpandAll`, from the last row up. -/
def expandAllBelow : (size : Nat) → ViewM Unit
  | 0 => pure ()
  | index + 1 => do
    expandIfElided env index
    expandAllBelow index

def expandAll : ViewM Unit := do
  let size ← Attempt.read ThreadedView.size
  expandAllBelow env size

def collapseIfExpanded (index : Nat) : ViewM Unit := do
  let flags ← flagsAt index
  if !hasFlag flags flagElided && hasFlag flags viewFlagHasChildren then collapseByIndex index
  else pure ()

/-- The loop of `CollapseAll` from the row on. The view does not grow. -/
def collapseAllFrom : (fuel index : Nat) → ViewM Unit
  | 0, _ => pure ()
  | fuel + 1, index => do
    let size ← Attempt.read ThreadedView.size
    if index < size then do
      collapseIfExpanded index
      collapseAllFrom fuel (index + 1)
    else pure ()

def collapseAll : ViewM Unit := do
  let size ← Attempt.read ThreadedView.size
  collapseAllFrom size 0

end

end CommCentral.View
