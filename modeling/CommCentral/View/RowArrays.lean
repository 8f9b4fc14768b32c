import CommCentral.Lib.Attempt
import CommCentral.View.SortEntry

/-! The three parallel arrays that hold the rows of a message list view, and what the view
asks the message database. -/
namespace CommCentral.View

open Lib

def nsMsgKey_None : Nat := 0xFFFFFFFF

/-- `nsMsgMessageFlags` and the view's own flags. -/
def flagRead : UInt32 := 0x00000001
def flagElided : UInt32 := 0x00000020
def flagWatched : UInt32 := 0x00000100
def flagNew : UInt32 := 0x00010000
def flagIgnored : UInt32 := 0x00040000
def viewFlagIsThread : UInt32 := 0x08000000
def viewFlagDummy : UInt32 := 0x20000000
def viewFlagHasChildren : UInt32 := 0x40000000
def msgViewFlags : UInt32 := 0xEE000000

def hasFlag (flags flag : UInt32) : Bool := flags &&& flag != 0

/-- `m_keys`, `m_flags` and `m_levels`. -/
structure Rows where
  keys : List Nat := []
  flags : List UInt32 := []
  levels : List UInt8 := []
  deriving DecidableEq

/-- Index `i` of each array is about one message. -/
def Rows.InStep (rows : Rows) : Prop :=
  rows.keys.length = rows.flags.length ∧ rows.keys.length = rows.levels.length

instance (rows : Rows) : Decidable rows.InStep := inferInstanceAs (Decidable (_ ∧ _))

/-- `InsertElementsAt`, which takes an index up to the length. -/
def insertAt? {α : Type} (list : List α) (index : Nat) (items : List α) : Option (List α) :=
  if index ≤ list.length then some (list.take index ++ items ++ list.drop index) else none

def removeAt? {α : Type} (list : List α) (index count : Nat) : Option (List α) :=
  if index + count ≤ list.length then some (list.take index ++ list.drop (index + count))
  else none

def assign? {α : Type} (list : List α) (index : Nat) (item : α) : Option (List α) :=
  if index < list.length then some (list.set index item) else none

def setLength {α : Type} (list : List α) (length : Nat) (item : α) : List α :=
  list.take length ++ List.replicate (length - list.length) item

namespace Rows

def insert? (rows : Rows) (index : Nat) (items : Rows) : Option Rows := do
  let keys ← insertAt? rows.keys index items.keys
  let flags ← insertAt? rows.flags index items.flags
  let levels ← insertAt? rows.levels index items.levels
  return ⟨keys, flags, levels⟩

def remove? (rows : Rows) (index count : Nat) : Option Rows := do
  let keys ← removeAt? rows.keys index count
  let flags ← removeAt? rows.flags index count
  let levels ← removeAt? rows.levels index count
  return ⟨keys, flags, levels⟩

def set? (rows : Rows) (index key : Nat) (flags : UInt32) (level : UInt8) : Option Rows := do
  let newKeys ← assign? rows.keys index key
  let newFlags ← assign? rows.flags index flags
  let newLevels ← assign? rows.levels index level
  return ⟨newKeys, newFlags, newLevels⟩

def setKey? (rows : Rows) (index key : Nat) : Option Rows := do
  let newKeys ← assign? rows.keys index key
  return { rows with keys := newKeys }

def setFlags? (rows : Rows) (index : Nat) (flags : UInt32) : Option Rows := do
  let newFlags ← assign? rows.flags index flags
  return { rows with flags := newFlags }

def setLevel? (rows : Rows) (index : Nat) (level : UInt8) : Option Rows := do
  let newLevels ← assign? rows.levels index level
  return { rows with levels := newLevels }

def replicate (numRows key : Nat) (flags : UInt32) (level : UInt8) : Rows :=
  ⟨List.replicate numRows key, List.replicate numRows flags, List.replicate numRows level⟩

def truncate (rows : Rows) (length : Nat) : Rows :=
  ⟨setLength rows.keys length 0, setLength rows.flags length 0, setLength rows.levels length 0⟩

end Rows

/-- `nsMsgViewFlagsType` -/
structure ViewFlags where
  threadedDisplay : Bool := false
  showIgnored : Bool := false
  unreadOnly : Bool := false
  expandAll : Bool := false
  groupBySort : Bool := false
  deriving DecidableEq

/-- A call of `ExpandByIndex`: the kind of view and the flags of the row. -/
structure Expansion where
  unreadOnly : Bool
  flags : UInt32
  deriving DecidableEq

/-- The fields of `nsMsgThreadedDBView` that the row operations use. The expansions are no
part of the program: they are kept to speak about its runs. -/
structure ThreadedView where
  rows : Rows := {}
  /-- `m_prevKeys`, `m_prevFlags` and `m_prevLevels`. -/
  prevRows : Rows := {}
  havePrevView : Bool := false
  viewFlags : ViewFlags := {}
  sortType : SortType := .byNone
  sortOrder : SortOrder := .none
  sortValid : Bool := false
  expansions : List Expansion := []

def ThreadedView.size (view : ThreadedView) : Nat := view.rows.keys.length

/-- What the row operations read of an `nsIMsgDBHdr`; `isRead` is the answer of the
database for its key. -/
structure RowHdr where
  messageKey : Nat
  flags : UInt32
  isRead : Bool
  isKilled : Bool
  threadParent : Nat
  dateInSeconds : Nat
  deriving DecidableEq

/-- What the row operations read of an `nsIMsgThread`. A child that the database does not
find is `none`. -/
structure RowThread where
  flags : UInt32
  numChildren : Nat
  numUnreadChildren : Nat
  childKeys : List Nat
  children : List (Option RowHdr)
  firstUnreadChild : Option RowHdr
  rootHdr : Option RowHdr
  newestMsgDate : Nat
  /-- `EnumerateMessages` -/
  messages : Nat → Option (List RowHdr)

def RowThread.getChildHdrAt (thread : RowThread) (index : Nat) : Option RowHdr :=
  (thread.children[index]?).join

/-- How a call of an operation of the view ends other than by returning. -/
inductive Halt
  /-- An index outside an array or a null pointer. -/
  | crash
  /-- A search along thread parents that does not end. -/
  | endless
  /-- A local that was never assigned is read. -/
  | uninitialized
  deriving DecidableEq

abbrev ViewM (α : Type) := Attempt ThreadedView Halt α

/-- The answers that an operation gets from outside while it runs. -/
structure ViewEnv where
  msgHdrForKey : Nat → Option RowHdr
  /-- `GetThreadContainingMsgHdr`: failed, or a thread that may be null. -/
  threadContaining : RowHdr → Option (Option RowThread)
  /-- `EnumerateThreads` -/
  threads : Option (List RowThread)
  wantsThisThread : RowThread → Bool
  /-- How many parents a search may follow before it counts as endless. -/
  parentSteps : Nat
  /-- `GetInsertIndex`, `none` for `nsMsgViewIndex_None`. -/
  insertIndex : ThreadedView → RowHdr → Option Nat
  currentlyDisplayedViewIndex : Option Nat
  /-- `CustomColumnsInSortAndNotRegistered`, unless checked before. -/
  customColumnsMissing : Bool
  /-- One sort column, and a custom column is the one sorted by last. -/
  sameSortColumns : Bool
  /-- The sort of the base class on the keys with their flags, `none` if the column has no
  type or a header or its value is missing. -/
  quickSort : ThreadedView → SortType → SortOrder → List (Nat × UInt32) →
    Option (List (Nat × UInt32))
  quickSort_length : ∀ view sortType sortOrder entries sorted,
    quickSort view sortType sortOrder entries = some sorted → sorted.length = entries.length
  /-- A group view has to be rebuilt, from these headers. -/
  dayChanged : Bool
  headers : Option (List RowHdr)
  customHandlerMissing : Bool
  /-- `HashHdr` and a look-up in the group table: failed, or the view index of the group of
  the header if there is a displayed one. -/
  groupIndex : ThreadedView → RowHdr → Option (Option Nat)
  /-- Where `AddChildFromGroupView` inserts the header, and where `FindMsgHdr` finds it. -/
  insertedInGroup : ThreadedView → RowHdr → Nat
  indexInGroup : ThreadedView → RowHdr → Nat
  /-- The groups in `dateGroupFlags`, `none` if the folder has no information. -/
  expandsGroup : Option (ThreadedView → RowThread → Bool)

/-- A change of the rows that crashes on an index outside them. -/
def changeRows (change : Rows → Option Rows) : ViewM Unit := fun view =>
  match change view.rows with
  | some rows => (.ok (), { view with rows := rows })
  | none => (.error .crash, view)

/-- A value that is not there to be read. -/
def demand {α : Type} (value : Option α) : ViewM α :=
  match value with
  | some value => pure value
  | none => Attempt.throw .crash

def flagsAt (index : Nat) : ViewM UInt32 := do
  let flags ← Attempt.read fun view : ThreadedView => view.rows.flags[index]?
  demand flags

def keyAt (index : Nat) : ViewM Nat := do
  let key ← Attempt.read fun view : ThreadedView => view.rows.keys[index]?
  demand key

def levelAt (index : Nat) : ViewM UInt8 := do
  let level ← Attempt.read fun view : ThreadedView => view.rows.levels[index]?
  demand level

def setFlagsAt (index : Nat) (flags : UInt32) : ViewM Unit :=
  changeRows fun rows => rows.setFlags? index flags

def insertMsgHdrAt (index key : Nat) (flags : UInt32) (level : UInt8) : ViewM Unit :=
  changeRows fun rows =>
    if rows.keys.length < index then some rows
    else rows.insert? index ⟨[key], [flags], [level]⟩

def setMsgHdrAt (index key : Nat) (flags : UInt32) (level : UInt8) : ViewM Unit :=
  changeRows fun rows => rows.set? index key flags level

def insertEmptyRows (viewIndex numRows : Nat) : ViewM Unit :=
  changeRows fun rows => rows.insert? viewIndex (Rows.replicate numRows 0 0 1)

def removeRows (viewIndex numRows : Nat) : ViewM Unit :=
  changeRows fun rows => rows.remove? viewIndex numRows

/-- `nsMsgDBView::RemoveByIndex` -/
def removeRow (index : Nat) : ViewM Unit :=
  changeRows fun rows => if index < rows.keys.length then rows.remove? index 1 else some rows

def indexOfKey (view : ThreadedView) (key start : Nat) : Option Nat :=
  ((view.rows.keys.drop start).findIdx? (· == key)).map (start + ·)

/-- `FindHdr` from the first row on. A dummy row has the key of its first message. -/
def findHdr (view : ThreadedView) (key : Nat) (allowDummy : Bool) : Option Nat :=
  match indexOfKey view key 0 with
  | none => none
  | some index =>
    let isDummy (row : Nat) : Bool := hasFlag (view.rows.flags.getD row 0) viewFlagDummy
    let isElided (row : Nat) : Bool := hasFlag (view.rows.flags.getD row 0) flagElided
    if allowDummy && index != 0 && isDummy (index - 1) && !isElided (index - 1) then
      some (index - 1)
    else if !allowDummy && isDummy index then indexOfKey view key (index + 1)
    else some index

/-- `FindKey` without expanding, and `FindViewIndex`. -/
def findKey (view : ThreadedView) (key : Nat) : Option Nat :=
  match indexOfKey view key 0 with
  | none => none
  | some index =>
    let flags := view.rows.flags.getD index 0
    if hasFlag flags viewFlagDummy && !hasFlag flags flagElided then
      indexOfKey view key (index + 1)
    else some index

def adjustReadFlag (hdr : RowHdr) (flags : UInt32) : UInt32 :=
  if hdr.isRead then flags ||| flagRead else flags &&& ~~~flagRead

end CommCentral.View
