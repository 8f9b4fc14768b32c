import CommCentral.Lib.Comparator
import Mathlib.Tactic.Common

/-! What a message list view sorts by: the value of a message in a column, read
from its header as a collation key or as a number. -/

namespace CommCentral.View
open Option

/-- `nsMsgViewSortTypeValue`; `unknown` is any value outside the interface. -/
inductive SortType where
  | byNone | byDate | bySubject | byAuthor | byId | byThread | byPriority
  | byStatus | bySize | byFlagged | byUnread | byRecipient | byLocation
  | byTags | byJunkStatus | byAttachments | byAccount | byCustom | byReceived
  | byCorrespondent
  | unknown (value : Int)
  deriving DecidableEq, Repr

inductive SortOrder where
  | none | ascending | descending
  deriving DecidableEq, Repr

inductive FieldType where
  | kCollationKey | kU32
  deriving DecidableEq, Repr

/-- What the view reads of an `nsIMsgDBHdr`. A getter that can fail, or a
string the view fetches for the header, is an `Option`. -/
structure MsgHdr where
  messageKey : UInt32
  flags : UInt32
  lineCount : UInt32
  messageSize : UInt32
  priority : UInt32
  junkscore : String
  dateInSeconds : UInt32
  dateReceived : UInt32
  /-- `GetNewestMsgDate` of the thread that contains the message. -/
  threadNewestMsgDate : Option UInt32
  subjectCollationKey : Option (List UInt8)
  locationName : Option String
  recipients : Option String
  author : Option String
  account : Option String
  tags : Option String
  isOutgoingMsg : Bool

/-- `nsIMsgFolder::GetMessageHeader`. -/
structure MsgFolder where
  getMessageHeader : UInt32 → Option MsgHdr

/-- `nsIMsgCustomColumnHandler`. -/
structure CustomColumnHandler where
  isString : Bool
  getSortStringForRow : MsgHdr → String
  getSortLongForRow : MsgHdr → Option UInt32

/-- The collation service of the database. -/
structure Collation where
  createCollationKey : String → Option (List UInt8)
  compareCollationKeys : List UInt8 → List UInt8 → Int

structure MsgViewSortColumnInfo where
  mSortType : SortType
  mSortOrder : SortOrder
  mColHandler : Option CustomColumnHandler

/-- The fields of `nsMsgDBView` that sorting reads. -/
structure DBView where
  secondarySort : SortType
  secondarySortOrder : SortOrder
  sortColumns : List MsgViewSortColumnInfo
  showSizeInLines : Bool
  threadedDisplay : Bool
  groupBySort : Bool
  sortThreadsByRoot : Bool

def kMaxSubjectKey : Nat := 160
def kMaxLocationKey : Nat := 160
def kMaxAuthorKey : Nat := 160
def kMaxRecipientKey : Nat := 80

/-- `nsMsgDBView::GetFieldTypeAndLenForSort`; no result is a failure code. -/
def getFieldTypeAndLenForSort (sortType : SortType)
    (colHandler : Option CustomColumnHandler) : Option (FieldType × Nat) :=
  match sortType with
  | .bySubject => some (.kCollationKey, kMaxSubjectKey)
  | .byAccount | .byTags | .byLocation => some (.kCollationKey, kMaxLocationKey)
  | .byRecipient | .byCorrespondent => some (.kCollationKey, kMaxRecipientKey)
  | .byAuthor => some (.kCollationKey, kMaxAuthorKey)
  | .byDate | .byReceived | .byPriority | .byThread | .byId | .bySize | .byFlagged
  | .byUnread | .byStatus | .byJunkStatus | .byAttachments => some (.kU32, 0)
  | .byCustom =>
    match colHandler with
    | none => none
    | some handler =>
      if handler.isString then some (.kCollationKey, kMaxRecipientKey)
      else some (.kU32, 0)
  | .byNone => none
  | .unknown _ => none

def MsgHdr.isNew (hdr : MsgHdr) : Bool := hdr.flags &&& 0x10000 != 0
def MsgHdr.isRead (hdr : MsgHdr) : Bool := hdr.flags &&& 0x1 != 0
def MsgHdr.isMarked (hdr : MsgHdr) : Bool := hdr.flags &&& 0x4 != 0
def MsgHdr.hasAttachment (hdr : MsgHdr) : Bool := hdr.flags &&& 0x10000000 != 0

/-- `nsMsgDBView::GetStatusSortValue`. -/
def getStatusSortValue (hdr : MsgHdr) : UInt32 :=
  if hdr.isNew then 0
  else
    let status := hdr.flags &&& 0x1002
    if status = 0x2 then 2
    else if status = 0x1002 then 1
    else if status = 0x1000 then 3
    else if hdr.isRead then 4 else 5

/-- The digits C's `atoi` reads, up to the first other character. -/
def atoiDigits (value : Int) : List Char → Int
  | [] => value
  | c :: rest =>
    if c.isDigit then atoiDigits (value * 10 + (c.toNat - '0'.toNat : Nat)) rest
    else value

/-- C's `atoi`: blanks, a sign, digits. -/
def atoi (text : String) : Int :=
  match text.toList.dropWhile fun c => c == ' ' || ('\t' ≤ c && c ≤ '\r') with
  | '-' :: rest => -atoiDigits 0 rest
  | '+' :: rest => atoiDigits 0 rest
  | rest => atoiDigits 0 rest

/-- The date columns of a threaded view may sort by the newest message of the thread. -/
def DBView.sortsByThreadDate (view : DBView) : Bool :=
  view.threadedDisplay && !view.groupBySort && !view.sortThreadsByRoot

/-- `nsMsgDBView::GetLongField`; without a result `*result` is not written. -/
def getLongField (view : DBView) (hdr : MsgHdr) (sortType : SortType)
    (colHandler : Option CustomColumnHandler) : Option UInt32 :=
  match sortType with
  | .bySize => some (if view.showSizeInLines then hdr.lineCount else hdr.messageSize)
  | .byPriority =>
    -- `none` counts as `normal`, and the highest priority has the lowest value.
    some (6 - (if hdr.priority = 1 then 4 else hdr.priority))
  | .byStatus => some (getStatusSortValue hdr)
  | .byFlagged => some (if hdr.isMarked then 0 else 1)
  | .byUnread => some (if hdr.isRead then 0 else 1)
  | .byJunkStatus =>
    some (if hdr.junkscore.isEmpty then 0 else UInt32.ofInt (atoi hdr.junkscore + 1))
  | .byAttachments => some (if hdr.hasAttachment then 0 else 1)
  | .byDate =>
    match view.sortsByThreadDate, hdr.threadNewestMsgDate with
    | true, some newest => some newest
    | _, _ => some hdr.dateInSeconds
  | .byReceived =>
    if view.sortsByThreadDate then hdr.threadNewestMsgDate
    else some (if hdr.dateReceived = 0 then hdr.dateInSeconds else hdr.dateReceived)
  | .byCustom => colHandler.bind fun handler => handler.getSortLongForRow hdr
  | .byNone => none
  | _ => none

/-- `nsMsgDBView::GetCollationKey`; where no key can be made it is left empty. -/
def getCollationKey (collation : Collation) (hdr : MsgHdr) (sortType : SortType)
    (colHandler : Option CustomColumnHandler) : List UInt8 :=
  let key :=
    match sortType with
    | .bySubject => hdr.subjectCollationKey
    | .byLocation => hdr.locationName.bind collation.createCollationKey
    | .byRecipient => hdr.recipients.bind collation.createCollationKey
    | .byAuthor => hdr.author.bind collation.createCollationKey
    | .byAccount => hdr.account.bind collation.createCollationKey
    | .byTags => hdr.tags.bind collation.createCollationKey
    | .byCustom =>
      colHandler.bind fun handler => collation.createCollationKey (handler.getSortStringForRow hdr)
    | .byCorrespondent =>
      (if hdr.isOutgoingMsg then hdr.recipients else hdr.author).bind
        collation.createCollationKey
    | _ => none
  key.getD []

/-- `IdKey`, which extends `IdUint32`. A field that was not set is `none`. -/
structure IdKey where
  id : UInt32
  dword : Option UInt32
  folder : Option MsgFolder
  key : List UInt8

/-- The entry `nsMsgDBView::Sort` makes for a row; no result where it gives up. -/
def sortEntry (collation : Collation) (view : DBView) (folder : MsgFolder)
    (sortType : SortType) (colHandler : Option CustomColumnHandler) (id : UInt32) :
    Option IdKey :=
  if sortType = .byThread then none
  else
    match getFieldTypeAndLenForSort sortType colHandler with
    | none => none
    | some (.kCollationKey, _) =>
      (folder.getMessageHeader id).map fun hdr =>
        { id, dword := some 0, folder := some folder,
          key := getCollationKey collation hdr sortType colHandler }
    | some (.kU32, _) =>
      if sortType = .byId then some { id, dword := some id, folder := some folder, key := [] }
      else
        (folder.getMessageHeader id).bind fun hdr =>
          (getLongField view hdr sortType colHandler).map fun dword =>
            { id, dword := some dword, folder := some folder, key := [] }

section
variable {id : UInt32} {entry : IdKey}

lemma sortEntry_spec
    (found : sortEntry collation view folder sortType colHandler id = some entry) :
    ∃ dword key, entry = { id, dword := some dword, folder := some folder, key } := by
  unfold sortEntry at found
  split at found
  · cases found
  · split at found
    · cases found
    · obtain ⟨hdr, -, rfl⟩ := map_eq_some_iff.mp found
      exact ⟨0, _, rfl⟩
    · split at found
      · cases found
        exact ⟨id, [], rfl⟩
      · obtain ⟨hdr, -, made⟩ := bind_eq_some_iff.mp found
        obtain ⟨dword, -, rfl⟩ := map_eq_some_iff.mp made
        exact ⟨dword, [], rfl⟩

end

/-! ### The comparators of the message list

`FnSortIdKey`, `FnSortIdUint32` and the secondary comparison they fall back to. A comparator has no
result where it reads a field of an entry that was never set. -/

open Lib

/-- `viewSortInfo`; the collation service stands for its `db`. -/
structure ViewSortInfo where
  view : DBView
  collation : Collation
  isSecondarySort : Bool
  ascendingSort : Bool

/-- The handler of the secondary column, as `SecondaryCompare` looks it up. -/
def DBView.secondaryHandler (view : DBView) : Option CustomColumnHandler :=
  if view.secondarySort = .byCustom ∧ view.sortColumns.length > 1 then
    (view.sortColumns[1]?).bind MsgViewSortColumnInfo.mColHandler
  else none

/-- The entry `SecondaryCompare` fills in for a header. -/
def secondaryEntry (info : ViewSortInfo) (fieldType : FieldType) (hdr : MsgHdr) : IdKey :=
  match fieldType with
  | .kCollationKey =>
    { id := hdr.messageKey, dword := none, folder := none,
      key := getCollationKey info.collation hdr info.view.secondarySort
        info.view.secondaryHandler }
  | .kU32 =>
    { id := hdr.messageKey, folder := none, key := [],
      dword :=
        if info.view.secondarySort = .byId then some hdr.messageKey
        else getLongField info.view hdr info.view.secondarySort info.view.secondaryHandler }

/-- The context of the secondary comparison. -/
def ViewSortInfo.secondary (info : ViewSortInfo) : ViewSortInfo :=
  { info with
    isSecondarySort := true
    ascendingSort := decide (info.view.secondarySortOrder = .ascending) }

/-- What both comparators return between the keys when the secondary sort is by id. -/
def ViewSortInfo.compareIds (info : ViewSortInfo) (first second : UInt32) : Int :=
  if info.view.secondarySortOrder = .ascending ∧ first ≥ second then 1 else -1

mutual

/-- `nsMsgDBView::FnSortIdKey`. -/
def fnSortIdKey (info : ViewSortInfo) (p1 p2 : IdKey) : Option Int :=
  let retVal := info.collation.compareCollationKeys p1.key p2.key
  if retVal ≠ 0 then some (if info.ascendingSort then retVal else -retVal)
  else if info.view.secondarySort = .byId then some (info.compareIds p1.id p2.id)
  else secondaryCompare info p1.id p1.folder p2.id p2.folder
termination_by if info.isSecondarySort then 1 else 3
decreasing_by split <;> decide

/-- `nsMsgDBView::FnSortIdUint32`. -/
def fnSortIdUint32 (info : ViewSortInfo) (p1 p2 : IdKey) : Option Int :=
  match p1.dword, p2.dword with
  | some dword1, some dword2 =>
    if dword1 > dword2 then some (if info.ascendingSort then 1 else -1)
    else if dword1 < dword2 then some (if info.ascendingSort then -1 else 1)
    else if info.view.secondarySort = .byId then some (info.compareIds p1.id p2.id)
    else secondaryCompare info p1.id p1.folder p2.id p2.folder
  | _, _ => none
termination_by if info.isSecondarySort then 1 else 3
decreasing_by split <;> decide

/-- `nsMsgDBView::SecondaryCompare`. -/
def secondaryCompare (info : ViewSortInfo) (key1 : UInt32) (folder1 : Option MsgFolder)
    (key2 : UInt32) (folder2 : Option MsgFolder) : Option Int :=
  if _ : info.isSecondarySort = true then some (if key1 > key2 then 1 else 0)
  else
    match folder1, folder2 with
    | some folder1, some folder2 =>
      match folder1.getMessageHeader key1, folder2.getMessageHeader key2 with
      | some hdr1, some hdr2 =>
        match getFieldTypeAndLenForSort info.view.secondarySort info.view.secondaryHandler with
        | none => some 0
        | some (.kCollationKey, _) =>
          fnSortIdKey info.secondary (secondaryEntry info .kCollationKey hdr1)
            (secondaryEntry info .kCollationKey hdr2)
        | some (.kU32, _) =>
          fnSortIdUint32 info.secondary (secondaryEntry info .kU32 hdr1)
            (secondaryEntry info .kU32 hdr2)
      | _, _ => some 0
    | _, _ => none
termination_by if info.isSecondarySort then 0 else 2
decreasing_by all_goals simp_all [ViewSortInfo.secondary]

end

/-- The comparator of a column with this kind of values. -/
def FieldType.comparator : FieldType → ViewSortInfo → IdKey → IdKey → Option Int
  | .kCollationKey => fnSortIdKey
  | .kU32 => fnSortIdUint32

/-- The comparison of two entries by their values alone. -/
def FieldType.valueCmp (collation : Collation) : FieldType → IdKey → IdKey → Int
  | .kCollationKey => fun p1 p2 => collation.compareCollationKeys p1.key p2.key
  | .kU32 => fieldCmp fun p => (p.dword.getD 0).toNat

/-- The entry holds the value that the comparator reads. -/
def FieldType.IsSet : FieldType → IdKey → Prop
  | .kCollationKey, _ => True
  | .kU32, p => p.dword.isSome = true

/-- What a comparator returns for entries of equal value. -/
def tieBreak (info : ViewSortInfo) (p1 p2 : IdKey) : Option Int :=
  if info.view.secondarySort = .byId then some (info.compareIds p1.id p2.id)
  else secondaryCompare info p1.id p1.folder p2.id p2.folder

lemma FieldType.valueCmp_preorder (collates : PreorderCmp collation.compareCollationKeys)
    (fieldType : FieldType) : PreorderCmp (fieldType.valueCmp collation) := by
  cases fieldType with
  | kCollationKey => exact collates.comap IdKey.key
  | kU32 => exact fieldCmp_preorder _

variable (fieldType : FieldType)

/-- Both comparators compare the values in the wanted direction and break ties
the same way. -/
theorem FieldType.comparator_eq (info : ViewSortInfo) (set1 : fieldType.IsSet p1)
    (set2 : fieldType.IsSet p2) :
    fieldType.comparator info p1 p2 =
      if fieldType.valueCmp info.collation p1 p2 ≠ 0 then
        some (directed info.ascendingSort (fieldType.valueCmp info.collation) p1 p2)
      else tieBreak info p1 p2 := by
  cases fieldType with
  | kCollationKey =>
    simp only [comparator, valueCmp, fnSortIdKey, tieBreak, directed]
    rfl
  | kU32 =>
    obtain ⟨dword1, eq1⟩ := isSome_iff_exists.mp set1
    obtain ⟨dword2, eq2⟩ := isSome_iff_exists.mp set2
    simp only [comparator, valueCmp, fnSortIdUint32, tieBreak, directed, fieldCmp, eq1, eq2,
      getD_some]
    by_cases greater : dword1 > dword2
    · have numbers : dword1.toNat > dword2.toNat := greater
      simp only [greater, numbers, if_true]
      cases info.ascendingSort <;> rfl
    · have numbers : ¬ dword1.toNat > dword2.toNat := greater
      by_cases less : dword1 < dword2
      · have lessNumbers : dword1.toNat < dword2.toNat := less
        simp only [greater, numbers, less, lessNumbers, if_true, if_false]
        cases info.ascendingSort <;> rfl
      · have lessNumbers : ¬ dword1.toNat < dword2.toNat := less
        simp only [greater, numbers, less, lessNumbers, if_false, ne_eq, not_true_eq_false]

lemma FieldType.comparator_unset (info) (unset : ¬ (fieldType.IsSet p1 ∧ fieldType.IsSet p2)) :
    fieldType.comparator info p1 p2 = none := by
  cases fieldType with
  | kCollationKey => exact absurd ⟨trivial, trivial⟩ unset
  | kU32 =>
    simp only [comparator, fnSortIdUint32]
    split
    · rename_i dword1 dword2 eq1 eq2
      exact absurd ⟨by simp [IsSet, eq1], by simp [IsSet, eq2]⟩ unset
    · rfl

end CommCentral.View
