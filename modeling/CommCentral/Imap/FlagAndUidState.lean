import Mathlib.Data.List.Basic
import Mathlib.Data.List.GetD
import Mathlib.Data.List.Nodup

/-! The UID and flag arrays of a selected IMAP mailbox (`nsImapFlagAndUidState`). -/
namespace CommCentral.Imap
open List

/-- `nsMsgKey_None`, which is also the end sentinel of UID arrays. -/
def msgKeyNone : Nat := 0xFFFFFFFF

def noImapMsgFlag : Nat := 0

def imapMsgDeletedFlag : Nat := 0x0008

/-- `AddUidFlagPair` refuses every index above `0x3FFFFFFF`. -/
def maxUids : Nat := 0x40000000

/-- The arrays and counters of `nsImapFlagAndUidState`. `room` is what the index
check of `AddUidFlagPair` guarantees of every state. -/
structure FlagAndUidState where
  fUids : List Nat
  fFlags : List Nat
  fNumberDeleted : Int
  fPartialUIDFetch : Bool
  fNumAdded : Nat
  fStartCapture : Bool
  room : fUids.length ≤ maxUids
deriving Repr, DecidableEq

namespace FlagAndUidState

def reset : FlagAndUidState where
  fUids := []
  fFlags := []
  fNumberDeleted := 0
  fPartialUIDFetch := true
  fNumAdded := 0
  fStartCapture := false
  room := Nat.zero_le _

/-- `InsertElementsAt(Length(), sizeToGrowBy, 0)`. -/
def growBy (elements : List Nat) (sizeToGrowBy : Nat) : List Nat :=
  elements ++ List.replicate sizeToGrowBy 0

lemma length_growBy (elements) (sizeToGrowBy : Nat) :
    (growBy elements sizeToGrowBy).length = elements.length + sizeToGrowBy := by
  rw [growBy, length_append, length_replicate]

private lemma growBy_room (state : FlagAndUidState) (zeroBasedIndex uid : Nat)
    (accepted : ¬ zeroBasedIndex > 0x3FFFFFFF) :
    ((growBy state.fUids (zeroBasedIndex + 1 - state.fUids.length)).set zeroBasedIndex uid).length ≤
      maxUids := by
  have room := state.room
  simp only [length_set, length_growBy, maxUids] at room ⊢
  omega

def addUidFlagPair (state : FlagAndUidState) (uid flags zeroBasedIndex : Nat) :
    FlagAndUidState :=
  if uid = msgKeyNone then state
  else if accepted : ¬ zeroBasedIndex > 0x3FFFFFFF then
    let grows := decide (zeroBasedIndex ≥ state.fUids.length)
    -- zero where the index is inside the array
    let sizeToGrowBy := zeroBasedIndex + 1 - state.fUids.length
    { fUids := (growBy state.fUids sizeToGrowBy).set zeroBasedIndex uid
      fFlags := (growBy state.fFlags sizeToGrowBy).set zeroBasedIndex flags
      fNumberDeleted := state.fNumberDeleted +
        if flags &&& imapMsgDeletedFlag ≠ 0 then 1 else 0
      fPartialUIDFetch := state.fPartialUIDFetch
      fNumAdded := if grows then (if state.fStartCapture then 0 else state.fNumAdded) + 1
        else state.fNumAdded
      fStartCapture := if grows then false else state.fStartCapture
      room := growBy_room state zeroBasedIndex uid accepted }
  else state

/-- There is no result where the index is negative, which `fFlags` does not allow. -/
def setMessageFlags (state : FlagAndUidState) (zeroBasedIndex : Int) (flags : Nat) :
    Option FlagAndUidState :=
  if zeroBasedIndex < state.fUids.length then
    if zeroBasedIndex < 0 then none
    else some { state with fFlags := state.fFlags.set zeroBasedIndex.toNat flags }
  else some state

def startCapture (state : FlagAndUidState) : FlagAndUidState := { state with fStartCapture := true }

/-- `msgIndex` is 1-relative, as the server sends it. -/
def expungeByIndex (state : FlagAndUidState) (msgIndex : Nat) : FlagAndUidState :=
  if msgIndex = 0 ∨ state.fUids.length < msgIndex then state
  else
    { state with
      fNumberDeleted := state.fNumberDeleted -
        if state.fFlags.getD (msgIndex - 1) noImapMsgFlag &&& imapMsgDeletedFlag ≠ 0
        then 1 else 0
      fUids := state.fUids.eraseIdx (msgIndex - 1)
      fFlags := state.fFlags.eraseIdx (msgIndex - 1)
      room := Nat.le_trans (length_eraseIdx_le ..) state.room }

/-- `IndexOfFirstElementGt` of a sorted array. -/
def indexOfFirstElementGt (uids : List Nat) (uid : Nat) : Nat :=
  uids.findIdx (fun element => uid < element)

/-- `SafeElementAt(index, nsMsgKey_None)`: every index outside the array gives the default. -/
def getUidOfMessage (state : FlagAndUidState) (zeroBasedIndex : Int) : Nat :=
  if zeroBasedIndex < 0 then msgKeyNone else state.fUids.getD zeroBasedIndex.toNat msgKeyNone

/-- The result and the two out parameters of `GetMessageFlagsFromUID`. -/
structure FlagLookup where
  flags : Nat
  foundIt : Bool
  ndx : Int
deriving Repr, DecidableEq

def getMessageFlagsFromUID (state : FlagAndUidState) (uid : Nat) : FlagLookup :=
  let ndx : Int := (indexOfFirstElementGt state.fUids uid : Int) - 1
  let foundIt := decide (0 ≤ ndx) && state.fUids.getD ndx.toNat msgKeyNone == uid
  { flags := if foundIt then state.fFlags.getD ndx.toNat noImapMsgFlag else noImapMsgFlag
    foundIt := foundIt
    ndx := ndx }

/-- The server lists the messages of a mailbox by increasing UID. -/
def Sorted (state : FlagAndUidState) : Prop := state.fUids.Pairwise (· < ·)

private lemma indexOfFirstElementGt_getElem (uids : List Nat)
    (sorted : uids.Pairwise (· < ·)) (position : Nat) (inside : position < uids.length) :
    indexOfFirstElementGt uids uids[position] = position + 1 := by
  have notAbove : ∀ earlier (bound : earlier < position + 1) (here : earlier < uids.length),
      ¬ uids[position] < uids[earlier] := by
    intro earlier bound here above
    rcases Nat.lt_or_ge earlier position with before | same
    · exact absurd above (Nat.lt_asymm (pairwise_iff_getElem.mp sorted _ _ here inside before))
    · obtain rfl : earlier = position := by omega
      exact Nat.lt_irrefl _ above
  by_cases next : position + 1 < uids.length
  · refine (findIdx_eq next).mpr ⟨?_, ?_⟩
    · exact decide_eq_true
        (pairwise_iff_getElem.mp sorted _ _ inside next (Nat.lt_succ_self position))
    · intro earlier bound
      exact decide_eq_false (notAbove earlier bound (by omega))
  · have last : uids.length = position + 1 := by omega
    rw [← last]
    refine findIdx_eq_length_of_false ?_
    intro element mem
    obtain ⟨earlier, here, rfl⟩ := mem_iff_getElem.mp mem
    exact decide_eq_false (notAbove earlier (by omega) here)

section

variable (state : FlagAndUidState)
include state

lemma lookup_present (sorted : state.Sorted) (position : Nat)
    (inside : position < state.fUids.length) :
    (state.getMessageFlagsFromUID state.fUids[position]).foundIt = true ∧
      (state.getMessageFlagsFromUID state.fUids[position]).ndx = position := by
  have after := indexOfFirstElementGt_getElem state.fUids sorted position inside
  simp [getMessageFlagsFromUID, after, inside]

/-- `foundIt` is set exactly for the UIDs of the array. -/
theorem lookup_foundIt_iff (sorted : state.Sorted) (uid : Nat) :
    (state.getMessageFlagsFromUID uid).foundIt = true ↔ uid ∈ state.fUids := by
  constructor
  · intro found
    simp only [getMessageFlagsFromUID, Bool.and_eq_true, decide_eq_true_eq, beq_iff_eq] at found
    obtain ⟨nonnegative, same⟩ := found
    have bounded : indexOfFirstElementGt state.fUids uid ≤ state.fUids.length := findIdx_le_length
    have inside : ((indexOfFirstElementGt state.fUids uid : Int) - 1).toNat <
        state.fUids.length := by omega
    rw [getD_eq_getElem _ _ inside] at same
    exact same ▸ getElem_mem inside
  · intro mem
    obtain ⟨position, inside, rfl⟩ := mem_iff_getElem.mp mem
    exact (lookup_present state sorted position inside).1

lemma getUidOfMessage_eq_iff (position uid : Nat) (real : uid ≠ msgKeyNone) :
    state.getUidOfMessage position = uid ↔ state.fUids[position]? = some uid := by
  have nonnegative : ¬ (position : Int) < 0 := by omega
  rw [getUidOfMessage, if_neg nonnegative, Int.toNat_natCast]
  rcases Nat.lt_or_ge position state.fUids.length with inside | outside
  · rw [getD_eq_getElem _ _ inside, getElem?_eq_getElem inside, Option.some.injEq]
  · rw [getD_eq_default _ _ outside, getElem?_eq_none outside]
    exact ⟨fun same => absurd same.symm real, fun impossible => by cases impossible⟩

/-- Membership in the array determines what the lookup reports. -/
theorem lookup_cases (sorted : state.Sorted) (uid : Nat) :
    (∃ position : Nat, state.fUids[position]? = some uid ∧
      (state.getMessageFlagsFromUID uid).foundIt = true ∧
      (state.getMessageFlagsFromUID uid).ndx = position) ∨
    (uid ∉ state.fUids ∧ (state.getMessageFlagsFromUID uid).foundIt = false) := by
  by_cases mem : uid ∈ state.fUids
  · left
    obtain ⟨position, inside, rfl⟩ := mem_iff_getElem.mp mem
    exact ⟨position, getElem?_eq_getElem inside, lookup_present state sorted position inside⟩
  · right
    refine ⟨mem, ?_⟩
    rw [← Bool.not_eq_true, lookup_foundIt_iff state sorted]
    exact mem

lemma position_unique (sorted : state.Sorted) {position other uid : Nat}
    (here : state.fUids[position]? = some uid) (there : state.fUids[other]? = some uid) :
    position = other := by
  obtain ⟨inside, same⟩ := List.getElem?_eq_some_iff.mp here
  obtain ⟨inside', same'⟩ := List.getElem?_eq_some_iff.mp there
  exact (List.Nodup.getElem_inj_iff (sorted.imp Nat.ne_of_lt)).mp (same.trans same'.symm)

end

end FlagAndUidState

end CommCentral.Imap
