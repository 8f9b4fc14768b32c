import CommCentral.Imap.FlagAndUidState
import CommCentral.Lib.Counting
import CommCentral.Lib.Run

/-! The counters of the flag state over whole runs. -/
namespace CommCentral.Imap

open Lib List

/-- The calls that change the arrays or the counters. -/
inductive FlagCall where
  | addUidFlagPair (uid flags zeroBasedIndex : Nat)
  | setMessageFlags (zeroBasedIndex : Int) (flags : Nat)
  | expungeByIndex (msgIndex : Nat)
  | startCapture
  | reset

namespace FlagAndUidState

def call (state : FlagAndUidState) : FlagCall → Option FlagAndUidState
  | .addUidFlagPair uid flags zeroBasedIndex => some (state.addUidFlagPair uid flags zeroBasedIndex)
  | .setMessageFlags zeroBasedIndex flags => state.setMessageFlags zeroBasedIndex flags
  | .expungeByIndex msgIndex => some (state.expungeByIndex msgIndex)
  | .startCapture => some state.startCapture
  | .reset => some FlagAndUidState.reset

/-- The flags contain `kImapMsgDeletedFlag`. -/
def isDeleted (flags : Nat) : Bool := flags &&& imapMsgDeletedFlag != 0

/-- The entries that are deleted are counted, and there are flags for each UID. -/
structure CountsDeleted (state : FlagAndUidState) : Prop where
  deleted : state.fNumberDeleted = state.fFlags.countP isDeleted
  paired : state.fUids.length = state.fFlags.length

/-- A call after which the count of deleted entries is still right: flags are stored over flags
without the deleted flag, or set without changing it. -/
def KeepsDeleted (state : FlagAndUidState) : FlagCall → Prop
  | .addUidFlagPair uid _ zeroBasedIndex =>
    uid = msgKeyNone ∨ zeroBasedIndex > 0x3FFFFFFF ∨
      isDeleted (state.fFlags.getD zeroBasedIndex noImapMsgFlag) = false
  | .setMessageFlags zeroBasedIndex flags =>
    zeroBasedIndex < 0 ∨ state.fUids.length ≤ zeroBasedIndex ∨
      isDeleted flags = isDeleted (state.fFlags.getD zeroBasedIndex.toNat noImapMsgFlag)
  | .expungeByIndex _ => True
  | .startCapture => True
  | .reset => True

variable (elements : List Nat)

lemma countP_growBy (sizeToGrowBy : Nat) {counted : Nat → Bool} (zero : counted 0 = false) :
    (growBy elements sizeToGrowBy).countP counted = elements.countP counted := by
  rw [growBy, countP_append, countP_replicate, zero]
  rfl

lemma getD_growBy (sizeToGrowBy index : Nat) :
    (growBy elements sizeToGrowBy).getD index 0 = elements.getD index 0 := by
  rw [growBy]
  rcases Nat.lt_or_ge index elements.length with inside | outside
  · exact getD_append _ _ _ _ inside
  · rw [getD_append_right _ _ _ _ outside, getD_eq_default _ _ outside]
    rcases Nat.lt_or_ge (index - elements.length) sizeToGrowBy with grown | beyond
    · rw [getD_eq_getElem _ _ (by rwa [length_replicate]), getElem_replicate]
    · exact getD_eq_default _ _ (by rwa [length_replicate])

/-- An entry of an array is stored, which grows for it if need be. -/
theorem countP_store (index element : Nat) {counted : Nat → Bool} (zero : counted 0 = false) :
    ((growBy elements (index + 1 - elements.length)).set index element).countP counted +
        (counted (elements.getD index 0)).toNat =
      elements.countP counted + (counted element).toNat := by
  have inside : index < (growBy elements (index + 1 - elements.length)).length := by
    rw [length_growBy]
    omega
  have stored := countP_set_add inside element counted
  rw [countP_growBy _ _ zero, ← getD_eq_getElem _ 0 inside, getD_growBy] at stored
  exact stored

lemma deletedDelta_eq (flags : Nat) :
    (if flags &&& imapMsgDeletedFlag ≠ 0 then 1 else 0 : Int) = (isDeleted flags).toNat := by
  by_cases deleted : flags &&& imapMsgDeletedFlag = 0
  · rw [if_neg (not_not_intro deleted), isDeleted, bne_eq_false_iff_eq.mpr deleted]
    rfl
  · rw [if_pos deleted, isDeleted, bne_iff_ne.mpr deleted]
    rfl

variable {state : FlagAndUidState}

lemma addUidFlagPair_ignored (flags : Nat)
    (ignored : uid = msgKeyNone ∨ zeroBasedIndex > 0x3FFFFFFF) :
    state.addUidFlagPair uid flags zeroBasedIndex = state := by
  rw [addUidFlagPair]
  rcases ignored with none | large
  · rw [if_pos none]
  · rw [dif_neg (not_not_intro large), ite_self]

lemma setMessageFlags_cases {state after : FlagAndUidState}
    (called : state.call (.setMessageFlags zeroBasedIndex flags) = some after) :
    state.fUids.length ≤ zeroBasedIndex ∧ after = state ∨
      (0 ≤ zeroBasedIndex ∧ zeroBasedIndex < state.fUids.length) ∧
        after = { state with fFlags := state.fFlags.set zeroBasedIndex.toNat flags } := by
  change state.setMessageFlags zeroBasedIndex flags = some after at called
  rw [setMessageFlags] at called
  by_cases within : zeroBasedIndex < state.fUids.length
  · rw [if_pos within] at called
    by_cases negative : zeroBasedIndex < 0
    · rw [if_pos negative] at called
      cases called
    · rw [if_neg negative] at called
      exact .inr ⟨⟨Int.not_lt.mp negative, within⟩, (Option.some.inj called).symm⟩
  · rw [if_neg within] at called
    exact .inl ⟨Int.not_lt.mp within, (Option.some.inj called).symm⟩

lemma call_eq_none (fails : state.call flagCall = none) :
    ∃ zeroBasedIndex flags, flagCall = .setMessageFlags zeroBasedIndex flags ∧
      zeroBasedIndex < 0 := by
  cases flagCall with
  | setMessageFlags zeroBasedIndex flags =>
    refine ⟨zeroBasedIndex, flags, rfl, ?_⟩
    change state.setMessageFlags zeroBasedIndex flags = none at fails
    rw [setMessageFlags] at fails
    by_contra notNegative
    rw [if_neg notNegative] at fails
    split at fails
    · cases fails
    · cases fails
  | addUidFlagPair | expungeByIndex | startCapture | reset => cases fails

lemma countsDeleted_addUidFlagPair_iff (counts : state.CountsDeleted) (flags : Nat)
    (real : uid ≠ msgKeyNone) (accepted : ¬ zeroBasedIndex > 0x3FFFFFFF) :
    (state.addUidFlagPair uid flags zeroBasedIndex).CountsDeleted ↔
      isDeleted (state.fFlags.getD zeroBasedIndex noImapMsgFlag) = false := by
  obtain ⟨deleted, paired⟩ := counts
  have zero : isDeleted 0 = false := by decide
  have stored := countP_store state.fFlags zeroBasedIndex flags zero
  rw [← paired] at stored
  rw [addUidFlagPair, if_neg real, dif_pos accepted]
  constructor
  · rintro ⟨deleted', _⟩
    simp only [deletedDelta_eq, deleted] at deleted'
    cases isOld : isDeleted (state.fFlags.getD zeroBasedIndex 0) with
    | false => exact isOld
    | true =>
      rw [isOld, Bool.toNat_true] at stored
      omega
  · intro notOld
    change isDeleted (state.fFlags.getD zeroBasedIndex 0) = false at notOld
    rw [notOld, Bool.toNat_false, Nat.add_zero] at stored
    constructor
    · simp only [deletedDelta_eq, deleted, stored]
      omega
    · simp only [length_set, length_growBy, paired]

lemma countsDeleted_setFlags_iff (counts : state.CountsDeleted)
    (within : index < state.fFlags.length) (flags : Nat) :
    CountsDeleted { state with fFlags := state.fFlags.set index flags } ↔
      isDeleted flags = isDeleted (state.fFlags.getD index noImapMsgFlag) := by
  obtain ⟨deleted, paired⟩ := counts
  have stored := countP_set_add within flags isDeleted
  rw [← getD_eq_getElem _ noImapMsgFlag within] at stored
  constructor
  · rintro ⟨deleted', _⟩
    simp only [deleted] at deleted'
    have same : (isDeleted flags).toNat =
        (isDeleted (state.fFlags.getD index noImapMsgFlag)).toNat := by omega
    revert same
    cases isDeleted flags <;> cases isDeleted (state.fFlags.getD index noImapMsgFlag) <;> decide
  · intro same
    rw [same] at stored
    constructor
    · simp only [deleted]
      omega
    · simp only [length_set, paired]

lemma CountsDeleted.expungeByIndex (counts : state.CountsDeleted)
    (msgIndex : Nat) : (state.expungeByIndex msgIndex).CountsDeleted := by
  obtain ⟨deleted, paired⟩ := counts
  rw [FlagAndUidState.expungeByIndex]
  by_cases invalid : msgIndex = 0 ∨ state.fUids.length < msgIndex
  · rw [if_pos invalid]
    exact ⟨deleted, paired⟩
  · have within : msgIndex - 1 < state.fFlags.length := by omega
    have removed := countP_eraseIdx_add within isDeleted
    rw [← getD_eq_getElem _ noImapMsgFlag within] at removed
    rw [if_neg invalid]
    constructor
    · simp only [deletedDelta_eq, deleted]
      omega
    · simp only [length_eraseIdx, paired]

/-- A call keeps the count of the deleted entries right exactly if it meets the condition. -/
theorem countsDeleted_call_iff (state : FlagAndUidState) (flagCall : FlagCall)
    (after : FlagAndUidState) (counts : state.CountsDeleted)
    (called : state.call flagCall = some after) :
    after.CountsDeleted ↔ state.KeepsDeleted flagCall := by
  cases flagCall with
  | addUidFlagPair uid flags zeroBasedIndex =>
    cases called
    by_cases ignored : uid = msgKeyNone ∨ zeroBasedIndex > 0x3FFFFFFF
    · rw [addUidFlagPair_ignored flags ignored]
      exact ⟨fun _ => or_assoc.mp (.inl ignored), fun _ => counts⟩
    · obtain ⟨real, accepted⟩ := not_or.mp ignored
      rw [countsDeleted_addUidFlagPair_iff counts flags real accepted]
      exact ⟨fun keeps => .inr (.inr keeps),
        fun keeps => (keeps.resolve_left real).resolve_left accepted⟩
  | setMessageFlags zeroBasedIndex flags =>
    rcases setMessageFlags_cases called with ⟨outside, rfl⟩ | ⟨⟨notNegative, inside⟩, rfl⟩
    · exact ⟨fun _ => .inr (.inl outside), fun _ => counts⟩
    · have within : zeroBasedIndex.toNat < state.fFlags.length := by
        rw [← counts.paired]
        omega
      rw [countsDeleted_setFlags_iff counts within flags]
      exact ⟨fun keeps => .inr (.inr keeps), fun keeps =>
        (keeps.resolve_left (Int.not_lt.mpr notNegative)).resolve_left (Int.not_le.mpr inside)⟩
  | expungeByIndex msgIndex =>
    cases called
    exact ⟨fun _ => trivial, fun _ => counts.expungeByIndex msgIndex⟩
  | startCapture =>
    cases called
    exact ⟨fun _ => trivial, fun _ => ⟨counts.deleted, counts.paired⟩⟩
  | reset =>
    cases called
    exact ⟨fun _ => trivial, fun _ => ⟨rfl, rfl⟩⟩

lemma keepsDeleted_of_none (state : FlagAndUidState) (flagCall : FlagCall)
    (fails : state.call flagCall = none) : state.KeepsDeleted flagCall := by
  obtain ⟨zeroBasedIndex, flags, rfl, negative⟩ := call_eq_none fails
  exact .inl negative

/-- The count of deleted entries is right throughout a run if and only if each of its calls meets
the condition. -/
theorem countsDeleted_iff (calls : List FlagCall) :
    (∀ last, Reached call reset calls last → last.CountsDeleted) ↔
      AdmissibleSome KeepsDeleted call reset calls :=
  reached_invariant_iff KeepsDeleted call countsDeleted_call_iff keepsDeleted_of_none ⟨rfl, rfl⟩
    calls

/-- The server reports the same deleted message twice: it is counted twice. -/
theorem countsDeleted_reported_twice :
    (reset.call (.addUidFlagPair 1 imapMsgDeletedFlag 0)).bind
        (·.call (.addUidFlagPair 1 imapMsgDeletedFlag 0)) =
      some { reset with
        fUids := [1], fFlags := [imapMsgDeletedFlag], fNumberDeleted := 2, fNumAdded := 1
        room := by decide } ∧
    ¬ ∀ last, Reached call reset [.addUidFlagPair 1 imapMsgDeletedFlag 0,
      .addUidFlagPair 1 imapMsgDeletedFlag 0] last → last.CountsDeleted := by
  refine ⟨by decide, ?_⟩
  intro counts
  have twice := counts { reset with
    fUids := [1], fFlags := [imapMsgDeletedFlag], fNumberDeleted := 2, fNumAdded := 1
    room := by decide } ⟨_, prefix_rfl, by decide⟩
  exact absurd twice.deleted (by decide)

def numUids (state : FlagAndUidState) : Nat := state.fUids.countP (· != 0)

/-- What the scan for new messages has found when it ends. -/
structure NewUids where
  topIndex : Int
  numNewUIDs : Nat
  flagChangeDetected : Bool
  deriving DecidableEq

/-- The `do` loop of `ProcessMailboxUpdate` that counts the new UIDs. -/
def countNewUids (state : FlagAndUidState) (folderHighestUID : Nat) :
    Nat → (topIndex : Int) → (numToCheck numNewUIDs : Nat) → Option NewUids
  | 0, _, _, _ => none
  | fuel + 1, topIndex, numToCheck, numNewUIDs =>
    let topIndex := topIndex - 1
    let uid := state.getUidOfMessage topIndex
    if uid ≠ 0 ∧ uid ≠ msgKeyNone then
      if folderHighestUID < uid then
        if numToCheck - 1 = 0 then some ⟨topIndex, numNewUIDs + 1, false⟩
        else countNewUids state folderHighestUID fuel topIndex (numToCheck - 1) (numNewUIDs + 1)
      else some ⟨topIndex, numNewUIDs, true⟩
    else if numToCheck = 0 then some ⟨topIndex, numNewUIDs, false⟩
    else countNewUids state folderHighestUID fuel topIndex numToCheck numNewUIDs

/-- The scan for new messages ends inside the arrays, if it takes place. -/
def ScanEnds (state : FlagAndUidState) (folderHighestUID : Nat) : Prop :=
  state.fNumAdded ≠ 0 → folderHighestUID ≠ 0 → ∃ fuel result,
    state.countNewUids folderHighestUID fuel state.fUids.length state.fNumAdded 0 = some result ∧
      0 ≤ result.topIndex

/-- Not more messages have been added than there are UIDs, so that the scan ends. -/
def StaysInside (state : FlagAndUidState) : Prop :=
  state.fNumAdded ≤ state.numUids ∧ ∀ folderHighestUID, state.ScanEnds folderHighestUID

/-- A call after which there are still as many UIDs as messages have been added: none is taken
away while there are no others, and none is added without a UID. -/
def KeepsInside (state : FlagAndUidState) : FlagCall → Prop
  | .addUidFlagPair uid _ zeroBasedIndex =>
    uid = msgKeyNone ∨ zeroBasedIndex > 0x3FFFFFFF ∨ uid ≠ 0 ∨
      if state.fUids.length ≤ zeroBasedIndex then
        (if state.fStartCapture then 0 else state.fNumAdded) < state.numUids
      else state.fUids.getD zeroBasedIndex 0 = 0 ∨ state.fNumAdded < state.numUids
  | .setMessageFlags _ _ => True
  | .expungeByIndex msgIndex =>
    msgIndex = 0 ∨ state.fUids.length < msgIndex ∨ state.fUids.getD (msgIndex - 1) 0 = 0 ∨
      state.fNumAdded < state.numUids
  | .startCapture => True
  | .reset => True

/-- As many UIDs as messages added, and the sentinel is none of them. -/
structure Inside (state : FlagAndUidState) : Prop where
  added : state.fNumAdded ≤ state.numUids
  real : msgKeyNone ∉ state.fUids

lemma numUids_store (state : FlagAndUidState) (zeroBasedIndex uid : Nat) :
    ((growBy state.fUids (zeroBasedIndex + 1 - state.fUids.length)).set zeroBasedIndex uid).countP
        (· != 0) + (state.fUids.getD zeroBasedIndex 0 != 0).toNat =
      state.numUids + (uid != 0).toNat :=
  countP_store state.fUids zeroBasedIndex uid rfl

lemma msgKeyNone_notMem_store (real : msgKeyNone ∉ state.fUids) (notNone : uid ≠ msgKeyNone)
    (sizeToGrowBy zeroBasedIndex : Nat) :
    msgKeyNone ∉ (growBy state.fUids sizeToGrowBy).set zeroBasedIndex uid := by
  intro mem
  rcases mem_or_eq_of_mem_set mem with old | new
  · rw [growBy, mem_append] at old
    rcases old with before | grown
    · exact real before
    · exact absurd (eq_of_mem_replicate grown) (by decide)
  · exact notNone new.symm

lemma inside_addUidFlagPair_iff (flags : Nat) (inside : state.Inside) (notNone : uid ≠ msgKeyNone)
    (accepted : ¬ zeroBasedIndex > 0x3FFFFFFF) :
    (state.addUidFlagPair uid flags zeroBasedIndex).Inside ↔
      (uid ≠ 0 ∨ if state.fUids.length ≤ zeroBasedIndex then
        (if state.fStartCapture then 0 else state.fNumAdded) < state.numUids
      else state.fUids.getD zeroBasedIndex 0 = 0 ∨ state.fNumAdded < state.numUids) := by
  have stored := numUids_store state zeroBasedIndex uid
  have real := msgKeyNone_notMem_store inside.real notNone
    (zeroBasedIndex + 1 - state.fUids.length) zeroBasedIndex
  have added := inside.added
  -- the sentinel never enters, so that only the counts matter
  have counts : (state.addUidFlagPair uid flags zeroBasedIndex).Inside ↔
      (if state.fUids.length ≤ zeroBasedIndex then
        (if state.fStartCapture then 0 else state.fNumAdded) + 1 else state.fNumAdded) ≤
      ((growBy state.fUids (zeroBasedIndex + 1 - state.fUids.length)).set zeroBasedIndex uid).countP
        (· != 0) := by
    rw [addUidFlagPair, if_neg notNone, dif_pos accepted]
    constructor
    · intro inside'
      have added' := inside'.added
      simp only [ge_iff_le, decide_eq_true_eq] at added'
      exact added'
    · intro added'
      constructor
      · simp only [ge_iff_le, decide_eq_true_eq]
        exact added'
      · exact real
  rw [counts]
  by_cases grows : state.fUids.length ≤ zeroBasedIndex
  · rw [if_pos grows, if_pos grows]
    rw [getD_eq_default _ _ grows, bne_self_eq_false, Bool.toNat_false] at stored
    have start : (if state.fStartCapture then 0 else state.fNumAdded) ≤ state.numUids := by
      split
      · exact Nat.zero_le _
      · exact added
    by_cases hole : uid = 0
    · subst hole
      rw [bne_self_eq_false, Bool.toNat_false] at stored
      constructor
      · intro fits
        exact .inr (by omega)
      · intro fits
        have fits := fits.resolve_left (not_not_intro rfl)
        omega
    · rw [bne_iff_ne.mpr hole, Bool.toNat_true] at stored
      exact ⟨fun _ => .inl hole, fun _ => by omega⟩
  · rw [if_neg grows, if_neg grows]
    by_cases hole : uid = 0
    · subst hole
      rw [bne_self_eq_false, Bool.toNat_false] at stored
      by_cases old : state.fUids.getD zeroBasedIndex 0 = 0
      · rw [old, bne_self_eq_false, Bool.toNat_false] at stored
        exact ⟨fun _ => .inr (.inl old), fun _ => by omega⟩
      · rw [bne_iff_ne.mpr old, Bool.toNat_true] at stored
        constructor
        · intro fits
          exact .inr (.inr (by omega))
        · intro fits
          have fits := (fits.resolve_left (not_not_intro rfl)).resolve_left old
          omega
    · rw [bne_iff_ne.mpr hole, Bool.toNat_true] at stored
      have atMost : (state.fUids.getD zeroBasedIndex 0 != 0).toNat ≤ 1 := Bool.toNat_le _
      exact ⟨fun _ => .inl hole, fun _ => by omega⟩

lemma inside_expungeByIndex_iff (inside : state.Inside)
    (valid : ¬ (msgIndex = 0 ∨ state.fUids.length < msgIndex)) :
    (state.expungeByIndex msgIndex).Inside ↔
      state.fUids.getD (msgIndex - 1) 0 = 0 ∨ state.fNumAdded < state.numUids := by
  have within : msgIndex - 1 < state.fUids.length := by omega
  have removed := countP_eraseIdx_add within (· != 0)
  rw [← getD_eq_getElem _ 0 within] at removed
  have added := inside.added
  have counts : (state.expungeByIndex msgIndex).Inside ↔
      state.fNumAdded ≤ (state.fUids.eraseIdx (msgIndex - 1)).countP (· != 0) := by
    rw [expungeByIndex, if_neg valid]
    constructor
    · exact Inside.added
    · intro added'
      exact ⟨added', fun mem => inside.real (mem_of_mem_eraseIdx mem)⟩
  rw [counts]
  change _ = state.numUids at removed
  by_cases hole : state.fUids.getD (msgIndex - 1) 0 = 0
  · rw [hole, bne_self_eq_false, Bool.toNat_false] at removed
    exact ⟨fun _ => .inl hole, fun _ => by omega⟩
  · rw [bne_iff_ne.mpr hole, Bool.toNat_true] at removed
    constructor
    · intro fits
      exact .inr (by omega)
    · intro fits
      have fits := fits.resolve_left hole
      omega

/-- A call leaves as many UIDs as messages added exactly if it meets the condition. -/
theorem inside_call_iff (state : FlagAndUidState) (flagCall : FlagCall)
    (after : FlagAndUidState) (inside : state.Inside) (called : state.call flagCall = some after) :
    after.Inside ↔ state.KeepsInside flagCall := by
  cases flagCall with
  | addUidFlagPair uid flags zeroBasedIndex =>
    cases called
    by_cases ignored : uid = msgKeyNone ∨ zeroBasedIndex > 0x3FFFFFFF
    · rw [addUidFlagPair_ignored flags ignored]
      exact ⟨fun _ => or_assoc.mp (.inl ignored), fun _ => inside⟩
    · obtain ⟨notNone, accepted⟩ := not_or.mp ignored
      rw [inside_addUidFlagPair_iff flags inside notNone accepted]
      exact ⟨fun keeps => .inr (.inr keeps),
        fun keeps => (keeps.resolve_left notNone).resolve_left accepted⟩
  | setMessageFlags zeroBasedIndex flags =>
    refine ⟨fun _ => trivial, fun _ => ?_⟩
    rcases setMessageFlags_cases called with ⟨_, rfl⟩ | ⟨_, rfl⟩
    · exact inside
    · exact ⟨inside.added, inside.real⟩
  | expungeByIndex msgIndex =>
    cases called
    by_cases invalid : msgIndex = 0 ∨ state.fUids.length < msgIndex
    · rw [expungeByIndex, if_pos invalid]
      exact ⟨fun _ => or_assoc.mp (.inl invalid), fun _ => inside⟩
    · rw [inside_expungeByIndex_iff inside invalid]
      obtain ⟨positive, within⟩ := not_or.mp invalid
      exact ⟨fun keeps => .inr (.inr keeps),
        fun keeps => (keeps.resolve_left positive).resolve_left within⟩
  | startCapture =>
    cases called
    exact ⟨fun _ => trivial, fun _ => ⟨inside.added, inside.real⟩⟩
  | reset =>
    cases called
    exact ⟨fun _ => trivial, fun _ => ⟨Nat.zero_le _, not_mem_nil⟩⟩

lemma keepsInside_of_none (state : FlagAndUidState) (flagCall : FlagCall)
    (fails : state.call flagCall = none) : state.KeepsInside flagCall := by
  obtain ⟨zeroBasedIndex, flags, rfl, _⟩ := call_eq_none fails
  trivial

/-- The sentinel never gets into the array. -/
theorem real_call {state after : FlagAndUidState} (real : msgKeyNone ∉ state.fUids)
    (called : state.call flagCall = some after) : msgKeyNone ∉ after.fUids := by
  cases flagCall with
  | addUidFlagPair uid flags zeroBasedIndex =>
    cases called
    by_cases ignored : uid = msgKeyNone ∨ zeroBasedIndex > 0x3FFFFFFF
    · rw [addUidFlagPair_ignored flags ignored]
      exact real
    · obtain ⟨notNone, accepted⟩ := not_or.mp ignored
      rw [addUidFlagPair, if_neg notNone, dif_pos accepted]
      exact msgKeyNone_notMem_store real notNone _ _
  | setMessageFlags zeroBasedIndex flags =>
    rcases setMessageFlags_cases called with ⟨_, rfl⟩ | ⟨_, rfl⟩
    · exact real
    · exact real
  | expungeByIndex msgIndex =>
    cases called
    rw [expungeByIndex]
    split
    · exact real
    · exact fun mem => real (mem_of_mem_eraseIdx mem)
  | startCapture =>
    cases called
    exact real
  | reset =>
    cases called
    exact not_mem_nil

/-- The scan ends while it meets as many UIDs as it checks. -/
theorem countNewUids_ends (real : msgKeyNone ∉ state.fUids) (folderHighestUID : Nat)
    (within : topIndex ≤ state.fUids.length) (some_ : 0 < numToCheck)
    (enough : numToCheck ≤ (state.fUids.take topIndex).countP (· != 0)) (numNewUIDs : Nat) :
    ∃ fuel result,
      state.countNewUids folderHighestUID fuel topIndex numToCheck numNewUIDs = some result ∧
        0 ≤ result.topIndex := by
  induction topIndex generalizing numToCheck numNewUIDs with
  | zero =>
    rw [take_zero, countP_nil] at enough
    omega
  | succ topIndex ih =>
    have position : ((topIndex + 1 : Nat) - 1 : Int) = topIndex := by omega
    have here : state.getUidOfMessage topIndex = state.fUids[topIndex] := by
      have nonnegative : ¬ (topIndex : Int) < 0 := by omega
      rw [getUidOfMessage, if_neg nonnegative, Int.toNat_natCast, getD_eq_getElem _ _ within]
    have notNone : state.fUids[topIndex] ≠ msgKeyNone := by
      intro none
      exact real (none ▸ getElem_mem within)
    rw [take_succ_eq_append_getElem within, countP_append,
      countP_singleton] at enough
    have step : ∀ fuel, state.countNewUids folderHighestUID (fuel + 1) (topIndex + 1 : Nat)
        numToCheck numNewUIDs = if state.fUids[topIndex] ≠ 0 then
          if folderHighestUID < state.fUids[topIndex] then
            if numToCheck - 1 = 0 then some ⟨topIndex, numNewUIDs + 1, false⟩
            else state.countNewUids folderHighestUID fuel topIndex (numToCheck - 1) (numNewUIDs + 1)
          else some ⟨topIndex, numNewUIDs, true⟩
        else state.countNewUids folderHighestUID fuel topIndex numToCheck numNewUIDs := by
      intro fuel
      rw [countNewUids, position, here]
      simp only [and_iff_left notNone, if_neg (Nat.ne_of_gt some_)]
    by_cases hole : state.fUids[topIndex] = 0
    · rw [hole] at enough
      obtain ⟨fuel, result, scanned, positive⟩ :=
        ih (Nat.le_of_succ_le within) some_ enough numNewUIDs
      refine ⟨fuel + 1, result, ?_, positive⟩
      rw [step, if_neg (not_not_intro hole)]
      exact scanned
    · by_cases new : folderHighestUID < state.fUids[topIndex]
      · by_cases last : numToCheck - 1 = 0
        · refine ⟨1, ⟨topIndex, numNewUIDs + 1, false⟩, ?_, Int.natCast_nonneg _⟩
          rw [step, if_pos hole, if_pos new, if_pos last]
        · have fewer : numToCheck - 1 ≤ (state.fUids.take topIndex).countP (· != 0) := by
            rw [bne_iff_ne.mpr hole, if_pos rfl] at enough
            omega
          obtain ⟨fuel, result, scanned, positive⟩ :=
            ih (Nat.le_of_succ_le within) (Nat.pos_of_ne_zero last) fewer (numNewUIDs + 1)
          refine ⟨fuel + 1, result, ?_, positive⟩
          rw [step, if_pos hole, if_pos new, if_neg last]
          exact scanned
      · refine ⟨1, ⟨topIndex, numNewUIDs, true⟩, ?_, Int.natCast_nonneg _⟩
        rw [step, if_pos hole, if_neg new]

lemma Inside.staysInside (inside : state.Inside) :
    state.StaysInside := by
  refine ⟨inside.added, ?_⟩
  intro folderHighestUID added _
  apply countNewUids_ends inside.real folderHighestUID (Nat.le_refl _) (Nat.pos_of_ne_zero added)
  rw [take_length]
  exact inside.added

/-- The scan for new messages stays inside the arrays after every response if and only if it would
before the first and each response meets the condition. -/
theorem staysInside_iff {calls : List FlagCall} {before : FlagAndUidState}
    (ran : runSome call reset calls = some before) (responses : List FlagCall) :
    (∀ last, Reached call before.startCapture responses last → last.StaysInside) ↔
      before.fNumAdded ≤ before.numUids ∧
        AdmissibleSome KeepsInside call before.startCapture responses := by
  have realBefore : msgKeyNone ∉ before.fUids :=
    runSome_preserved call (fun _ _ _ real called => real_call real called) not_mem_nil ran
  have real : msgKeyNone ∉ before.startCapture.fUids := realBefore
  have realLater : ∀ last, Reached call before.startCapture responses last →
      msgKeyNone ∉ last.fUids := by
    rintro last ⟨taken, _, ran⟩
    exact runSome_preserved call (fun _ _ _ real called => real_call real called) real ran
  constructor
  · intro stays
    have first := stays _ ⟨[], nil_prefix, rfl⟩
    refine ⟨first.1, ?_⟩
    apply (reached_invariant_iff KeepsInside call inside_call_iff keepsInside_of_none
      ⟨first.1, real⟩ responses).mp
    intro last reached
    exact ⟨(stays last reached).1, realLater last reached⟩
  · rintro ⟨added, admissible⟩ last reached
    have first : before.startCapture.Inside := ⟨added, real⟩
    exact ((reached_invariant_iff KeepsInside call inside_call_iff keepsInside_of_none first
      responses).mpr admissible last reached).staysInside

/-- The fifth message is new. -/
theorem staysInside_newMessage :
    runSome call reset [] = some reset ∧
      ∀ last, Reached call reset.startCapture [.addUidFlagPair 105 0 4] last →
        last.StaysInside := by
  have ran : runSome call reset [] = some reset := rfl
  refine ⟨ran, (staysInside_iff ran [.addUidFlagPair 105 0 4]).mpr ⟨Nat.le_refl _, ?_⟩⟩
  exact ⟨.inr (.inr (.inl (by decide))), fun _ _ => trivial⟩

/-- The flag state when a new message is expunged before the fetch of the flags is over. -/
def newMessageExpunged : FlagAndUidState :=
  { reset with
    fUids := [0, 0, 0, 0], fFlags := [0, 0, 0, 0], fNumAdded := 1
    room := by decide }

lemma getUidOfMessage_newMessageExpunged (zeroBasedIndex : Int) :
    newMessageExpunged.getUidOfMessage zeroBasedIndex = 0 ∨
      newMessageExpunged.getUidOfMessage zeroBasedIndex = msgKeyNone := by
  rw [getUidOfMessage]
  split
  · exact .inr rfl
  · rw [getD_eq_getElem?_getD]
    cases found : newMessageExpunged.fUids[zeroBasedIndex.toNat]? with
    | none => exact .inr rfl
    | some uid =>
      have mem : uid ∈ List.replicate 4 0 := mem_of_getElem? found
      exact .inl (eq_of_mem_replicate mem)

/-- The scan runs out of the arrays without end. -/
theorem countNewUids_newMessageExpunged (folderHighestUID fuel : Nat) (topIndex : Int)
    (numNewUIDs : Nat) :
    newMessageExpunged.countNewUids folderHighestUID fuel topIndex 1 numNewUIDs = none := by
  induction fuel generalizing topIndex with
  | zero => rfl
  | succ fuel ih =>
    rw [countNewUids]
    have skipped : ¬ (newMessageExpunged.getUidOfMessage (topIndex - 1) ≠ 0 ∧
        newMessageExpunged.getUidOfMessage (topIndex - 1) ≠ msgKeyNone) := by
      rintro ⟨notHole, notNone⟩
      rcases getUidOfMessage_newMessageExpunged (topIndex - 1) with hole | none
      · exact notHole hole
      · exact notNone none
    simp only [if_neg skipped, if_neg Nat.one_ne_zero]
    exact ih _

/-- The server reports a new message and expunges it: the scan does not end. -/
theorem staysInside_expunged :
    runSome call reset.startCapture [.addUidFlagPair 105 0 4, .expungeByIndex 5] =
        some newMessageExpunged ∧
      ¬ newMessageExpunged.StaysInside ∧ ¬ newMessageExpunged.ScanEnds 104 := by
  refine ⟨by decide, ?_, ?_⟩
  · rintro ⟨added, _⟩
    exact absurd added (by decide)
  · intro ends
    obtain ⟨fuel, result, scanned, _⟩ := ends (by decide) (by decide)
    exact absurd ((countNewUids_newMessageExpunged 104 fuel _ 0).symm.trans scanned)
      (Option.some_ne_none _).symm

end FlagAndUidState

end CommCentral.Imap
