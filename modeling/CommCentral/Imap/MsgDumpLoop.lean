import CommCentral.Imap.UidStringNames
import Mathlib.Data.List.Perm.Subperm

/-! The batches of `nsImapProtocol::FolderMsgDumpLoop`. -/
namespace CommCentral.Imap
open Lib List

/-- How a sequence was opened: with one key so far, with two consecutive numbers, or with
two neighbours of the mailbox. -/
inductive SequenceKind where
  | single
  | consecutive
  | neighbours
deriving Repr, DecidableEq

/-- No message of the mailbox lies strictly between the two UIDs. -/
def NoneBetween (uids : List Nat) (lower upper : Nat) : Prop :=
  ∀ uid ∈ uids, lower < uid → upper ≤ uid

instance (uids : List Nat) (lower upper : Nat) : Decidable (NoneBetween uids lower upper) :=
  inferInstanceAs (Decidable (∀ uid ∈ uids, lower < uid → upper ≤ uid))

/-- The ranges of a request for messages of the mailbox: a sequence opened by consecutive
numbers goes on over consecutive numbers, any other over neighbours of the mailbox. -/
def requestedRangesFrom (uids : List Nat) :
    SequenceKind → Nat → Nat → List Nat → List (Nat × Nat)
  | _, start, current, [] => [(start, current)]
  | .single, start, current, next :: rest =>
    if next = current + 1 then requestedRangesFrom uids .consecutive start next rest
    else if NoneBetween uids current next then requestedRangesFrom uids .neighbours start next rest
    else (start, current) :: requestedRangesFrom uids .single next next rest
  | .consecutive, start, current, next :: rest =>
    if next = current + 1 then requestedRangesFrom uids .consecutive start next rest
    else (start, current) :: requestedRangesFrom uids .single next next rest
  | .neighbours, start, current, next :: rest =>
    if NoneBetween uids current next then requestedRangesFrom uids .neighbours start next rest
    else (start, current) :: requestedRangesFrom uids .single next next rest

def requestedRanges (uids : List Nat) : List Nat → List (Nat × Nat)
  | [] => []
  | first :: rest => requestedRangesFrom uids .single first first rest

/-- The turns of `FolderMsgDumpLoop` from `msgsDownloaded`: the UID sets passed to
`FetchMessage`, or `none` when `fuel` turns do not end the loop. `deathSignalReceived`
answers for each turn. -/
def folderMsgDumpTurns (flagState : Option FlagAndUidState) (msgUids : List Nat)
    (deathSignalReceived : Nat → Bool) : Nat → Nat → Int → Option (List (List Char))
  | 0, _, _ => none
  | fuel + 1, msgsDownloaded, msgCountLeft =>
    let result := allocateImapUidString
      ((msgUids.drop msgsDownloaded).take msgCountLeft.toNat) flagState []
    if msgCountLeft - result.msgCount > 0 ∧ deathSignalReceived msgsDownloaded = false then
      (folderMsgDumpTurns flagState msgUids deathSignalReceived fuel
        (msgsDownloaded + result.msgCount) (msgCountLeft - result.msgCount)).map
        (fun idStrings => result.returnString :: idStrings)
    else some [result.returnString]

/-- `FolderMsgDumpLoop`; `msgCountLeft` is an `int32_t`. -/
def folderMsgDumpLoop (flagState : Option FlagAndUidState) (msgUids : List Nat)
    (deathSignalReceived : Nat → Bool) (fuel : Nat) : Option (List (List Char)) :=
  folderMsgDumpTurns flagState msgUids deathSignalReceived fuel 0
    (Int.bmod msgUids.length (2 ^ 32))

variable {known : FlagAndUidState}

private lemma neighbour_iff_noneBetween (sortedState : known.Sorted)
    {position current next : Nat} (here : known.fUids[position]? = some current)
    (mem : next ∈ known.fUids) (later : current < next) :
    known.fUids[position + 1]? = some next ↔ NoneBetween known.fUids current next := by
  constructor
  · intro neighbour uid present above
    refine no_uid_between sortedState neighbour ?_ present above
    intro entry found
    rw [here, Option.some.injEq] at found
    exact Nat.le_of_eq found.symm
  · intro none
    obtain ⟨other, inside, rfl⟩ := mem_iff_getElem.mp mem
    obtain ⟨start, rfl⟩ := List.getElem?_eq_some_iff.mp here
    have increasing := pairwise_iff_getElem.mp sortedState
    have after : position < other := by
      by_contra before
      rcases Nat.lt_or_eq_of_le (Nat.le_of_not_lt before) with less | same
      · have smaller := increasing other position inside start less
        omega
      · subst same
        exact Nat.lt_irrefl _ later
    rcases Nat.lt_or_eq_of_le (Nat.succ_le_of_lt after) with beyond | same
    · have here' := increasing position (position + 1) start (by omega) (Nat.lt_succ_self _)
      have there := increasing (position + 1) other (by omega) inside beyond
      have bound := none known.fUids[position + 1] (getElem_mem _) here'
      omega
    · subst same
      exact getElem?_eq_getElem inside

/-- What the locals say about the kind of the current sequence, whose last key is at
position `place` of the flag state. -/
def KindHolds (place : Nat) (state : UidStringState) : SequenceKind → Prop
  | .single => state.curFlagStateIndex = -1
  | .consecutive => 0 ≤ state.curFlagStateIndex ∧ state.curFlagStateIndex + 1 ≤ place
  | .neighbours => state.curFlagStateIndex = place

private lemma requestedRangesFrom_nil (uids : List Nat) (kind : SequenceKind)
    (start current : Nat) : requestedRangesFrom uids kind start current [] = [(start, current)] := by
  cases kind with
  | single => rfl
  | consecutive => rfl
  | neighbours => rfl

private lemma requestedRangesFrom_ne_nil (uids : List Nat) (kind : SequenceKind)
    (start current : Nat) (rest : List Nat) :
    requestedRangesFrom uids kind start current rest ≠ [] := by
  induction rest generalizing kind start current with
  | nil =>
    rw [requestedRangesFrom_nil]
    exact cons_ne_nil _ _
  | cons next rest ih =>
    cases kind with
    | single =>
      simp only [requestedRangesFrom]
      split
      · exact ih _ _ _
      · split
        · exact ih _ _ _
        · exact cons_ne_nil _ _
    | consecutive | neighbours =>
      simp only [requestedRangesFrom]
      split
      · exact ih _ _ _
      · exact cons_ne_nil _ _

/-- A key that the loop compares and finds apart opens a new requested range. -/
private theorem requestedRangesFrom_separate (sortedState : known.Sorted) {current next place : Nat}
    (here : known.fUids[place]? = some current) (mem : next ∈ known.fUids) (later : current < next)
    (holds : KindHolds place state kind) (separate : Separate (some known) current next state)
    (start : Nat) :
    requestedRangesFrom known.fUids kind start current (next :: rest) =
      (start, current) :: requestedRangesFrom known.fUids .single next next rest := by
  have between : kind ≠ .consecutive → ¬ NoneBetween known.fUids current next := by
    intro other
    rw [← neighbour_iff_noneBetween sortedState here mem later]
    refine separate.2 known place rfl ?_
    cases kind with
    | single => exact .inr ⟨holds, here⟩
    | consecutive => exact absurd rfl other
    | neighbours => exact .inl holds
  cases kind with
  | single => simp [requestedRangesFrom, separate.1, between]
  | consecutive => simp [requestedRangesFrom, separate.1]
  | neighbours => simp [requestedRangesFrom, between]

private lemma rangesText_cons_ne_nil (range : Nat × Nat) (ranges : List (Nat × Nat))
    (nonempty : ranges ≠ []) :
    (rangesText (range :: ranges)).length =
      (rangeToken range).length + 1 + (rangesText ranges).length := by
  obtain ⟨next, rest, rfl⟩ := exists_cons_of_ne_nil nonempty
  rw [rangesText_cons_cons, length_append, length_cons]
  omega

/-- The outcome of the loop from `curKey`, relative to the complete ranges of the request. -/
def CutOrComplete (keyIndex : Nat) (keys : List Nat) (length msgCount : Nat)
    (complete ranges : List (Nat × Nat)) (final : UidStringState) : Prop :=
  (length + (rangesText complete).length ≤ maxUidStringLength ∧
      ranges = complete ∧ final.msgCount = msgCount) ∨
    (maxUidStringLength < length + (rangesText complete).length ∧
      ∃ (index : Nat) (inside : index < keys.length),
        final.msgCount = keyIndex + index ∧ Covered ranges keys[index])

private lemma CutOrComplete.cons {keyIndex length msgCount curKey : Nat} {keys : List Nat}
    {complete ranges : List (Nat × Nat)}
    (outcome : CutOrComplete (keyIndex + 1) keys length msgCount complete ranges final) :
    CutOrComplete keyIndex (curKey :: keys) length msgCount complete ranges final := by
  rcases outcome with short | ⟨long, index, inside, count, covered⟩
  · exact .inl short
  · exact .inr ⟨long, index + 1, Nat.succ_lt_succ inside, by omega, covered⟩

/-- The string is cut off exactly when the complete text is too long, and then right
after the token of the key that becomes the new `msgCount`. -/
theorem UidRun.requestedRanges {ranges : List (Nat × Nat)}
    (run : UidRun (some known) keyIndex curKey rest state ranges final) (sortedState : known.Sorted)
    (keys : UidArray (curKey :: rest)) (coherent : Coherent curKey state)
    (present : ∀ uid ∈ curKey :: rest, uid ∈ known.fUids) (here : known.fUids[place]? = some curKey)
    (holds : KindHolds place state kind) :
    CutOrComplete keyIndex (curKey :: rest) state.returnString.length state.msgCount
      (requestedRangesFrom known.fUids kind state.startSequence curKey rest) ranges final := by
  induction run generalizing kind place with
  | @joinConsecutive keyIndex curKey rest state final ranges _ run ih =>
    have index := coherent.index
    have next := coherent_joined coherent keys.lt (by omega : 0 ≤ state.curFlagStateIndex + 1)
    have present' : ∀ uid ∈ (curKey + 1) :: rest, uid ∈ known.fUids :=
      fun uid mem => present uid (mem_cons_of_mem _ mem)
    have none : NoneBetween known.fUids curKey (curKey + 1) := fun uid _ above => above
    have here' := (neighbour_iff_noneBetween sortedState here
      (present' _ (mem_cons_self ..)) keys.lt).mpr none
    cases kind with
    | single | consecutive =>
      have opened : KindHolds (place + 1)
          (joined (curKey + 1) (state.curFlagStateIndex + 1) state) .consecutive := by
        simp only [KindHolds, joined] at holds ⊢
        omega
      have step := ih keys.tail next present' here' opened
      simpa only [requestedRangesFrom, if_true, joined] using step.cons
    | neighbours =>
      have opened : KindHolds (place + 1)
          (joined (curKey + 1) (state.curFlagStateIndex + 1) state) .neighbours := by
        simp only [KindHolds, joined] at holds ⊢
        omega
      have step := ih keys.tail next present' here' opened
      simpa only [requestedRangesFrom, if_pos none, joined] using step.cons
  | @joinNeighbour keyIndex curKey nextKey position rest state final ranges other same apart
      compares neighbour _ run ih =>
    cases same
    have next := coherent_joined coherent keys.lt (by omega : (0 : Int) ≤ position + 1)
    have present' : ∀ uid ∈ nextKey :: rest, uid ∈ known.fUids :=
      fun uid mem => present uid (mem_cons_of_mem _ mem)
    have opened : KindHolds (position + 1) (joined nextKey (position + 1) state) .neighbours := by
      simp only [KindHolds, joined]
      omega
    have step := ih keys.tail next present' neighbour opened
    have between : known.fUids[position]? = some curKey →
        NoneBetween known.fUids curKey nextKey := fun found =>
      (neighbour_iff_noneBetween sortedState found (present' _ (mem_cons_self ..))
        keys.lt).mp neighbour
    cases kind with
    | single =>
      have placed : known.fUids[position]? = some curKey := by
        rcases compares with set | ⟨_, found⟩
        · simp only [KindHolds] at holds
          omega
        · exact found
      simpa only [requestedRangesFrom, if_neg apart, if_pos (between placed), joined] using
        step.cons
    | consecutive =>
      -- the counted index is too small: the next key lies behind `curKey` in the flag state
      simp only [KindHolds] at holds
      rcases compares with set | ⟨unset, _⟩
      · obtain ⟨inside, last⟩ := List.getElem?_eq_some_iff.mp here
        obtain ⟨inside', following⟩ := List.getElem?_eq_some_iff.mp neighbour
        have later := keys.lt
        have ordered : known.fUids[position + 1] ≤ known.fUids[place] := by
          rcases Nat.lt_or_eq_of_le (by omega : position + 1 ≤ place) with less | same
          · exact Nat.le_of_lt
              (pairwise_iff_getElem.mp sortedState _ _ inside' inside less)
          · subst same
            exact Nat.le_refl _
        omega
      · omega
    | neighbours =>
      have placed : known.fUids[position]? = some curKey := by
        rcases compares with set | ⟨_, found⟩
        · simp only [KindHolds] at holds
          obtain rfl : position = place := by omega
          exact here
        · exact found
      simpa only [requestedRangesFrom, if_pos (between placed), joined] using step.cons
  | skip usable _ _ missing _ _ _ =>
    cases usable
    exact absurd (present _ (mem_cons_self ..)) missing
  | @emit keyIndex curKey nextKey rest state final ranges separate short _ run ih =>
    have present' : ∀ uid ∈ nextKey :: rest, uid ∈ known.fUids :=
      fun uid mem => present uid (mem_cons_of_mem _ mem)
    obtain ⟨place', inside, found⟩ := mem_iff_getElem.mp (present' nextKey (mem_cons_self ..))
    have here' : known.fUids[place']? = some nextKey :=
      List.getElem?_eq_some_iff.mpr ⟨inside, found⟩
    have fresh : KindHolds place'
        (restarted nextKey (emittedText curKey state ++ [',']) state) .single := rfl
    have step := ih keys.tail (coherent_restarted ..) present' here' fresh
    rw [requestedRangesFrom_separate sortedState here (present' nextKey (mem_cons_self ..))
      keys.lt holds separate]
    have length := rangesText_cons_ne_nil (state.startSequence, curKey) _
      (requestedRangesFrom_ne_nil known.fUids .single nextKey nextKey rest)
    simp only [CutOrComplete, restarted, emittedText, length_append, length_cons,
      length_nil] at step
    rw [CutOrComplete, length]
    rcases step with ⟨fits, same, count⟩ | ⟨long, index, inside, count, covered⟩
    · exact .inl ⟨by omega, by rw [same], count⟩
    · refine .inr ⟨by omega, index + 1, Nat.succ_lt_succ inside, by omega, ?_⟩
      exact (covered_cons ..).mpr (.inr covered)
  | last short =>
    left
    have bound := short rfl
    rw [emittedText, length_append] at bound
    rw [requestedRangesFrom_nil]
    exact ⟨bound, rfl, rfl⟩
  | @cut keyIndex curKey rest state separate _ long _ =>
    right
    rw [emittedText, length_append] at long
    refine ⟨?_, 0, Nat.succ_pos _, rfl, (covered_cons ..).mpr (.inl ⟨coherent.starts, Nat.le_refl _⟩)⟩
    cases rest with
    | nil =>
      rw [requestedRangesFrom_nil]
      exact long
    | cons nextKey rest =>
      rw [requestedRangesFrom_separate sortedState here
        (present nextKey (mem_cons_of_mem _ (mem_cons_self ..))) keys.lt holds
        (separate nextKey rfl), rangesText_cons_ne_nil _ _ (requestedRangesFrom_ne_nil _ _ _ _ _)]
      omega

private lemma allocate_present (full : known.fPartialUIDFetch = false)
    (sortedState : known.Sorted) (keys : UidArray (curKey :: rest))
    (present : ∀ uid ∈ curKey :: rest, uid ∈ known.fUids) :
    ∃ ranges,
      parseUidString
        (allocateImapUidString (curKey :: rest) (some known) []).returnString =
          some (ranges.flatMap expandRange) ∧
      (∀ (index : Nat) (inside : index < (curKey :: rest).length),
        index < (allocateImapUidString (curKey :: rest) (some known) []).msgCount →
          Covered ranges (curKey :: rest)[index]) ∧
      Covered ranges curKey ∧
      CutOrComplete 0 (curKey :: rest) 0 (curKey :: rest).length
        (requestedRanges known.fUids (curKey :: rest)) ranges
        (allocateImapUidString (curKey :: rest) (some known) []) := by
  have coherent := coherent_startState (curKey :: rest) []
  obtain ⟨ranges, run⟩ := exists_uidRun (some known)
    (fun other same => Option.some.inj same ▸ sortedState) 0 curKey rest
    (startState (curKey :: rest) []) keys coherent
  obtain ⟨place, inside, found⟩ := mem_iff_getElem.mp (present curKey (mem_cons_self ..))
  have here : known.fUids[place]? = some curKey := List.getElem?_eq_some_iff.mpr ⟨inside, found⟩
  have single : KindHolds place (startState (curKey :: rest) []) .single := rfl
  rw [allocateImapUidString, usableFlagState_of_full full]
  refine ⟨ranges, ?_, ?_, ?_, run.requestedRanges sortedState keys coherent present here single⟩
  · rw [run.text]
    refine parseUidString_rangesText ranges (fun range mem => ?_)
    obtain ⟨ordered, bounded⟩ := run.wellFormed keys coherent range mem
    exact ⟨ordered, Nat.lt_trans bounded (by decide)⟩
  · intro index inside before
    refine run.covers_requested keys coherent index inside (by omega) ?_
    intro other same
    exact Option.some.inj same ▸ present _ (getElem_mem inside)
  · refine run.covers_current keys coherent ?_ (Nat.le_refl _) (Nat.le_refl _)
    intro other same
    exact Option.some.inj same ▸ present curKey (mem_cons_self ..)

/-- The UID sets of the `FetchMessage` calls, relative to the requested messages. -/
structure FetchesOnce (msgUids : List Nat) (batches : List (List Nat)) : Prop where
  disjoint : batches.Pairwise
    (fun earlier later => ∀ uid ∈ msgUids, uid ∈ earlier → uid ∉ later)
  complete : ∀ uid ∈ msgUids, ∃ batch ∈ batches, uid ∈ batch

/-- The loop ends, and its calls fetch each requested message once. -/
def DumpsOnce (known : FlagAndUidState) (msgUids : List Nat) : Prop :=
  ∃ fuel idStrings batches,
    folderMsgDumpLoop (some known) msgUids (fun _ => false) fuel = some idStrings ∧
      idStrings.mapM parseUidString = some batches ∧ FetchesOnce msgUids batches

/-- Messages of a mailbox fit into the `int32_t` of the loop. -/
private theorem length_le_room (keys : UidArray msgUids)
    (present : ∀ uid ∈ msgUids, uid ∈ known.fUids) : msgUids.length ≤ maxUids := by
  have distinct : msgUids.Nodup := keys.sorted.imp Nat.ne_of_lt
  exact Nat.le_trans (distinct.subperm present).length_le known.room

private lemma bmod_length {msgUids : List Nat} (room : msgUids.length ≤ maxUids) :
    Int.bmod msgUids.length (2 ^ 32) = msgUids.length := by
  simp only [maxUids] at room
  refine Int.bmod_eq_of_le ?_ ?_ <;> omega

private lemma turn_eq (msgUids : List Nat) (fuel downloaded : Nat) (left : Int) :
    folderMsgDumpTurns (some known) msgUids (fun _ => false) (fuel + 1) downloaded left =
      let result := allocateImapUidString ((msgUids.drop downloaded).take left.toNat)
        (some known) []
      if left - result.msgCount > 0 then
        (folderMsgDumpTurns (some known) msgUids (fun _ => false) fuel
          (downloaded + result.msgCount) (left - result.msgCount)).map
          (fun idStrings => result.returnString :: idStrings)
      else some [result.returnString] := by
  simp only [folderMsgDumpTurns, and_true]

section

variable (full : known.fPartialUIDFetch = false) (sortedState : known.Sorted) (msgUids : List Nat)
  (keys : UidArray msgUids) (present : ∀ uid ∈ msgUids, uid ∈ known.fUids)
include full sortedState msgUids keys present

private theorem dumpsOnce_of_short
    (short : (rangesText (requestedRanges known.fUids msgUids)).length ≤ maxUidStringLength) :
    DumpsOnce known msgUids := by
  have count := bmod_length (length_le_room keys present)
  cases msgUids with
  | nil => exact ⟨1, [[]], [[]], rfl, rfl, pairwise_singleton .., by simp⟩
  | cons curKey rest =>
    obtain ⟨ranges, parsed, requested, _, outcome⟩ := allocate_present full sortedState keys present
    rcases outcome with ⟨_, _, whole⟩ | ⟨long, _⟩
    · refine ⟨1, [(allocateImapUidString (curKey :: rest) (some known) []).returnString],
        [ranges.flatMap expandRange], ?_, ?_, ?_⟩
      · rw [folderMsgDumpLoop, count, turn_eq]
        simp [whole]
      · simp [parsed]
      · refine ⟨pairwise_singleton .., ?_⟩
        intro uid mem
        obtain ⟨index, inside, rfl⟩ := mem_iff_getElem.mp mem
        exact ⟨_, mem_singleton.mpr rfl, (mem_flatMap_expandRange ranges _).mpr
          (requested index inside (by rw [whole]; exact inside))⟩
    · omega

/-- A longer text is cut off after a token, and the next batch starts with that token's
key again. -/
private theorem not_dumpsOnce_of_long
    (long : maxUidStringLength < (rangesText (requestedRanges known.fUids msgUids)).length) :
    ¬ DumpsOnce known msgUids := by
  have count := bmod_length (length_le_room keys present)
  cases msgUids with
  | nil => simp [requestedRanges, rangesText] at long
  | cons curKey rest =>
    rintro ⟨fuel, idStrings, batches, run, read, once⟩
    obtain ⟨ranges, parsed, _, _, outcome⟩ := allocate_present full sortedState keys present
    rcases outcome with ⟨short, _⟩ | ⟨_, index, inside, cutOff, covered⟩
    · omega
    · rw [Nat.zero_add] at cutOff
      -- the second batch is the request from the key at the cut-off on
      have keys' := keys.drop index
      have present' : ∀ uid ∈ (curKey :: rest).drop index, uid ∈ known.fUids :=
        fun uid mem => present uid (mem_of_mem_drop mem)
      rw [drop_eq_getElem_cons inside] at keys' present'
      obtain ⟨ranges', parsed', _, first, _⟩ := allocate_present full sortedState keys' present'
      obtain ⟨others, rfl⟩ : ∃ others, idStrings =
          (allocateImapUidString (curKey :: rest) (some known) []).returnString ::
          (allocateImapUidString ((curKey :: rest)[index] :: (curKey :: rest).drop (index + 1))
            (some known) []).returnString :: others := by
        have more : ((curKey :: rest).length : Int) - (index : Nat) > 0 := by omega
        have left : (((curKey :: rest).length : Int) - (index : Nat)).toNat =
            ((curKey :: rest).drop index).length := by
          rw [length_drop]
          omega
        cases fuel with
        | zero => cases run
        | succ fuel =>
          rw [folderMsgDumpLoop, count, turn_eq] at run
          simp only [drop_zero, Int.toNat_natCast, take_length, cutOff, if_pos more,
            Option.map_eq_some_iff] at run
          obtain ⟨later, run, rfl⟩ := run
          cases fuel with
          | zero => cases run
          | succ fuel =>
            rw [turn_eq] at run
            simp only [Nat.zero_add, left, take_length, drop_eq_getElem_cons inside] at run
            split at run
            · rw [Option.map_eq_some_iff] at run
              obtain ⟨others, _, rfl⟩ := run
              exact ⟨others, rfl⟩
            · rw [Option.some.injEq] at run
              subst run
              exact ⟨[], rfl⟩
      rw [mapM_cons, mapM_cons, parsed, parsed'] at read
      obtain ⟨tail, rfl⟩ : ∃ tail, batches =
          ranges.flatMap expandRange :: ranges'.flatMap expandRange :: tail := by
        cases rest' : others.mapM parseUidString with
        | none => simp [rest'] at read
        | some tail => exact ⟨tail, by simpa [rest'] using read.symm⟩
      have apart := rel_of_pairwise_cons once.disjoint (mem_cons_self ..)
      exact apart _ (getElem_mem inside) ((mem_flatMap_expandRange ..).mpr covered)
        ((mem_flatMap_expandRange ..).mpr first)

end

/-- `FolderMsgDumpLoop` fetches every requested message once exactly when the complete
UID set of the request stays within the length limit. -/
theorem folderMsgDumpLoop_dumpsOnce_iff (known : FlagAndUidState)
    (full : known.fPartialUIDFetch = false) (sortedState : known.Sorted)
    (msgUids : List Nat) (keys : UidArray msgUids)
    (present : ∀ uid ∈ msgUids, uid ∈ known.fUids) :
    DumpsOnce known msgUids ↔
      (rangesText (requestedRanges known.fUids msgUids)).length ≤ maxUidStringLength := by
  constructor
  · intro dumps
    by_contra long
    exact not_dumpsOnce_of_long full sortedState msgUids keys present
      (Nat.lt_of_not_le long) dumps
  · exact dumpsOnce_of_short full sortedState msgUids keys present

/-- A mailbox with the 174 messages from 4000000000 on. -/
def largeMailbox : FlagAndUidState where
  fUids := List.range' 4000000000 174
  fFlags := List.replicate 174 0
  fNumberDeleted := 0
  fPartialUIDFetch := false
  fNumAdded := 0
  fStartCapture := false
  room := by simp [maxUids]

/-- Every second message of `largeMailbox`: 87 UIDs of ten digits. -/
def everySecond : List Nat := (List.range 87).map (fun index => 4000000000 + 2 * index)

/-- The text of `everySecond` has 956 characters, so its last message is fetched twice. -/
theorem folderMsgDumpLoop_fetches_twice :
    (∀ uid ∈ everySecond, uid ∈ largeMailbox.fUids) ∧ ¬ DumpsOnce largeMailbox everySecond := by
  have present : ∀ uid ∈ everySecond, uid ∈ largeMailbox.fUids := by
    intro uid mem
    simp only [everySecond, mem_map, mem_range] at mem
    obtain ⟨index, inside, rfl⟩ := mem
    simp only [largeMailbox, mem_range'_1]
    omega
  have sortedState : largeMailbox.Sorted := pairwise_lt_range' ..
  refine ⟨present, not_dumpsOnce_of_long rfl sortedState everySecond ?_ present ?_⟩
  · refine ⟨?_, ?_⟩
    · refine List.Pairwise.map _ ?_ pairwise_lt_range
      intro lower upper less
      omega
    · intro uid mem
      have inside := present uid mem
      simp only [largeMailbox, mem_range'_1, msgKeyNone] at inside ⊢
      omega
  · decide +kernel

/-- The equivalence for both messages of a small mailbox. -/
theorem folderMsgDumpLoop_dumpsOnce_iff_sevenEight :
    DumpsOnce sevenEight [7, 8] ↔
      (rangesText (requestedRanges sevenEight.fUids [7, 8])).length ≤ maxUidStringLength :=
  folderMsgDumpLoop_dumpsOnce_iff sevenEight rfl (by unfold FlagAndUidState.Sorted; decide)
    [7, 8] ⟨by decide, by decide⟩ (by decide)

end CommCentral.Imap
