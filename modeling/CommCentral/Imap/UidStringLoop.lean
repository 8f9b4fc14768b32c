import CommCentral.Imap.UidString

/-! The loop of `AllocateImapUidString` as a derivation: which keys it joins, which it
skips and where it emits a range. -/
namespace CommCentral.Imap
open Lib List

/-- What holds of the locals whenever the loop looks at `curKey`. -/
structure Coherent (curKey : Nat) (state : UidStringState) : Prop where
  ends : state.curSequenceEnd = curKey
  starts : state.startSequence ≤ curKey
  index : -1 ≤ state.curFlagStateIndex
  single : state.curFlagStateIndex = -1 → state.startSequence = curKey

/-- `position` is the index the next comparison with the flag state starts from. -/
def ComparesFrom (known : FlagAndUidState) (curKey : Nat) (state : UidStringState)
    (position : Nat) : Prop :=
  state.curFlagStateIndex = position ∨
    (state.curFlagStateIndex = -1 ∧ known.fUids[position]? = some curKey)

/-- The code does not put `nextKey` into the sequence that ends at `curKey`. -/
def Separate (flagState : Option FlagAndUidState) (curKey nextKey : Nat)
    (state : UidStringState) : Prop :=
  nextKey ≠ curKey + 1 ∧
    ∀ known position, flagState = some known → ComparesFrom known curKey state position →
      known.fUids[position + 1]? ≠ some nextKey

/-- The state after `curKey` was joined with the next key. -/
def joined (nextKey : Nat) (index : Int) (state : UidStringState) : UidStringState :=
  { state with curSequenceEnd := nextKey, curFlagStateIndex := index }

/-- The state after the current sequence was dropped or emitted. -/
def restarted (nextKey : Nat) (returnString : List Char) (state : UidStringState) :
    UidStringState :=
  { state with
    startSequence := nextKey
    curSequenceEnd := nextKey
    curFlagStateIndex := -1
    returnString := returnString }

/-- The string with the current sequence appended. -/
def emittedText (curKey : Nat) (state : UidStringState) : List Char :=
  state.returnString ++ rangeToken (state.startSequence, curKey)

/-- A run of the loop from `curKey` and the keys after it: the ranges it emits and the
state it ends in. -/
inductive UidRun (flagState : Option FlagAndUidState) :
    Nat → Nat → List Nat → UidStringState → List (Nat × Nat) → UidStringState → Prop where
  | joinConsecutive {keyIndex curKey : Nat} {rest : List Nat} {state final : UidStringState}
      {ranges : List (Nat × Nat)} :
      allocateStep flagState keyIndex curKey (curKey + 1) state =
        .next (joined (curKey + 1) (state.curFlagStateIndex + 1) state) →
      UidRun flagState (keyIndex + 1) (curKey + 1) rest
        (joined (curKey + 1) (state.curFlagStateIndex + 1) state) ranges final →
      UidRun flagState keyIndex curKey ((curKey + 1) :: rest) state ranges final
  | joinNeighbour {keyIndex curKey nextKey position : Nat} {rest : List Nat}
      {state final : UidStringState} {ranges : List (Nat × Nat)} {known : FlagAndUidState} :
      flagState = some known → nextKey ≠ curKey + 1 → ComparesFrom known curKey state position →
      known.fUids[position + 1]? = some nextKey →
      allocateStep flagState keyIndex curKey nextKey state =
        .next (joined nextKey (position + 1) state) →
      UidRun flagState (keyIndex + 1) nextKey rest
        (joined nextKey (position + 1) state) ranges final →
      UidRun flagState keyIndex curKey (nextKey :: rest) state ranges final
  | skip {keyIndex curKey nextKey : Nat} {rest : List Nat} {state final : UidStringState}
      {ranges : List (Nat × Nat)} {known : FlagAndUidState} :
      flagState = some known → nextKey ≠ curKey + 1 → state.curFlagStateIndex = -1 →
      curKey ∉ known.fUids →
      allocateStep flagState keyIndex curKey nextKey state =
        .next (restarted nextKey state.returnString state) →
      UidRun flagState (keyIndex + 1) nextKey rest
        (restarted nextKey state.returnString state) ranges final →
      UidRun flagState keyIndex curKey (nextKey :: rest) state ranges final
  | emit {keyIndex curKey nextKey : Nat} {rest : List Nat} {state final : UidStringState}
      {ranges : List (Nat × Nat)} :
      Separate flagState curKey nextKey state →
      (flagState.isSome → (emittedText curKey state).length ≤ maxUidStringLength) →
      allocateStep flagState keyIndex curKey nextKey state =
        .next (restarted nextKey (emittedText curKey state ++ [',']) state) →
      UidRun flagState (keyIndex + 1) nextKey rest
        (restarted nextKey (emittedText curKey state ++ [',']) state) ranges final →
      UidRun flagState keyIndex curKey (nextKey :: rest) state
        ((state.startSequence, curKey) :: ranges) final
  | last {keyIndex curKey : Nat} {state : UidStringState} :
      (flagState.isSome → (emittedText curKey state).length ≤ maxUidStringLength) →
      allocateStep flagState keyIndex curKey msgKeyNone state =
        .next (restarted msgKeyNone (emittedText curKey state) state) →
      UidRun flagState keyIndex curKey [] state [(state.startSequence, curKey)]
        (restarted msgKeyNone (emittedText curKey state) state)
  | cut {keyIndex curKey : Nat} {rest : List Nat} {state : UidStringState} :
      (∀ nextKey, rest.head? = some nextKey → Separate flagState curKey nextKey state) →
      flagState.isSome → maxUidStringLength < (emittedText curKey state).length →
      allocateStep flagState keyIndex curKey (rest.headD msgKeyNone) state =
        .stop { restarted (rest.headD msgKeyNone) (emittedText curKey state) state with
          msgCount := keyIndex } →
      UidRun flagState keyIndex curKey rest state [(state.startSequence, curKey)]
        { restarted (rest.headD msgKeyNone) (emittedText curKey state) state with
          msgCount := keyIndex }

private lemma emitSequence_eq (flagState : Option FlagAndUidState)
    (keyIndex curKey nextKey : Nat) (state : UidStringState)
    (ends : state.curSequenceEnd = curKey) :
    emitSequence flagState keyIndex curKey nextKey state =
      if flagState.isSome ∧ (emittedText curKey state).length > maxUidStringLength then
        .stop { restarted nextKey (emittedText curKey state) state with msgCount := keyIndex }
      else if nextKey = msgKeyNone then .next (restarted nextKey (emittedText curKey state) state)
      else .next (restarted nextKey (emittedText curKey state ++ [',']) state) := by
  subst ends
  rfl

lemma coherent_joined (coherent : Coherent curKey state) (later : curKey < nextKey)
    (positive : 0 ≤ index) : Coherent nextKey (joined nextKey index state) := by
  refine ⟨rfl, ?_, ?_, ?_⟩
  · exact Nat.le_trans coherent.starts (Nat.le_of_lt later)
  · simp only [joined]
    omega
  · intro fresh
    simp only [joined] at fresh
    omega

lemma coherent_restarted (nextKey : Nat) (returnString) (state) :
    Coherent nextKey (restarted nextKey returnString state) :=
  ⟨rfl, Nat.le_refl _, by simp [restarted], fun _ => rfl⟩

private lemma extendByFlagState_eq (known : FlagAndUidState)
    (keyIndex curKey nextKey position : Nat) (state : UidStringState)
    (ends : state.curSequenceEnd = curKey) (real : nextKey ≠ msgKeyNone) :
    extendByFlagState known keyIndex curKey nextKey
        { state with curFlagStateIndex := position } =
      if known.fUids[position + 1]? = some nextKey then
        .next (joined nextKey (position + 1) state)
      else emitSequence (some known) keyIndex curKey nextKey state := by
  have read := known.getUidOfMessage_eq_iff (position + 1) nextKey real
  rw [Int.natCast_add, Int.natCast_one] at read
  simp only [extendByFlagState, read]
  split
  · rfl
  · rw [emitSequence_eq _ _ _ _ _ (by exact ends), emitSequence_eq _ _ _ _ _ ends]
    rfl

/-- What one iteration does when `nextKey` is a real key: the first four constructors of
`UidRun` and the cut-off. -/
private theorem allocateStep_cases (flagState : Option FlagAndUidState)
    (sortedState : ∀ known, flagState = some known → known.Sorted)
    (keyIndex curKey nextKey : Nat) (state : UidStringState) (coherent : Coherent curKey state)
    (real : nextKey ≠ msgKeyNone) :
    (nextKey = curKey + 1 ∧ allocateStep flagState keyIndex curKey nextKey state =
        .next (joined nextKey (state.curFlagStateIndex + 1) state)) ∨
    (nextKey ≠ curKey + 1 ∧ ∃ known position, flagState = some known ∧
      ComparesFrom known curKey state position ∧
      known.fUids[position + 1]? = some nextKey ∧
      allocateStep flagState keyIndex curKey nextKey state =
        .next (joined nextKey (position + 1) state)) ∨
    (nextKey ≠ curKey + 1 ∧ ∃ known, flagState = some known ∧ state.curFlagStateIndex = -1 ∧
      curKey ∉ known.fUids ∧ allocateStep flagState keyIndex curKey nextKey state =
        .next (restarted nextKey state.returnString state)) ∨
    (Separate flagState curKey nextKey state ∧
      allocateStep flagState keyIndex curKey nextKey state =
        if flagState.isSome ∧ (emittedText curKey state).length > maxUidStringLength then
          .stop { restarted nextKey (emittedText curKey state) state with msgCount := keyIndex }
        else .next (restarted nextKey (emittedText curKey state ++ [',']) state)) := by
  have ends := coherent.ends
  have real' : ¬ nextKey = msgKeyNone := real
  have stops := emitSequence_eq flagState keyIndex curKey nextKey state ends
  simp only [if_neg real'] at stops
  by_cases consecutive : nextKey = curKey + 1
  · left
    refine ⟨consecutive, ?_⟩
    unfold allocateStep
    rw [if_neg real', if_pos (by rw [ends]; exact consecutive)]
    rfl
  · right
    have unequal : ¬ nextKey = state.curSequenceEnd + 1 := by rw [ends]; exact consecutive
    cases flagState with
    | none =>
      right; right
      refine ⟨⟨consecutive, by simp⟩, ?_⟩
      simp only [allocateStep, if_neg real', if_neg unequal]
      exact stops
    | some known =>
      have sorted := sortedState known rfl
      -- the position the comparison starts from, or a key the flag state does not have
      have source : (∃ position, ComparesFrom known curKey state position ∧
          allocateStep (some known) keyIndex curKey nextKey state =
            extendByFlagState known keyIndex curKey nextKey
              { state with curFlagStateIndex := position }) ∨
          (state.curFlagStateIndex = -1 ∧ curKey ∉ known.fUids ∧
            allocateStep (some known) keyIndex curKey nextKey state =
              .next (restarted nextKey state.returnString state)) := by
        by_cases unset : state.curFlagStateIndex = -1
        · rcases known.lookup_cases sorted curKey with ⟨position, present, found, ndx⟩ |
            ⟨missing, notFound⟩
          · left
            refine ⟨position, .inr ⟨unset, present⟩, ?_⟩
            simp only [allocateStep, if_neg real', if_neg consecutive, if_pos unset, ends, found, ndx,
              if_true]
          · right
            refine ⟨unset, missing, ?_⟩
            simp only [allocateStep, if_neg real', if_neg consecutive, if_pos unset, ends, notFound,
              Bool.false_eq_true, if_false]
            rfl
        · left
          have index := coherent.index
          refine ⟨state.curFlagStateIndex.toNat, .inl (by omega), ?_⟩
          have same : ((state.curFlagStateIndex.toNat : Nat) : Int) = state.curFlagStateIndex := by
            omega
          simp only [allocateStep, if_neg real', if_neg unequal, if_neg unset, same]
      rcases source with ⟨position, compares, step⟩ | ⟨unset, missing, step⟩
      · rw [extendByFlagState_eq known keyIndex curKey nextKey position state ends real] at step
        by_cases neighbour : known.fUids[position + 1]? = some nextKey
        · left
          rw [if_pos neighbour] at step
          exact ⟨consecutive, known, position, rfl, compares, neighbour, step⟩
        · right; right
          rw [if_neg neighbour, stops] at step
          refine ⟨⟨consecutive, ?_⟩, step⟩
          intro other otherPosition same otherCompares
          cases same
          have equal : otherPosition = position := by
            rcases compares with set | ⟨unset, present⟩ <;>
              rcases otherCompares with otherSet | ⟨otherUnset, otherPresent⟩
            · omega
            · omega
            · omega
            · exact known.position_unique sorted otherPresent present
          rw [equal]
          exact neighbour
      · right; left
        exact ⟨consecutive, known, rfl, unset, missing, step⟩

/-- The keys the loop runs over: increasing and below the sentinel. -/
structure UidArray (msgUids : List Nat) : Prop where
  sorted : msgUids.Pairwise (· < ·)
  bounded : ∀ uid ∈ msgUids, uid < msgKeyNone

lemma UidArray.tail (keys : UidArray (uid :: rest)) : UidArray rest :=
  ⟨keys.sorted.of_cons, fun other mem => keys.bounded other (mem_cons_of_mem uid mem)⟩

lemma UidArray.drop (keys : UidArray msgUids) (count : Nat) : UidArray (msgUids.drop count) :=
  ⟨keys.sorted.drop, fun other mem => keys.bounded other (mem_of_mem_drop mem)⟩

lemma UidArray.lt {uid next : Nat} (keys : UidArray (uid :: next :: rest)) : uid < next :=
  rel_of_pairwise_cons keys.sorted (mem_cons_self ..)

lemma UidArray.real (keys : UidArray (uid :: rest)) : uid ≠ msgKeyNone :=
  Nat.ne_of_lt (keys.bounded uid (mem_cons_self ..))

/-- Every execution of the loop is a derivation. -/
theorem exists_uidRun (flagState : Option FlagAndUidState)
    (sortedState : ∀ known, flagState = some known → known.Sorted)
    (keyIndex curKey : Nat) (rest : List Nat) (state : UidStringState)
    (keys : UidArray (curKey :: rest)) (coherent : Coherent curKey state) :
    ∃ ranges, UidRun flagState keyIndex curKey rest state ranges
      (allocateLoop flagState keyIndex (curKey :: rest) state) := by
  induction rest generalizing keyIndex curKey state with
  | nil =>
    have ends : ({ state with curSequenceEnd := curKey } : UidStringState).curSequenceEnd = curKey :=
      rfl
    have step : allocateStep flagState keyIndex curKey msgKeyNone state =
        if flagState.isSome ∧ (emittedText curKey state).length > maxUidStringLength then
          .stop { restarted msgKeyNone (emittedText curKey state) state with msgCount := keyIndex }
        else .next (restarted msgKeyNone (emittedText curKey state) state) := by
      unfold allocateStep
      rw [if_pos rfl, emitSequence_eq flagState keyIndex curKey msgKeyNone _ ends, if_pos rfl]
      rfl
    by_cases long : flagState.isSome ∧ (emittedText curKey state).length > maxUidStringLength
    · rw [if_pos long] at step
      refine ⟨[(state.startSequence, curKey)], ?_⟩
      simp only [allocateLoop, headD_nil, step]
      exact UidRun.cut (by simp) long.1 long.2 step
    · rw [if_neg long] at step
      refine ⟨[(state.startSequence, curKey)], ?_⟩
      simp only [allocateLoop, headD_nil, step]
      refine UidRun.last ?_ step
      intro present
      exact Nat.le_of_not_lt (fun above => long ⟨present, above⟩)
  | cons nextKey rest ih =>
    have later := keys.lt
    have real := keys.tail.real
    have follow : ∀ (continued : UidStringState), Coherent nextKey continued →
        allocateStep flagState keyIndex curKey nextKey state = .next continued →
        ∃ ranges, UidRun flagState (keyIndex + 1) nextKey rest continued ranges
          (allocateLoop flagState keyIndex (curKey :: nextKey :: rest) state) := by
      intro continued coherent' step
      rw [allocateLoop, headD_cons, step]
      exact ih (keyIndex + 1) nextKey continued keys.tail coherent'
    rcases allocateStep_cases flagState sortedState keyIndex curKey nextKey state coherent real with
      ⟨consecutive, step⟩ | ⟨apart, known, position, usable, compares, neighbour, step⟩ |
      ⟨apart, known, usable, unset, missing, step⟩ | ⟨separate, step⟩
    · subst consecutive
      have index := coherent.index
      obtain ⟨ranges, run⟩ := follow _ (coherent_joined coherent later (by omega)) step
      exact ⟨ranges, UidRun.joinConsecutive step run⟩
    · obtain ⟨ranges, run⟩ := follow _ (coherent_joined coherent later (by omega)) step
      exact ⟨ranges, UidRun.joinNeighbour usable apart compares neighbour step run⟩
    · obtain ⟨ranges, run⟩ := follow _ (coherent_restarted ..) step
      exact ⟨ranges, UidRun.skip usable apart unset missing step run⟩
    · by_cases long : flagState.isSome ∧ (emittedText curKey state).length > maxUidStringLength
      · rw [if_pos long] at step
        refine ⟨[(state.startSequence, curKey)], ?_⟩
        simp only [allocateLoop, headD_cons, step]
        refine UidRun.cut ?_ long.1 long.2 step
        intro other same
        cases same
        exact separate
      · rw [if_neg long] at step
        obtain ⟨ranges, run⟩ := follow _ (coherent_restarted ..) step
        refine ⟨_, UidRun.emit separate ?_ step run⟩
        intro present
        exact Nat.le_of_not_lt (fun above => long ⟨present, above⟩)

variable {ranges : List (Nat × Nat)}

section

variable (run : UidRun flagState keyIndex curKey rest state ranges final)
include run

lemma UidRun.nonempty : ranges ≠ [] := by
  induction run with
  | joinConsecutive _ _ ih | joinNeighbour _ _ _ _ _ _ ih | skip _ _ _ _ _ _ ih => exact ih
  | emit | last | cut => exact cons_ne_nil _ _

lemma UidRun.text : final.returnString = state.returnString ++ rangesText ranges := by
  induction run with
  | joinConsecutive _ _ ih | joinNeighbour _ _ _ _ _ _ ih | skip _ _ _ _ _ _ ih => exact ih
  | @emit keyIndex curKey nextKey rest state final ranges _ _ _ run ih =>
    obtain ⟨next, others, rfl⟩ := exists_cons_of_ne_nil run.nonempty
    rw [ih, rangesText_cons_cons]
    simp [restarted, emittedText]
  | last => rfl
  | cut => rfl

lemma UidRun.wellFormed (keys : UidArray (curKey :: rest)) (coherent : Coherent curKey state) :
    ∀ range ∈ ranges, range.1 ≤ range.2 ∧ range.2 < msgKeyNone := by
  induction run with
  | @joinConsecutive keyIndex curKey rest state final ranges _ _ ih =>
    have index := coherent.index
    exact ih keys.tail (coherent_joined coherent keys.lt (by omega))
  | joinNeighbour _ _ _ _ _ _ ih => exact ih keys.tail (coherent_joined coherent keys.lt (by omega))
  | skip _ _ _ _ _ _ ih => exact ih keys.tail (coherent_restarted ..)
  | @emit keyIndex curKey nextKey rest state final ranges _ _ _ run ih =>
    intro range mem
    rcases mem_cons.mp mem with rfl | mem
    · exact ⟨coherent.starts, keys.bounded curKey (mem_cons_self ..)⟩
    · exact ih keys.tail (coherent_restarted ..) range mem
  | @last keyIndex curKey state | @cut keyIndex curKey rest state =>
    intro range mem
    obtain rfl := mem_singleton.mp mem
    exact ⟨coherent.starts, keys.bounded curKey (mem_cons_self ..)⟩

end

/-! ### Without a flag state

The ranges are the maximal runs of the keys, which are read back. -/

/-- The ranges are the maximal runs of consecutive keys. -/
structure MaximalRuns (msgUids : List Nat) (ranges : List (Nat × Nat)) : Prop where
  whole : ranges.flatMap expandRange = msgUids
  ordered : ∀ range ∈ ranges, range.1 ≤ range.2
  apart : ranges.IsChain fun range next => range.2 + 1 < next.1

lemma expandRange_single (uid : Nat) : expandRange (uid, uid) = [uid] := by
  simp [expandRange]

lemma expandRange_succ {first last : Nat} (ordered : first ≤ last) :
    expandRange (first, last + 1) = expandRange (first, last) ++ [last + 1] := by
  have count : last + 1 + 1 - first = last + 1 - first + 1 := by omega
  have end_ : first + (last + 1 - first) = last + 1 := by omega
  simp only [expandRange, count, range'_concat, Nat.one_mul, end_]

/-- Without a flag state the run emits the current sequence with the keys that continue it, and
then the runs of the others. -/
theorem UidRun.maximal (run : UidRun none keyIndex curKey rest state ranges final)
    (keys : UidArray (curKey :: rest)) (coherent : Coherent curKey state) :
    ranges.flatMap expandRange = expandRange (state.startSequence, curKey) ++ rest ∧
      (ranges.IsChain fun range next => range.2 + 1 < next.1) ∧
      ranges.head?.map (·.1) = some state.startSequence := by
  generalize noState : (none : Option FlagAndUidState) = flagState at run
  induction run with
  | @joinConsecutive keyIndex curKey rest state final ranges _ _ ih =>
    have index := coherent.index
    obtain ⟨whole, apart, first⟩ := ih keys.tail (coherent_joined coherent keys.lt (by omega))
    refine ⟨?_, apart, first⟩
    rw [whole]
    change expandRange (state.startSequence, curKey + 1) ++ rest = _
    rw [expandRange_succ coherent.starts, append_assoc]
    rfl
  | joinNeighbour usable | skip usable =>
    exact absurd (noState.trans usable) (Option.some_ne_none _).symm
  | @emit keyIndex curKey nextKey rest state final ranges separate _ _ _ ih =>
    obtain ⟨whole, apart, first⟩ := ih keys.tail (coherent_restarted ..)
    have later := keys.lt
    have gap := separate.1
    refine ⟨?_, ?_, rfl⟩
    · rw [flatMap_cons, whole]
      change _ ++ (expandRange (nextKey, nextKey) ++ rest) = _
      rw [expandRange_single]
      rfl
    · rw [isChain_cons]
      refine ⟨?_, apart⟩
      intro next isNext
      rw [isNext] at first
      have starts : next.1 = nextKey := Option.some.inj first
      rw [starts]
      change curKey + 1 < nextKey
      omega
  | last => exact ⟨by rw [flatMap_singleton, append_nil], isChain_singleton _, rfl⟩
  | cut _ present =>
    rw [← noState] at present
    exact absurd present Bool.false_ne_true

/-- Without a flag state `AllocateImapUidString` writes one token for each maximal run, and
`ParseUidString` appends exactly the keys. -/
theorem allocateImapUidString_inverse (msgUids : List Nat) (keys : UidArray msgUids) :
    ∃ ranges, MaximalRuns msgUids ranges ∧
      (allocateImapUidString msgUids none []).returnString = rangesText ranges ∧
      ∀ found, parseUidLoop ((rangesText ranges).length + 1) (rangesText ranges) false 0 found =
        some (found ++ msgUids) := by
  cases msgUids with
  | nil =>
    refine ⟨[], ⟨rfl, ?_, .nil⟩, rfl, ?_⟩
    · intro range mem
      exact absurd mem not_mem_nil
    · intro found
      rw [append_nil]
      rfl
  | cons curKey rest =>
    have coherent : Coherent curKey (startState (curKey :: rest) []) :=
      ⟨rfl, Nat.le_refl _, by simp [startState], fun _ => rfl⟩
    obtain ⟨ranges, run⟩ := exists_uidRun none nofun 0 curKey rest
      (startState (curKey :: rest) []) keys coherent
    obtain ⟨whole, apart, _⟩ := run.maximal keys coherent
    have whole : ranges.flatMap expandRange = curKey :: rest := by
      rw [whole]
      change expandRange (curKey, curKey) ++ rest = _
      rw [expandRange_single]
      rfl
    have wellFormed := run.wellFormed keys coherent
    refine ⟨ranges, ⟨whole, fun range mem => (wellFormed range mem).1, apart⟩, run.text, ?_⟩
    intro found
    rw [parseUidLoop_rangesText ranges _ 0 found, whole]
    intro range mem
    obtain ⟨ordered, bounded⟩ := wellFormed range mem
    exact ⟨ordered, Nat.lt_trans bounded (by decide)⟩

theorem allocateImapUidString_inverse_twoRuns : ∃ ranges, MaximalRuns [4, 5, 6, 9] ranges ∧
    (allocateImapUidString [4, 5, 6, 9] none []).returnString = rangesText ranges ∧
    ∀ found, parseUidLoop ((rangesText ranges).length + 1) (rangesText ranges) false 0 found =
      some (found ++ [4, 5, 6, 9]) :=
  allocateImapUidString_inverse [4, 5, 6, 9] ⟨by decide, by decide⟩

end CommCentral.Imap
