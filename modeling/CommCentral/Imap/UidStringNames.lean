import CommCentral.Imap.UidStringLoop

/-! Which messages the UID set of `AllocateImapUidString` names. -/
namespace CommCentral.Imap
open Lib List

/-- The iteration joins `nextKey` across a numeric gap although the flag state's entry at
`curFlagStateIndex` is a message inside that gap: the index, counted up without a lookup,
is no longer the position of `curSequenceEnd`. -/
def StaleExtension (flagState : Option FlagAndUidState) (nextKey : Nat)
    (state : UidStringState) : Prop :=
  match flagState with
  | none => False
  | some known =>
    nextKey ≠ msgKeyNone ∧ nextKey ≠ state.curSequenceEnd + 1 ∧
      state.curFlagStateIndex ≠ -1 ∧
      known.getUidOfMessage (state.curFlagStateIndex + 1) = nextKey ∧
      state.curSequenceEnd < known.getUidOfMessage state.curFlagStateIndex

/-- No iteration that the loop reaches is a `StaleExtension`. -/
def IndexNeverStale (flagState : Option FlagAndUidState) :
    Nat → List Nat → UidStringState → Prop
  | _, [], _ => True
  | keyIndex, curKey :: rest, state =>
    ¬ StaleExtension flagState (rest.headD msgKeyNone) state ∧
      match allocateStep flagState keyIndex curKey (rest.headD msgKeyNone) state with
      | .next continued => IndexNeverStale flagState (keyIndex + 1) rest continued
      | .stop _ => True

variable {known : FlagAndUidState} {ranges : List (Nat × Nat)}

private lemma indexNeverStale_next
    (step : allocateStep flagState keyIndex curKey nextKey state = .next continued) :
    IndexNeverStale flagState keyIndex (curKey :: nextKey :: rest) state ↔
      ¬ StaleExtension flagState nextKey state ∧
        IndexNeverStale flagState (keyIndex + 1) (nextKey :: rest) continued := by
  rw [IndexNeverStale, headD_cons, step]

/-- No message lies between two neighbours of the flag state. -/
theorem no_uid_between (sortedState : known.Sorted)
    (above : known.fUids[position + 1]? = some upper)
    (below : ∀ entry, known.fUids[position]? = some entry → entry ≤ lower) (mem : uid ∈ known.fUids)
    (later : lower < uid) : upper ≤ uid := by
  obtain ⟨index, inside, rfl⟩ := mem_iff_getElem.mp mem
  obtain ⟨next, rfl⟩ := List.getElem?_eq_some_iff.mp above
  have increasing := pairwise_iff_getElem.mp sortedState
  have entry := below _ (getElem?_eq_getElem (Nat.lt_of_succ_lt next))
  rcases Nat.lt_trichotomy index position with before | same | after
  · have less := increasing index position inside (Nat.lt_of_succ_lt next) before
    omega
  · subst same
    omega
  · rcases Nat.lt_or_eq_of_le (Nat.succ_le_of_lt after) with beyond | same
    · exact Nat.le_of_lt (increasing (position + 1) index next inside beyond)
    · subst same
      exact Nat.le_refl _

private lemma stale_neighbour_iff (coherent : Coherent curKey state)
    (apart : nextKey ≠ curKey + 1) (real : nextKey ≠ msgKeyNone)
    (compares : ComparesFrom known curKey state position)
    (neighbour : known.fUids[position + 1]? = some nextKey) :
    StaleExtension (some known) nextKey state ↔
      ∃ entry, known.fUids[position]? = some entry ∧ curKey < entry := by
  have inside : position < known.fUids.length := by
    obtain ⟨inside, _⟩ := List.getElem?_eq_some_iff.mp neighbour
    omega
  have entryHere := getElem?_eq_getElem inside
  rcases compares with set | ⟨unset, present⟩
  · have read := (known.getUidOfMessage_eq_iff (position + 1) nextKey real).mpr neighbour
    rw [Int.natCast_add, Int.natCast_one] at read
    have here : known.getUidOfMessage position = known.fUids[position] := by
      have nonnegative : ¬ (position : Int) < 0 := by omega
      rw [FlagAndUidState.getUidOfMessage, if_neg nonnegative, Int.toNat_natCast,
        getD_eq_getElem _ _ inside]
    have placed : state.curFlagStateIndex ≠ -1 := by omega
    simp only [StaleExtension, set, coherent.ends, here, read]
    constructor
    · rintro ⟨_, _, _, _, above⟩
      exact ⟨_, entryHere, above⟩
    · rintro ⟨entry, found, above⟩
      rw [entryHere, Option.some.injEq] at found
      subst found
      exact ⟨real, apart, by omega, trivial, above⟩
  · constructor
    · rintro ⟨_, _, placed, _⟩
      exact absurd unset placed
    · rintro ⟨entry, found, above⟩
      rw [present, Option.some.injEq] at found
      omega

private lemma step_of_stale (keyIndex curKey : Nat)
    (stale : StaleExtension flagState nextKey state) :
    ∃ continued, allocateStep flagState keyIndex curKey nextKey state = .next continued ∧
      continued.startSequence = state.startSequence := by
  cases flagState with
  | none => exact stale.elim
  | some known =>
    obtain ⟨real, apart, placed, neighbour, _⟩ := stale
    refine ⟨joined nextKey (state.curFlagStateIndex + 1) state, ?_, rfl⟩
    unfold allocateStep
    rw [if_neg real, if_neg apart]
    simp only [if_neg placed, extendByFlagState, neighbour, if_true]
    rfl

private lemma not_stale_of_restarted {text : List Char}
    (keys : UidArray (curKey :: nextKey :: rest)) (coherent : Coherent curKey state) (step :
      allocateStep flagState keyIndex curKey nextKey state = .next (restarted nextKey text state)) :
    ¬ StaleExtension flagState nextKey state := by
  intro stale
  obtain ⟨continued, extended, kept⟩ := step_of_stale keyIndex curKey stale
  rw [step, LoopStep.next.injEq] at extended
  subst extended
  have later := keys.lt
  have starts := coherent.starts
  simp only [restarted] at kept
  omega

section

variable (run : UidRun flagState keyIndex curKey rest state ranges final)
include run

/-- The current sequence is emitted before the loop ends, unless its only key is missing
from the flag state. -/
theorem UidRun.covers_current (keys : UidArray (curKey :: rest)) (coherent : Coherent curKey state)
    (present : ∀ known, flagState = some known → uid ∈ known.fUids)
    (lower : state.startSequence ≤ uid) (upper : uid ≤ curKey) : Covered ranges uid := by
  induction run with
  | @joinConsecutive keyIndex curKey rest state final ranges _ _ ih =>
    have index := coherent.index
    have later := keys.lt
    exact ih keys.tail (coherent_joined coherent later (by omega)) lower (by omega)
  | joinNeighbour _ _ _ _ _ _ ih =>
    have later := keys.lt
    exact ih keys.tail (coherent_joined coherent later (by omega)) lower (by omega)
  | skip usable _ unset missing _ _ _ =>
    have single := coherent.single unset
    obtain rfl := Nat.le_antisymm upper (single ▸ lower)
    exact absurd (present _ usable) missing
  | emit | last | cut =>
    rw [covered_cons]
    exact .inl ⟨lower, upper⟩

lemma UidRun.covers_requested (keys : UidArray (curKey :: rest))
    (coherent : Coherent curKey state) (index : Nat) (inside : index < (curKey :: rest).length)
    (before : keyIndex + index < final.msgCount)
    (present : ∀ known, flagState = some known → (curKey :: rest)[index] ∈ known.fUids) :
    Covered ranges (curKey :: rest)[index] := by
  induction run generalizing index with
  | @joinConsecutive keyIndex curKey rest state final ranges step run ih =>
    have bound := coherent.index
    have next := coherent_joined coherent keys.lt (by omega : 0 ≤ state.curFlagStateIndex + 1)
    cases index with
    | zero => exact run.covers_current keys.tail next present coherent.starts (Nat.le_of_lt keys.lt)
    | succ index => exact ih keys.tail next index (Nat.lt_of_succ_lt_succ inside) (by omega) present
  | @joinNeighbour keyIndex curKey nextKey position rest state final ranges known _ _ _ _ _ run ih =>
    have next := coherent_joined coherent keys.lt (by omega : (0 : Int) ≤ position + 1)
    cases index with
    | zero => exact run.covers_current keys.tail next present coherent.starts (Nat.le_of_lt keys.lt)
    | succ index => exact ih keys.tail next index (Nat.lt_of_succ_lt_succ inside) (by omega) present
  | skip usable _ _ missing _ _ ih =>
    cases index with
    | zero => exact absurd (present _ usable) missing
    | succ index =>
      exact ih keys.tail (coherent_restarted ..) index (Nat.lt_of_succ_lt_succ inside)
        (by omega) present
  | emit _ _ _ _ ih =>
    rw [covered_cons]
    cases index with
    | zero => exact .inl ⟨coherent.starts, Nat.le_refl _⟩
    | succ index =>
      exact .inr (ih keys.tail (coherent_restarted ..) index (Nat.lt_of_succ_lt_succ inside)
        (by omega) present)
  | last =>
    obtain rfl : index = 0 := by simpa using inside
    rw [covered_cons]
    exact .inl ⟨coherent.starts, Nat.le_refl _⟩
  | cut => exact absurd before (by simp)

section

variable (usable : flagState = some known) (sortedState : known.Sorted)
  (keys : UidArray (curKey :: rest)) (coherent : Coherent curKey state)
include usable sortedState keys coherent

lemma UidRun.covered_requested (fresh : IndexNeverStale flagState keyIndex (curKey :: rest) state)
    (present : uid ∈ known.fUids) (covered : Covered ranges uid) :
    (state.startSequence ≤ uid ∧ uid ≤ curKey) ∨ uid ∈ rest := by
  induction run with
  | @joinConsecutive keyIndex curKey rest state final ranges step _ ih =>
    have index := coherent.index
    have next := coherent_joined coherent keys.lt (by omega : 0 ≤ state.curFlagStateIndex + 1)
    have fresh' := ((indexNeverStale_next step).mp fresh).2
    rcases ih keys.tail next fresh' covered with ⟨lower, upper⟩ | mem
    · rcases Nat.lt_or_eq_of_le upper with before | same
      · exact .inl ⟨lower, Nat.le_of_lt_succ before⟩
      · exact .inr (by rw [same]; exact mem_cons_self ..)
    · exact .inr (mem_cons_of_mem _ mem)
  | @joinNeighbour keyIndex curKey nextKey position rest state final ranges _ same apart compares
      neighbour step _ ih =>
    cases usable.symm.trans same
    subst usable
    have next := coherent_joined coherent keys.lt (by omega : (0 : Int) ≤ position + 1)
    obtain ⟨notStale, fresh'⟩ := (indexNeverStale_next step).mp fresh
    rw [stale_neighbour_iff coherent apart keys.tail.real compares neighbour] at notStale
    rcases ih keys.tail next fresh' covered with ⟨lower, upper⟩ | mem
    · rcases Nat.lt_or_ge curKey uid with inGap | before
      · have reached : nextKey ≤ uid := by
          refine no_uid_between sortedState neighbour ?_ present inGap
          intro entry found
          exact Nat.le_of_not_lt (fun above => notStale ⟨entry, found, above⟩)
        obtain rfl := Nat.le_antisymm upper reached
        exact .inr (mem_cons_self ..)
      · exact .inl ⟨lower, before⟩
    · exact .inr (mem_cons_of_mem _ mem)
  | skip _ _ _ _ step _ ih =>
    have fresh' := ((indexNeverStale_next step).mp fresh).2
    rcases ih keys.tail (coherent_restarted ..) fresh' covered with ⟨lower, upper⟩ | mem
    · obtain rfl := Nat.le_antisymm upper lower
      exact .inr (mem_cons_self ..)
    · exact .inr (mem_cons_of_mem _ mem)
  | emit _ _ step _ ih =>
    have fresh' := ((indexNeverStale_next step).mp fresh).2
    rcases (covered_cons ..).mp covered with inside | covered
    · exact .inl inside
    · rcases ih keys.tail (coherent_restarted ..) fresh' covered with ⟨lower, upper⟩ | mem
      · obtain rfl := Nat.le_antisymm upper lower
        exact .inr (mem_cons_self ..)
      · exact .inr (mem_cons_of_mem _ mem)
  | last => simpa using covered
  | cut =>
    left
    simpa using covered

/-- A stale extension puts a message that nobody asked for into the set. -/
theorem UidRun.covered_unrequested
    (stale : ¬ IndexNeverStale flagState keyIndex (curKey :: rest) state) :
    ∃ uid ∈ known.fUids, Covered ranges uid ∧ curKey < uid ∧ uid ∉ rest := by
  induction run with
  | @joinConsecutive keyIndex curKey rest state final ranges step _ ih =>
    have index := coherent.index
    have next := coherent_joined coherent keys.lt (by omega : 0 ≤ state.curFlagStateIndex + 1)
    have notStale : ¬ StaleExtension flagState (curKey + 1) state := by
      subst usable
      rintro ⟨_, apart, _⟩
      exact apart (by rw [coherent.ends])
    have stale' := fun fresh => stale ((indexNeverStale_next step).mpr ⟨notStale, fresh⟩)
    obtain ⟨uid, mem, covered, later, absent⟩ := ih keys.tail next stale'
    refine ⟨uid, mem, covered, by omega, ?_⟩
    rw [mem_cons, not_or]
    exact ⟨Nat.ne_of_gt later, absent⟩
  | @joinNeighbour keyIndex curKey nextKey position rest state final ranges _ same apart compares
      neighbour step run ih =>
    cases usable.symm.trans same
    subst usable
    have next := coherent_joined coherent keys.lt (by omega : (0 : Int) ≤ position + 1)
    have exact_here := stale_neighbour_iff coherent apart keys.tail.real compares neighbour
    by_cases here : StaleExtension (some known) nextKey state
    · obtain ⟨entry, found, above⟩ := exact_here.mp here
      obtain ⟨inside, entryHere⟩ := List.getElem?_eq_some_iff.mp found
      obtain ⟨inside', nextHere⟩ := List.getElem?_eq_some_iff.mp neighbour
      have mem : entry ∈ known.fUids := entryHere ▸ getElem_mem inside
      have before : entry < nextKey := by
        rw [← entryHere, ← nextHere]
        exact pairwise_iff_getElem.mp sortedState _ _ inside inside' (Nat.lt_succ_self _)
      refine ⟨entry, mem, ?_, above, ?_⟩
      · refine run.covers_current keys.tail next ?_ ?_ (Nat.le_of_lt before)
        · intro other same
          cases same
          exact mem
        · exact Nat.le_trans coherent.starts (Nat.le_of_lt above)
      · intro requested
        rcases mem_cons.mp requested with same | later
        · omega
        · have beyond := rel_of_pairwise_cons keys.tail.sorted later
          omega
    · have stale' := fun fresh => stale ((indexNeverStale_next step).mpr ⟨here, fresh⟩)
      obtain ⟨uid, mem, covered, later, absent⟩ := ih keys.tail next stale'
      refine ⟨uid, mem, covered, Nat.lt_trans keys.lt later, ?_⟩
      rw [mem_cons, not_or]
      exact ⟨Nat.ne_of_gt later, absent⟩
  | skip _ _ _ _ step _ ih =>
    have notStale := not_stale_of_restarted keys coherent step
    have stale' := fun fresh => stale ((indexNeverStale_next step).mpr ⟨notStale, fresh⟩)
    obtain ⟨uid, mem, covered, later, absent⟩ := ih keys.tail (coherent_restarted ..) stale'
    refine ⟨uid, mem, covered, Nat.lt_trans keys.lt later, ?_⟩
    rw [mem_cons, not_or]
    exact ⟨Nat.ne_of_gt later, absent⟩
  | emit _ _ step _ ih =>
    have notStale := not_stale_of_restarted keys coherent step
    have stale' := fun fresh => stale ((indexNeverStale_next step).mpr ⟨notStale, fresh⟩)
    obtain ⟨uid, mem, covered, later, absent⟩ := ih keys.tail (coherent_restarted ..) stale'
    refine ⟨uid, mem, (covered_cons ..).mpr (.inr covered), Nat.lt_trans keys.lt later, ?_⟩
    rw [mem_cons, not_or]
    exact ⟨Nat.ne_of_gt later, absent⟩
  | last _ step =>
    refine absurd ?_ stale
    rw [IndexNeverStale, headD_nil, step]
    refine ⟨?_, trivial⟩
    subst usable
    exact fun impossible => impossible.1 rfl
  | cut _ _ _ step =>
    refine absurd ?_ stale
    rw [IndexNeverStale, step]
    refine ⟨?_, trivial⟩
    intro impossible
    obtain ⟨continued, extended, _⟩ := step_of_stale _ _ impossible
    rw [step] at extended
    cases extended

end

end

lemma coherent_startState (msgUids) (returnString) :
    Coherent (msgUids.headD msgKeyNone) (startState msgUids returnString) :=
  ⟨rfl, Nat.le_refl _, by simp [startState], fun _ => rfl⟩

lemma usableFlagState_of_full (full : known.fPartialUIDFetch = false) :
    usableFlagState (some known) = some known := by
  simp [usableFlagState, full]

/-- `ParseUidString` reads `named` from the result; of the messages in the flag state it
holds only requested ones, and every requested one before the cut-off. -/
structure NamesRequested (known : FlagAndUidState) (msgUids : List Nat)
    (result : UidStringState) (named : List Nat) : Prop where
  parsed : parseUidString result.returnString = some named
  onlyRequested : ∀ uid ∈ named, uid ∈ known.fUids → uid ∈ msgUids
  allBefore : ∀ (index : Nat) (inside : index < msgUids.length), index < result.msgCount →
    msgUids[index] ∈ known.fUids → msgUids[index] ∈ named

/-- A mailbox with the messages 7 and 8. -/
def sevenEight : FlagAndUidState where
  fUids := [7, 8]
  fFlags := [0, 0]
  fNumberDeleted := 0
  fPartialUIDFetch := false
  fNumAdded := 0
  fStartCapture := false
  room := by decide

end CommCentral.Imap
