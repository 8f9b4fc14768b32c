import CommCentral.AddrBook.LdifRegions

/-! The second pass: what is handed on of the lists that the first pass has left in the file. -/
namespace CommCentral.AddrBook
open List

/-- What the second pass hands on. While `AddMailList` fails, the buffer keeps the list that was
read, and it is handed on in place of the next one. -/
def listEntries (addMailList : Nat → Bool) :
    Nat → Option (List Bytes) → List (LdifRecord × Nat) → List (List Bytes)
  | _, _, [] => []
  | added, held, start :: starts =>
    let lines := held.getD (handedLines start)
    lines :: listEntries addMailList (added + 1)
      (if addMailList added then none else some lines) starts

/-- The buffer when a region is read: empty, or with a list that could not be added. -/
def Holds (service : LdifService) : Option (List Bytes) → Prop
  | none => service = {}
  | some lines => service.mLdifLine ≠ [] ∧ findGroupOfNames service.mLdifLine = true ∧
      recordLines service.mLdifLine = lines ∧ 2 ≤ service.mLFCount

/-- Less than two line feeds end no record. -/
theorem Collects.breaks {after last : Bool} {bytes : Bytes} (run : BreakRun after bytes last)
    (balanced : service.mCRCount ≤ service.mLFCount + after.toNat)
    (few : service.mLFCount + bytes.count LF ≤ 1) : ∃ returns,
    returns ≤ service.mLFCount + bytes.count LF + last.toNat ∧
    Collects service bytes { service with
      mLFCount := service.mLFCount + bytes.count LF, mCRCount := returns } := by
  induction run generalizing service with
  | nil after => exact ⟨service.mCRCount, balanced, .nil service⟩
  | @feed after last rest _ ih =>
    have after_le := Bool.toNat_le after
    rw [count_cons_self] at few ⊢
    have next : ({ service with mLFCount := service.mLFCount + 1 } : LdifService).mCRCount ≤
        ({ service with mLFCount := service.mLFCount + 1 } : LdifService).mLFCount +
          Bool.toNat false := by
      simp only [Bool.toNat_false]
      omega
    have goesOn := LdifService.recordEnds_eq (Nat.le_succ_of_le next)
    obtain ⟨returns, atMost, later⟩ := ih next (by simp only; omega)
    rw [decide_eq_false (by simp only; omega)] at goesOn
    have count : service.mLFCount + 1 + rest.count LF = service.mLFCount + (rest.count LF + 1) := by
      omega
    simp only [count] at atMost later
    exact ⟨returns, atMost, .feed goesOn later⟩
  | @carriageReturn last rest _ ih =>
    rw [count_cons_of_ne (by decide)] at few ⊢
    have next : ({ service with mCRCount := service.mCRCount + 1 } : LdifService).mCRCount ≤
        ({ service with mCRCount := service.mCRCount + 1 } : LdifService).mLFCount +
          Bool.toNat true := Nat.succ_le_succ balanced
    have goesOn := LdifService.recordEnds_eq next
    rw [decide_eq_false (by simp only; omega)] at goesOn
    obtain ⟨returns, atMost, later⟩ := ih next few
    exact ⟨returns, atMost, .carriageReturn goesOn later⟩

lemma getLdifStringRecord_ends {after last : Bool} {breaks : Bytes}
    (run : BreakRun after breaks last) (service : LdifService)
    (two : 2 ≤ service.mLFCount + breaks.count LF) (notFeed : c ≠ LF) (notReturn : c ≠ CR)
    (rest : Bytes) : ∃ feeds returns, 2 ≤ feeds ∧
    service.getLdifStringRecord (breaks ++ c :: rest) =
      (true, { service with mLFCount := feeds, mCRCount := returns }, c :: rest) := by
  induction run generalizing service with
  | nil =>
    refine ⟨service.mLFCount, service.mCRCount, two, ?_⟩
    have some_ : ¬ (service.mLFCount = 0 ∧ service.mCRCount = 0) := by
      intro both
      rw [both.1] at two
      exact absurd two (by decide)
    have ends : service.recordEnds = true := by
      have more : 1 < service.mLFCount := two
      simp [LdifService.recordEnds, more]
    rw [nil_append, LdifService.getLdifStringRecord, if_neg notFeed, if_neg notReturn,
      if_neg some_, if_pos ends]
  | feed _ ih =>
    rw [count_cons_self] at two
    obtain ⟨feeds, returns, many, got⟩ :=
      ih { service with mLFCount := service.mLFCount + 1 } (by simp only; omega)
    refine ⟨feeds, returns, many, ?_⟩
    rw [cons_append, LdifService.getLdifStringRecord, if_pos rfl, got]
  | carriageReturn _ ih =>
    rw [count_cons_of_ne (by decide)] at two
    obtain ⟨feeds, returns, many, got⟩ := ih { service with mCRCount := service.mCRCount + 1 } two
    refine ⟨feeds, returns, many, ?_⟩
    rw [cons_append, LdifService.getLdifStringRecord, if_neg (by decide), if_pos rfl, got]

lemma opening_length (pending : Nat) : opening (opening pending).length = opening pending := by
  unfold opening
  split
  · rfl
  · rfl

lemma getLdifStringRecord_region (lineEnd : LineEnd) (record : LdifRecord) {after last : Bool}
    {leftover breaks : Bytes} (run : BreakRun after leftover false)
    (ends : BreakRun false breaks last) (two : 2 ≤ breaks.count LF) {service : LdifService}
    (balanced : service.mCRCount ≤ service.mLFCount)
    (few : service.mLFCount + leftover.count LF ≤ 1) : ∃ feeds returns, 2 ≤ feeds ∧
    service.getLdifStringRecord (leftover ++ (record.body lineEnd ++ breaks)) =
      (true,
        { mLdifLine := service.mLdifLine ++ opening (service.mLFCount + leftover.count LF) ++
            record.text
          mLFCount := feeds
          mCRCount := returns }, []) := by
  obtain ⟨returns, atMost, opens⟩ := Collects.breaks run (balanced.trans (Nat.le_add_right _ _)) few
  rw [Bool.toNat_false, Nat.add_zero] at atMost
  have fills := opens.append (Collects.body lineEnd record atMost few)
  obtain ⟨ended, _, found⟩ := getLdifStringRecord_breaks ends
    { mLdifLine := service.mLdifLine ++ opening (service.mLFCount + leftover.count LF) ++
        record.text } (Nat.zero_le _)
  have more : 1 < 0 + breaks.count LF := by omega
  refine ⟨0 + breaks.count LF, ended, more, ?_⟩
  rw [← append_assoc, fills.getLdifStringRecord, found, decide_eq_true more]

namespace Region

variable {lineEnd : LineEnd} {pos size : Nat} {start : LdifRecord × Nat}

lemma read (region : Region lineEnd file (pos, size) start) : ∃ leftover breaks after last,
    (file.drop pos).take size = leftover ++ (start.1.body lineEnd ++ breaks) ∧
    size = (leftover ++ (start.1.body lineEnd ++ breaks)).length ∧
    BreakRun after leftover false ∧ leftover.count LF = (opening start.2).length ∧
    BreakRun false breaks last ∧ 2 ≤ breaks.count LF := by
  obtain ⟨before, leftover, breaks, later, after, last, whole, place, run, count, ends, two⟩ :=
    region.parts
  cases place
  rw [append_assoc]
  refine ⟨leftover, breaks, after, last, ?_, rfl, run, count, ends, two⟩
  have parts : file = before ++ ((leftover ++ (start.1.body lineEnd ++ breaks)) ++ later) := by
    rw [whole]
    simp only [append_assoc]
  rw [parts, drop_left, take_left]

end Region

variable (addMailList : Nat → Bool)

lemma readLists_found {pos size : Nat} {bytes later : Bytes} {lines : List Bytes}
    (read : (file.drop pos).take size = bytes) (some_ : bytes ≠ [])
    (got : state.service.getLdifStringRecord bytes = (true, service, later))
    (line : service.mLdifLine ≠ []) (group : findGroupOfNames service.mLdifLine = true)
    (handed : recordLines service.mLdifLine = lines) (feeds : 2 ≤ service.mLFCount) (lists) :
    ∃ next : Import,
      readLists addMailList file state ((pos, size) :: lists) =
        readLists addMailList file next lists ∧
      next.handed = state.handed ++ [(true, lines)] ∧
      next.mailListsAdded = state.mailListsAdded + 1 ∧
      Holds next.service (if addMailList state.mailListsAdded then none else some lines) := by
  have nonempty : service.mLdifLine.isEmpty = false := by simpa using line
  have some_ : bytes.isEmpty = false := by simpa using some_
  refine ⟨({ state with service := service } : Import).addLdifRowToDatabase addMailList true,
    ?_, ?_, ?_, ?_⟩
  · rw [readLists]
    simp only [read, some_, if_false, Bool.false_eq_true, readList, got, group, if_true]
  · simp only [Import.addLdifRowToDatabase, nonempty, if_false, Bool.false_eq_true, if_true, handed]
    split
    · rfl
    · rfl
  · simp only [Import.addLdifRowToDatabase, nonempty, if_false, Bool.false_eq_true, if_true]
    split
    · rfl
    · rfl
  · simp only [Import.addLdifRowToDatabase, nonempty, if_false, Bool.false_eq_true, if_true]
    cases addMailList state.mailListsAdded with
    | true =>
      simp only [if_true, LdifService.clearLdifRecordBuffer, nonempty, if_false,
        Bool.false_eq_true]
      rfl
    | false => exact ⟨line, group, handed, feeds⟩

lemma opening_le (pending : Nat) : (opening pending).length ≤ 1 := by
  rw [opening]
  split
  · exact Nat.le_refl 1
  · exact Nat.zero_le 1

variable {lineEnd : LineEnd}

lemma readLists_region {pos size : Nat} {start : LdifRecord × Nat}
    (region : Region lineEnd file (pos, size) start) (isList : start.1.isList = true)
    (holds : Holds state.service held) (lists : List (Nat × Nat)) :
    ∃ next : Import,
      readLists addMailList file state ((pos, size) :: lists) =
        readLists addMailList file next lists ∧
      next.handed = state.handed ++ [(true, held.getD (handedLines start))] ∧
      next.mailListsAdded = state.mailListsAdded + 1 ∧
      Holds next.service (if addMailList state.mailListsAdded then none
        else some (held.getD (handedLines start))) := by
  obtain ⟨leftover, breaks, after, last, bytes, length, run, count, ends, two⟩ := region.read
  obtain ⟨c, rest, body, notFeed, notReturn⟩ := body_head lineEnd start.1
  have some_ : leftover ++ (start.1.body lineEnd ++ breaks) ≠ [] := by
    rw [body]
    simp
  cases held with
  | none =>
    have few : leftover.count LF ≤ 1 := count.trans_le (opening_le _)
    have empty : state.service = {} := holds
    obtain ⟨feeds, returns, many, found⟩ := getLdifStringRecord_region lineEnd start.1 run ends two
      (Nat.le_refl _ : ({} : LdifService).mCRCount ≤ ({} : LdifService).mLFCount)
      (by simpa using few)
    have opens : opening (({} : LdifService).mLFCount + leftover.count LF) = opening start.2 := by
      change opening (0 + leftover.count LF) = _
      rw [Nat.zero_add, count, opening_length]
    rw [opens] at found
    apply readLists_found addMailList bytes some_ (by rw [empty]; exact found)
    · intro none
      exact text_ne_nil start.1 (append_eq_nil_iff.mp none).2
    · exact (findGroupOfNames_opening start.1 start.2).trans isList
    · exact recordLines_opening start.1 start.2
    · exact many
  | some lines =>
    obtain ⟨line, group, same, feeds⟩ := holds
    obtain ⟨more, returns, many, got⟩ :=
      getLdifStringRecord_ends run state.service (Nat.le_add_right_of_le feeds) notFeed notReturn
        (rest ++ breaks)
    rw [body] at bytes some_
    exact readLists_found addMailList bytes some_ got line group same many lists

lemma readLists_entries {lists : List (Nat × Nat)} {starts : List (LdifRecord × Nat)}
    (regions : List.Forall₂ (Region lineEnd file) lists starts)
    (isList : ∀ start ∈ starts, start.1.isList = true) (holds : Holds state.service held) :
    (readLists addMailList file state lists).map (·.handed) =
      some (state.handed ++
        (listEntries addMailList state.mailListsAdded held starts).map (true, ·)) := by
  induction regions generalizing state held with
  | nil =>
    rw [readLists, listEntries, map_nil, append_nil]
    rfl
  | @cons region start lists starts region_ _ ih =>
    obtain ⟨here, isList⟩ := forall_mem_cons.mp isList
    obtain ⟨next, read, handed, added, holds⟩ :=
      readLists_region addMailList region_ here holds lists
    rw [read, ih isList holds, handed, added, listEntries, map_cons, append_assoc]
    rfl

/-- With two line feeds counted and no record in the buffer the second pass does not end. -/
theorem readList_loops (empty : service.mLdifLine = []) (two : 2 ≤ service.mLFCount)
    (notFeed : c ≠ LF) (notReturn : c ≠ CR) (rest : Bytes) (fuel : Nat) (state : Import) :
    readList addMailList fuel { state with service := service } (c :: rest) = none := by
  induction fuel generalizing service with
  | zero => rfl
  | succ fuel ih =>
    obtain ⟨feeds, returns, many, got⟩ :=
      getLdifStringRecord_ends (.nil false) service two notFeed notReturn rest
    rw [nil_append] at got
    have none : findGroupOfNames service.mLdifLine = false := by
      rw [empty]
      decide
    rw [readList]
    simp only [got, none, if_false, Bool.false_eq_true]
    exact ih empty many

/-- Line feeds left over from the first pass spoil the first list. -/
theorem readLists_stale {pos size : Nat} {start : LdifRecord × Nat}
    (region : Region lineEnd file (pos, size) start) (isList : start.1.isList = true)
    (empty : state.service.mLdifLine = []) (stale : state.service.mLFCount ≠ 0)
    (balanced : state.service.mCRCount ≤ state.service.mLFCount) (lists : List (Nat × Nat)) :
    readLists addMailList file state ((pos, size) :: lists) = none ∨
    ∃ next : Import,
      readLists addMailList file state ((pos, size) :: lists) =
        readLists addMailList file next lists ∧
      next.handed = state.handed ++ [(true, [])] ∧
      next.mailListsAdded = state.mailListsAdded + 1 ∧
      Holds next.service (if addMailList state.mailListsAdded then none else some []) := by
  obtain ⟨leftover, breaks, after, last, bytes, length, run, count, ends, two⟩ := region.read
  obtain ⟨c, rest, body, notFeed, notReturn⟩ := body_head lineEnd start.1
  by_cases few : state.service.mLFCount + leftover.count LF ≤ 1
  · right
    have one : state.service.mLFCount + leftover.count LF = 1 := by omega
    obtain ⟨feeds, returns, many, found⟩ :=
      getLdifStringRecord_region lineEnd start.1 run ends two balanced few
    rw [one, empty, nil_append] at found
    apply readLists_found addMailList bytes _ found
    · intro none
      exact text_ne_nil start.1 (append_eq_nil_iff.mp none).2
    · exact (findGroupOfNames_opening start.1 1).trans isList
    · exact recordLines_opening start.1 1
    · exact many
    · rw [body]
      simp
  · left
    obtain ⟨feeds, returns, many, got⟩ := getLdifStringRecord_ends run state.service
      (by omega) notFeed notReturn (rest ++ breaks)
    rw [body] at bytes
    have some_ : (leftover ++ (c :: rest ++ breaks)).isEmpty = false := by simp
    have group : findGroupOfNames state.service.mLdifLine = false := by
      rw [empty]
      decide
    change _ = leftover ++ (c :: (rest ++ breaks)) at bytes
    change (leftover ++ (c :: (rest ++ breaks))).isEmpty = false at some_
    have loops : readList addMailList (size + 2) state (leftover ++ (c :: (rest ++ breaks))) =
        none := by
      rw [readList]
      simp only [got, group, if_false, Bool.false_eq_true]
      have counted : ({ state.service with mLFCount := feeds, mCRCount := returns } :
          LdifService).mLdifLine = [] := empty
      exact readList_loops addMailList counted many notFeed notReturn _ _ _
    rw [readLists]
    simp only [bytes, some_, loops, if_false, Bool.false_eq_true]

end CommCentral.AddrBook
