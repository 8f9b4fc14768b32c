import CommCentral.AddrBook.LdifFirstPass

/-! The first pass over the records of an LDIF file: the persons it hands on, and the regions of the
file that it leaves to the second pass. -/
namespace CommCentral.AddrBook
open List

/-- A part of the file that holds a list, with the line breaks behind it. -/
structure Region (lineEnd : LineEnd) (file : Bytes) (region : Nat × Nat)
    (start : LdifRecord × Nat) : Prop where
  parts : ∃ before leftover breaks later after last,
    file = before ++ (leftover ++ start.1.body lineEnd ++ breaks) ++ later ∧
    region = (before.length, (leftover ++ start.1.body lineEnd ++ breaks).length) ∧
    BreakRun after leftover false ∧ leftover.count LF = (opening start.2).length ∧
    BreakRun false breaks last ∧ 2 ≤ breaks.count LF

def handedOf (bIsList : Bool) (starts : List (LdifRecord × Nat)) : List (Bool × List Bytes) :=
  (starts.filter (·.1.isList == bIsList)).map fun start => (bIsList, handedLines start)

variable (lineEnd : LineEnd)

lemma body_head (record : LdifRecord) :
    ∃ c rest, record.body lineEnd = c :: rest ∧ c ≠ LF ∧ c ≠ CR := by
  cases lines : record.lines with
  | nil => exact absurd lines record.begun
  | cons line more =>
    obtain ⟨some_, plain⟩ := record.isLine line (by rw [lines]; exact mem_cons_self)
    cases line with
    | nil => exact absurd rfl some_
    | cons c line =>
      have bytes : record.body lineEnd = c :: (line ++ more.flatMap (lineEnd.bytes ++ ·)) := by
        rw [LdifRecord.body, lines, intercalate_cons]
        rfl
      exact ⟨c, _, bytes, (plain c mem_cons_self).2⟩

lemma recordsBytes_cons (record) (records) :
    recordsBytes lineEnd (record :: records) =
      record.body lineEnd ++ (lineEnd.breaks record.breaks ++ recordsBytes lineEnd records) := by
  rw [recordsBytes, flatMap_cons, append_assoc]
  rfl

lemma recordsBytes_head (record : LdifRecord) (records : List LdifRecord) :
    ∃ c rest, recordsBytes lineEnd (record :: records) = c :: rest ∧ c ≠ LF ∧ c ≠ CR := by
  obtain ⟨c, rest, body, plain⟩ := body_head lineEnd record
  rw [recordsBytes_cons, body]
  exact ⟨c, _, rfl, plain⟩

namespace Import

/-- The end of the first pass. -/
def finish (addMailList : Nat → Bool) (state : Import) : Import :=
  let line := state.service.mLdifLine
  let state :=
    if !line.isEmpty && !findGroupOfNames line then
      state.addLdifRowToDatabase addMailList false
    else state
  { state with service := state.service.clearLdifRecordBuffer }

variable {addMailList : Nat → Bool} {edge : Nat → Bool}

/-- What the first pass has done with the records. -/
structure Passed (addMailList : Nat → Bool) (edge : Nat → Bool) (lineEnd : LineEnd) (file : Bytes)
    (pos pending : Nat) (records : List LdifRecord) (state ended : Import) : Prop where
  handed : ended.handed = state.handed ++ handedOf false (starts edge lineEnd pos pending records)
  mailListsAdded : ended.mailListsAdded = state.mailListsAdded
  lists : ∃ lists, ended.lists = state.lists ++ lists ∧
    List.Forall₂ (Region lineEnd file) lists (keptLists (starts edge lineEnd pos pending records))
  service : ∃ returns ≤ staleFeeds edge lineEnd pos records, ended.service =
    { mLFCount := staleFeeds edge lineEnd pos records, mCRCount := returns }

lemma finish_idle (state : Import) (saved feeds returns : Nat) :
    (state.idle saved feeds returns).finish addMailList = state.idle saved feeds returns := rfl

lemma finish_hold {line : Bytes} (some_ : line ≠ []) (state : Import) (feeds returns : Nat) :
    (state.hold line feeds returns).finish addMailList =
      { state with
        service := {}
        handed :=
          if findGroupOfNames line then state.handed
          else state.handed ++ [(false, recordLines line)] } := by
  have nonempty : line.isEmpty = false := by simpa using some_
  simp only [finish, addLdifRowToDatabase, hold, withService, nonempty,
    LdifService.clearLdifRecordBuffer, if_false, Bool.false_eq_true, Bool.not_false, Bool.true_and]
  cases group : findGroupOfNames line with
  | true => simp only [Bool.not_true, Bool.false_eq_true, if_false, if_true, nonempty]
  | false => rfl

/-- What is in the buffer when a record begins. -/
def AtRecord (before leftover : Bytes) (pending : Nat) (state : Import) : Prop :=
  state.savedStartPos = before.length ∧ state.service = { mLdifLine := opening pending } ∧
    leftover.count LF = (opening pending).length

lemma feed_body {before leftover : Bytes} {pending : Nat}
    (start : AtRecord before leftover pending state) (lineEnd : LineEnd) (record : LdifRecord)
    (pos : Nat) (rest : Bytes) :
    feed addMailList edge pos state (record.body lineEnd ++ rest) =
      feed addMailList edge (pos + (record.body lineEnd).length)
        (state.hold (opening pending ++ record.text) 0 0) rest := by
  obtain ⟨_, service, _⟩ := start
  have collects : Collects { mLdifLine := opening pending } (record.body lineEnd)
      { mLdifLine := opening pending ++ opening 0 ++ record.text } :=
    Collects.body lineEnd record (Nat.le_refl 0) (Nat.zero_le 1)
  have same : state = state.withService { mLdifLine := opening pending } := by
    rw [← service]
    rfl
  have none : opening 0 = [] := rfl
  rw [none, append_nil] at collects
  rw [feed_append, same, collects.feed_eq]
  rfl

/-- A record is followed by the breaks that take it out of the buffer. -/
theorem taken_passed {before leftover : Bytes} {after : Bool} (run : BreakRun after leftover false)
    {pending : Nat} (start : AtRecord before leftover pending state) (lineEnd : LineEnd)
    (record : LdifRecord) {file breaks later : Bytes} {last : Bool}
    (whole : file = before ++ leftover ++ (record.body lineEnd ++ breaks) ++ later)
    (ends : BreakRun false breaks last) (two : 2 ≤ breaks.count LF)
    (place : stop = (before ++ leftover).length + (record.body lineEnd).length + breaks.length) :
    (state.taken (opening pending ++ record.text) stop).handed =
        state.handed ++ handedOf false [(record, pending)] ∧
      ∃ lists,
        (state.taken (opening pending ++ record.text) stop).lists = state.lists ++ lists ∧
        List.Forall₂ (Region lineEnd file) lists
          (if record.isList then [(record, pending)] else []) := by
  obtain ⟨saved, _, count⟩ := start
  unfold taken handedOf
  rw [findGroupOfNames_opening, recordLines_opening, saved]
  cases isList : record.isList with
  | false =>
    constructor
    · simp [isList]
    · refine ⟨[], (append_nil _).symm, ?_⟩
      exact .nil
  | true =>
    constructor
    · simp [isList]
    · refine ⟨[(before.length, stop - before.length)], rfl, .cons ?_ .nil⟩
      refine ⟨before, leftover, breaks, later, after, last, ?_, ?_, run, count, ends, two⟩
      · rw [whole]
        simp only [append_assoc]
      · rw [Prod.mk.injEq]
        refine ⟨rfl, ?_⟩
        rw [place]
        simp only [length_append]
        omega

lemma handedOf_cons (bIsList : Bool) (start) (starts) :
    handedOf bIsList (start :: starts) = handedOf bIsList [start] ++ handedOf bIsList starts := by
  unfold handedOf
  rw [← map_append, ← filter_append]
  rfl

lemma keptLists_cons {record : LdifRecord} (ends : 2 ≤ record.breaks) (pending : Nat) (starts) :
    keptLists ((record, pending) :: starts) =
      (if record.isList then [(record, pending)] else []) ++ keptLists starts := by
  cases starts with
  | nil =>
    cases isList : record.isList with
    | false => simp [keptLists, isList]
    | true => simp [keptLists, isList, ends]
  | cons next starts =>
    rw [keptLists]
    split
    · rfl
    · rfl

variable (addMailList) in
lemma feed_records (lineEnd) (last : edge file.length = true) (record) (records)
    (separated : Separated (record :: records)) {before leftover : Bytes} {after : Bool}
    (run : BreakRun after leftover false) {pending : Nat}
    (start : AtRecord before leftover pending state)
    (whole : file = before ++ leftover ++ recordsBytes lineEnd (record :: records)) :
    Passed addMailList edge lineEnd file (before ++ leftover).length pending (record :: records)
      state
      ((feed addMailList edge (before ++ leftover).length state
        (recordsBytes lineEnd (record :: records))).finish addMailList) := by
  have some_ : opening pending ++ record.text ≠ [] := by
    intro none
    exact text_ne_nil record (append_eq_nil_iff.mp none).2
  induction records generalizing record before leftover after pending state with
  | nil =>
    have bytes : recordsBytes lineEnd [record] =
        record.body lineEnd ++ lineEnd.breaks record.breaks := flatMap_singleton _ _
    rw [bytes, feed_body start]
    rw [bytes] at whole
    rcases feed_hold addMailList edge (BreakRun.breaks lineEnd record.breaks) some_ state (Nat.le_refl 0)
        ((before ++ leftover).length + (record.body lineEnd).length) with
      ⟨ended, _, _, atEdge, fed⟩ | ⟨breaks, later, split, _, two, pended, fed⟩
    · rw [Nat.zero_add, count_breaks] at atEdge fed
      have few : record.breaks < 2 := by
        by_contra many
        have some_ : lineEnd.breaks record.breaks ≠ [] := by
          intro none
          have := count_breaks lineEnd record.breaks
          rw [none, count_nil] at this
          omega
        have length : file.length = (before ++ leftover).length + (record.body lineEnd).length +
            (lineEnd.breaks record.breaks).length := by
          rw [whole]
          simp only [length_append]
          omega
        rw [length] at last
        have := atEdge some_ last
        omega
      have kept : ¬ 2 ≤ record.breaks := by omega
      rw [fed, finish_hold some_, findGroupOfNames_opening, recordLines_opening]
      constructor
      · rw [starts, starts, handedOf]
        cases isList : record.isList with
        | false | true => simp [isList]
      · rfl
      · refine ⟨[], (append_nil _).symm, ?_⟩
        rw [starts, starts, keptLists, if_neg (fun both => kept both.2)]
        exact .nil
      · rw [staleFeeds, if_neg kept]
        exact ⟨0, Nat.le_refl 0, rfl⟩
    · rw [Nat.zero_add] at two
      have many : 2 ≤ record.breaks := by
        have := count_breaks lineEnd record.breaks
        rw [split, count_append] at this
        omega
      have ends := BreakRun.breaks lineEnd record.breaks
      rw [split] at ends
      obtain ⟨middle, first, second⟩ := ends.split breaks
      have place : (before ++ leftover).length + (record.body lineEnd).length + breaks.length =
          (before ++ leftover).length + (record.body lineEnd).length + breaks.length := rfl
      have parts : file =
          before ++ leftover ++ (record.body lineEnd ++ breaks) ++ later := by
        rw [whole, split]
        simp only [append_assoc]
      obtain ⟨handed, lists, listed, regions⟩ :=
        taken_passed run start lineEnd record parts first two place
      generalize (before ++ leftover).length + (record.body lineEnd).length + breaks.length =
        stop at *
      obtain ⟨ended, passed, _, _, atMost, _, idle⟩ :=
        feed_idle addMailList edge second (state.taken (opening pending ++ record.text) stop) stop
          (Nat.zero_le _ : 0 ≤ 0 + _) stop
      change feed addMailList edge stop (state.taken (opening pending ++ record.text) stop) later = _
        at idle
      rw [fed, idle, finish_idle]
      have stale : staleFeeds edge lineEnd (before ++ leftover).length [record] =
          pendingFeeds edge stop 0 later := by
        rw [staleFeeds, if_pos many, pended]
      constructor
      · rw [starts, starts]
        exact handed
      · rfl
      · refine ⟨lists, listed, ?_⟩
        rw [starts, keptLists_cons many, starts, keptLists, append_nil]
        exact regions
      · rw [stale]
        exact ⟨ended, atMost, rfl⟩
  | cons next records ih =>
    obtain ⟨many, separated⟩ := separated
    have bytes := recordsBytes_cons lineEnd record (next :: records)
    have two : 2 ≤ (lineEnd.breaks record.breaks).count LF := by
      rw [count_breaks]
      exact many
    rw [bytes, feed_body start, feed_append]
    rw [bytes] at whole
    obtain ⟨⟨breaks, passed, leftover', middle, after', split, first, twoBefore, second, count,
      opened⟩, balanced⟩ := feed_gap addMailList edge (BreakRun.breaks lineEnd record.breaks) two
        some_ state ((before ++ leftover).length + (record.body lineEnd).length)
    obtain ⟨c, rest, head, notFeed, notReturn⟩ := recordsBytes_head lineEnd next records
    rw [head, ← feed_opened balanced notFeed notReturn, ← head, opened]
    have parts : file = before ++ leftover ++ (record.body lineEnd ++ breaks) ++
        (passed ++ leftover' ++ recordsBytes lineEnd (next :: records)) := by
      rw [whole, split]
      simp only [append_assoc]
    obtain ⟨handed, lists, listed, regions⟩ :=
      taken_passed run start lineEnd record parts first twoBefore rfl
    have aligned : (before ++ leftover ++ record.body lineEnd ++ breaks ++ passed).length =
        (before ++ leftover).length + (record.body lineEnd).length + breaks.length +
          passed.length := by
      simp only [length_append]
    have length : (before ++ leftover ++ record.body lineEnd ++ breaks ++ passed ++
        leftover').length = (before ++ leftover).length + (record.body lineEnd).length +
          (lineEnd.breaks record.breaks).length := by
      rw [split]
      simp only [length_append]
      omega
    generalize pended : pendingFeeds edge
      ((before ++ leftover).length + (record.body lineEnd).length) 0
      (lineEnd.breaks record.breaks) = later at *
    have begins : AtRecord (before ++ leftover ++ record.body lineEnd ++ breaks ++ passed) leftover'
        later
        { state.taken (opening pending ++ record.text) ((before ++ leftover).length +
            (record.body lineEnd).length + breaks.length) with
          service := { mLdifLine := opening later }
          savedStartPos := (before ++ leftover).length + (record.body lineEnd).length +
            breaks.length + passed.length } := ⟨aligned.symm, rfl, count⟩
    have remains : file = before ++ leftover ++ record.body lineEnd ++ breaks ++ passed ++
        leftover' ++ recordsBytes lineEnd (next :: records) := by
      rw [parts]
      simp only [append_assoc]
    have nextBegun : opening later ++ next.text ≠ [] := by
      intro none
      exact text_ne_nil next (append_eq_nil_iff.mp none).2
    obtain ⟨handedLater, mailListsAdded, ⟨listsLater, listedLater, regionsLater⟩, service⟩ :=
      ih next separated second begins remains nextBegun
    have begun : starts edge lineEnd (before ++ leftover).length pending
        (record :: next :: records) = (record, pending) ::
          starts edge lineEnd ((before ++ leftover).length + (record.body lineEnd).length +
            (lineEnd.breaks record.breaks).length) later (next :: records) := by
      rw [← pended]
      rfl
    rw [length] at handedLater mailListsAdded listedLater regionsLater service
    constructor
    · rw [handedLater, begun, handedOf_cons]
      exact (congrArg (· ++ _) handed).trans (append_assoc _ _ _)
    · exact mailListsAdded
    · refine ⟨lists ++ listsLater, ?_, ?_⟩
      · rw [listedLater]
        exact (congrArg (· ++ _) listed).trans (append_assoc _ _ _)
      · rw [begun, keptLists_cons many]
        exact rel_append regions regionsLater
    · rw [staleFeeds]
      exact service

end Import

end CommCentral.AddrBook
