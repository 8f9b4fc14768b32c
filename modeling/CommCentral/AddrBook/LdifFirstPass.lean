import CommCentral.AddrBook.LdifRecords

/-! What the first pass makes of the records of an LDIF file. -/
namespace CommCentral.AddrBook
open List

namespace Import

variable {addMailList : Nat → Bool} {edge : Nat → Bool}

/-- What the line breaks before a byte that is none have done to the import. -/
def opened (addMailList : Nat → Bool) (pos : Nat) (state : Import) : Import :=
  if state.service.IsClear then state
  else if state.service.recordEnds then state.takeRecord addMailList pos
  else state.withService { mLdifLine := state.service.mLdifLine ++ [LF] }

lemma opened_clear (pos : Nat) (state : Import) :
    (state.opened addMailList pos).service.IsClear := by
  unfold opened
  split
  · assumption
  · split
    · rw [takeRecord_service]
      exact ⟨rfl, rfl⟩
    · exact ⟨rfl, rfl⟩

lemma byte_clear {state : Import} (clear : state.service.IsClear) (notFeed : c ≠ LF)
    (notReturn : c ≠ CR) (pos : Nat) :
    state.byte addMailList pos c = state.withService (state.service.append c) := by
  rw [byte, if_neg notFeed, if_neg notReturn, if_pos clear]

lemma byte_opened {state : Import} (balanced : state.service.mCRCount ≤ state.service.mLFCount)
    (notFeed : c ≠ LF) (notReturn : c ≠ CR) (pos : Nat) :
    (state.opened addMailList pos).byte addMailList pos c = state.byte addMailList pos c := by
  rw [byte_clear (opened_clear pos state) notFeed notReturn]
  by_cases clear : state.service.IsClear
  · rw [byte_clear clear notFeed notReturn, opened, if_pos clear]
  · have some_ := (LdifService.isClear_iff balanced).not.mp clear
    have ends := LdifService.recordEnds_eq (Nat.le_succ_of_le balanced)
    rw [byte, if_neg notFeed, if_neg notReturn, if_neg clear, opened, if_neg clear]
    by_cases two : 1 < state.service.mLFCount
    · rw [ends, if_pos (by simpa using two), if_pos (by simpa using two)]
    · rw [ends, if_neg (by simpa using two), if_neg (by simpa using two), if_pos (.inl (by omega))]
      simp only [LdifService.append, withService, append_assoc, cons_append,
        nil_append]

lemma feed_opened (balanced : state.service.mCRCount ≤ state.service.mLFCount) (notFeed : c ≠ LF)
    (notReturn : c ≠ CR) (pos : Nat) (rest) :
    feed addMailList edge pos (state.opened addMailList pos) (c :: rest) =
      feed addMailList edge pos state (c :: rest) := by
  rw [feed, feed, byte_opened balanced notFeed notReturn]

/-- No record is in the buffer. -/
def idle (state : Import) (saved feeds returns : Nat) : Import :=
  { state with
    service := { mLFCount := feeds, mCRCount := returns }
    savedStartPos := saved }

/-- A record is in the buffer. -/
def hold (state : Import) (line : Bytes) (feeds returns : Nat) : Import :=
  state.withService { mLdifLine := line, mLFCount := feeds, mCRCount := returns }

/-- A record has been taken out of the buffer. -/
def taken (state : Import) (line : Bytes) (stop : Nat) : Import :=
  { state with
    service := {}
    handed :=
      if findGroupOfNames line then state.handed else state.handed ++ [(false, recordLines line)]
    savedStartPos := stop
    lists :=
      if findGroupOfNames line then
        state.lists ++ [(state.savedStartPos, stop - state.savedStartPos)]
      else state.lists }

lemma takeRecord_idle (state : Import) (saved feeds returns stop : Nat) :
    (state.idle saved feeds returns).takeRecord addMailList stop = state.idle stop 0 0 := by
  have none : findGroupOfNames [] = false := by decide
  simp only [takeRecord, addLdifRowToDatabase, idle, none, if_false, Bool.false_eq_true,
    isEmpty_nil, if_true]

lemma takeRecord_hold {line : Bytes} (some_ : line ≠ []) (state : Import)
    (feeds returns stop : Nat) :
    (state.hold line feeds returns).takeRecord addMailList stop = state.taken line stop := by
  have nonempty : line.isEmpty = false := by simpa using some_
  simp only [takeRecord, addLdifRowToDatabase, hold, withService, nonempty, taken,
    LdifService.clearLdifRecordBuffer, if_false, Bool.false_eq_true]
  split
  · rfl
  · rfl

/-- One byte of a line break. -/
def countBreak (c : UInt8) (feeds returns : Nat) : Nat × Nat :=
  if c = LF then (feeds + 1, returns) else (feeds, returns + 1)

lemma byte_break (isBreak : c = LF ∨ c = CR) (pos : Nat) (state : Import) :
    state.byte addMailList pos c =
      state.withService { state.service with
        mLFCount := (countBreak c state.service.mLFCount state.service.mCRCount).1
        mCRCount := (countBreak c state.service.mLFCount state.service.mCRCount).2 } := by
  rcases isBreak with rfl | rfl
  · rw [byte, if_pos rfl, countBreak, if_pos rfl]
  · have other : ¬ CR = LF := by decide
    rw [byte, if_neg other, if_pos rfl, countBreak, if_neg other]

end Import

lemma BreakRun.uncons {after last : Bool} (run : BreakRun after (c :: rest) last)
    (balanced : returns ≤ feeds + after.toNat) : ∃ next, BreakRun next rest last ∧
      (c = LF ∨ c = CR) ∧
      (Import.countBreak c feeds returns).1 = feeds + [c].count LF ∧
      (Import.countBreak c feeds returns).2 ≤
        (Import.countBreak c feeds returns).1 + next.toNat := by
  cases run with
  | feed later =>
    refine ⟨false, later, .inl rfl, rfl, ?_⟩
    have := Bool.toNat_le after
    simp only [Import.countBreak, if_true, Bool.toNat_false]
    omega
  | carriageReturn later => exact ⟨true, later, .inr rfl, rfl, Nat.succ_le_succ balanced⟩

lemma pendingFeeds_cons (edge : Nat → Bool) (pos pending : Nat) (c : UInt8) (rest) :
    pendingFeeds edge pos pending (c :: rest) =
      if edge (pos + 1) = true ∧ 1 < pending + [c].count LF then
        pendingFeeds edge (pos + 1) 0 rest
      else pendingFeeds edge (pos + 1) (pending + [c].count LF) rest := by
  have count : (if c = LF then pending + 1 else pending) = pending + [c].count LF := by
    by_cases feed : c = LF
    · rw [if_pos feed, feed]
      rfl
    · rw [if_neg feed, count_cons_of_ne feed]
      rfl
  rw [pendingFeeds, count]
  by_cases ends : edge (pos + 1) = true ∧ 1 < pending + [c].count LF
  · rw [if_pos ends, if_pos (by simpa using ends)]
  · rw [if_neg ends, if_neg (by simpa using ends)]

namespace Import

variable {addMailList : Nat → Bool} {edge : Nat → Bool}

lemma bufferEnd_break {state : Import}
    (balanced : state.service.mCRCount ≤ state.service.mLFCount + 1) (pos : Nat) :
    (if edge pos = true then state.bufferEnd addMailList pos else state) =
      if edge pos = true ∧ 1 < state.service.mLFCount then state.takeRecord addMailList pos
      else state := by
  have ends := LdifService.recordEnds_eq balanced
  by_cases two : 1 < state.service.mLFCount
  · have found : state.service.recordEnds = true := ends.trans (decide_eq_true two)
    rw [bufferEnd_ends found]
    simp only [two, and_true]
  · have goesOn : state.service.recordEnds = false := ends.trans (decide_eq_false two)
    rw [bufferEnd_goesOn goesOn, ite_self, if_neg (fun both => two both.2)]

variable (addMailList edge) in
lemma feed_idle {after last : Bool} {bytes : Bytes} (run : BreakRun after bytes last)
    (state : Import) (saved : Nat) (balanced : returns ≤ feeds + after.toNat) (pos : Nat) :
    ∃ ended passed leftover, bytes = passed ++ leftover ∧
      ended ≤ pendingFeeds edge pos feeds bytes + last.toNat ∧
      pendingFeeds edge pos feeds bytes =
        (if passed = [] then feeds else 0) + leftover.count LF ∧
      feed addMailList edge pos (state.idle saved feeds returns) bytes =
        state.idle (if passed = [] then saved else pos + passed.length)
          (pendingFeeds edge pos feeds bytes) ended := by
  induction bytes generalizing after saved feeds returns pos with
  | nil =>
    cases run with
    | nil => exact ⟨returns, [], [], rfl, balanced, rfl, rfl⟩
  | cons c rest ih =>
    obtain ⟨next, later, isBreak, count, few⟩ := run.uncons balanced
    generalize counted : countBreak c feeds returns = counts at count few
    obtain ⟨feeds', returns'⟩ := counts
    dsimp only at count few
    have byte : (state.idle saved feeds returns).byte addMailList pos c =
        state.idle saved feeds' returns' := by
      rw [byte_break isBreak]
      change (state.idle saved feeds returns).withService
        ⟨[], (countBreak c feeds returns).1, (countBreak c feeds returns).2⟩ = _
      rw [counted]
      rfl
    have ends : (if edge (pos + 1) = true then
          (state.idle saved feeds' returns').bufferEnd addMailList (pos + 1)
        else state.idle saved feeds' returns') =
        if edge (pos + 1) = true ∧ 1 < feeds' then
          (state.idle saved feeds' returns').takeRecord addMailList (pos + 1)
        else state.idle saved feeds' returns' :=
      bufferEnd_break (few.trans (Nat.add_le_add_left (Bool.toNat_le next) _)) (pos + 1)
    rw [feed, byte, ends, pendingFeeds_cons, ← count]
    by_cases resets : edge (pos + 1) = true ∧ 1 < feeds'
    · rw [if_pos resets, if_pos resets, takeRecord_idle]
      obtain ⟨ended, passed, leftover, whole, atMost, pending, fed⟩ :=
        ih later (pos + 1) (Nat.zero_le _ : 0 ≤ 0 + next.toNat) (pos + 1)
      refine ⟨ended, c :: passed, leftover, congrArg (c :: ·) whole, atMost, ?_, ?_⟩
      · rw [ite_self] at pending
        rw [if_neg (cons_ne_nil _ _)]
        exact pending
      · have place : (if passed = [] then pos + 1 else pos + 1 + passed.length) =
            pos + (c :: passed).length := by
          rw [length_cons]
          split
          · rename_i empty
            rw [empty]
            rfl
          · omega
        rw [fed, place, if_neg (cons_ne_nil _ _)]
    · rw [if_neg resets, if_neg resets]
      obtain ⟨ended, passed, leftover, whole, atMost, pending, fed⟩ := ih later saved few (pos + 1)
      cases passed with
      | nil =>
        refine ⟨ended, [], c :: leftover, congrArg (c :: ·) whole, atMost, ?_, fed⟩
        rw [pending, if_pos rfl, if_pos rfl, count, Nat.add_assoc, ← count_append]
        rfl
      | cons d passed =>
        refine ⟨ended, c :: d :: passed, leftover, congrArg (c :: ·) whole, atMost, pending, ?_⟩
        rw [fed, if_neg (cons_ne_nil _ _), if_neg (cons_ne_nil _ _), length_cons,
          length_cons, length_cons]
        congr 1
        omega

variable (addMailList edge) in
/-- Line breaks behind a record: the first end of a buffer behind two of them takes it. -/
theorem feed_hold {after last : Bool} {bytes : Bytes} (run : BreakRun after bytes last)
    {line : Bytes} (some_ : line ≠ []) (state : Import) (balanced : returns ≤ feeds + after.toNat)
    (pos : Nat) :
    (∃ ended, ended ≤ feeds + bytes.count LF + last.toNat ∧
      pendingFeeds edge pos feeds bytes = feeds + bytes.count LF ∧
      (bytes ≠ [] → edge (pos + bytes.length) = true → feeds + bytes.count LF ≤ 1) ∧
      feed addMailList edge pos (state.hold line feeds returns) bytes =
        state.hold line (feeds + bytes.count LF) ended) ∨
    ∃ before later, bytes = before ++ later ∧ before ≠ [] ∧ 2 ≤ feeds + before.count LF ∧
      pendingFeeds edge pos feeds bytes = pendingFeeds edge (pos + before.length) 0 later ∧
      feed addMailList edge pos (state.hold line feeds returns) bytes =
        feed addMailList edge (pos + before.length) (state.taken line (pos + before.length))
          later := by
  induction bytes generalizing after feeds returns pos with
  | nil =>
    cases run with
    | nil => exact .inl ⟨returns, balanced, rfl, fun none => absurd rfl none, rfl⟩
  | cons c rest ih =>
    obtain ⟨next, later, isBreak, count, few⟩ := run.uncons balanced
    generalize counted : countBreak c feeds returns = counts at count few
    obtain ⟨feeds', returns'⟩ := counts
    dsimp only at count few
    have byte : (state.hold line feeds returns).byte addMailList pos c =
        state.hold line feeds' returns' := by
      rw [byte_break isBreak]
      change (state.hold line feeds returns).withService
        ⟨line, (countBreak c feeds returns).1, (countBreak c feeds returns).2⟩ = _
      rw [counted]
      rfl
    have ends : (if edge (pos + 1) = true then
          (state.hold line feeds' returns').bufferEnd addMailList (pos + 1)
        else state.hold line feeds' returns') =
        if edge (pos + 1) = true ∧ 1 < feeds' then
          (state.hold line feeds' returns').takeRecord addMailList (pos + 1)
        else state.hold line feeds' returns' :=
      bufferEnd_break (few.trans (Nat.add_le_add_left (Bool.toNat_le next) _)) (pos + 1)
    have whole : feeds + (c :: rest).count LF = feeds' + rest.count LF := by
      rw [count, Nat.add_assoc, ← count_append]
      rfl
    rw [feed, byte, ends, pendingFeeds_cons, ← count, whole]
    by_cases resets : edge (pos + 1) = true ∧ 1 < feeds'
    · right
      rw [if_pos resets, if_pos resets, takeRecord_hold some_]
      exact ⟨[c], rest, rfl, cons_ne_nil _ _, by rw [← count]; exact resets.2, rfl, rfl⟩
    · rw [if_neg resets, if_neg resets]
      rcases ih later few (pos + 1) with ⟨ended, atMost, pending, atEdge, fed⟩ |
        ⟨before, behind, split, begun, two, pending, fed⟩
      · left
        refine ⟨ended, atMost, pending, ?_, fed⟩
        intro _ last
        by_cases none : rest = []
        · subst none
          have := mt (And.intro last) resets
          simp only [count_nil]
          omega
        · apply atEdge none
          rw [length_cons] at last
          rw [← last]
          congr 1
          omega
      · right
        have place : pos + (c :: before).length = pos + 1 + before.length := by
          rw [length_cons]
          omega
        refine ⟨c :: before, behind, congrArg (c :: ·) split, cons_ne_nil _ _, ?_, ?_, ?_⟩
        · have : feeds + (c :: before).count LF = feeds' + before.count LF := by
            rw [count, Nat.add_assoc, ← count_append]
            rfl
          rw [this]
          exact two
        · rw [pending, place]
        · rw [fed, place]

variable (addMailList edge) in
/-- The line feeds behind the last reset stay in front of the record. -/
theorem opened_idle {after : Bool} {bytes : Bytes} (run : BreakRun after bytes false)
    (state : Import) (empty : state.service = {}) (saved : state.savedStartPos = pos) :
    ∃ passed leftover middle, bytes = passed ++ leftover ∧ BreakRun middle leftover false ∧
      leftover.count LF = (opening (pendingFeeds edge pos 0 bytes)).length ∧
      (feed addMailList edge pos state bytes).service.mCRCount ≤
        (feed addMailList edge pos state bytes).service.mLFCount ∧
      (feed addMailList edge pos state bytes).opened addMailList (pos + bytes.length) =
        { state with
          service := { mLdifLine := opening (pendingFeeds edge pos 0 bytes) }
          savedStartPos := pos + passed.length } := by
  have start : state = state.idle pos 0 0 := by
    cases state
    dsimp only at empty saved
    rw [empty, saved]
    rfl
  obtain ⟨ended, passed, leftover, whole, atMost, pending, fed⟩ :=
    feed_idle addMailList edge run state pos (Nat.zero_le _ : 0 ≤ 0 + _) pos
  have place : (if passed = [] then pos else pos + passed.length) = pos + passed.length := by
    split
    · rename_i none
      rw [none]
      rfl
    · rfl
  rw [ite_self, Nat.zero_add] at pending
  rw [place, ← start] at fed
  rw [fed]
  rw [Bool.toNat_false, Nat.add_zero] at atMost
  rw [whole] at run
  obtain ⟨middle, _, behind⟩ := run.split passed
  generalize pendingFeeds edge pos 0 bytes = feeds at *
  have balanced : (state.idle (pos + passed.length) feeds ended).service.mCRCount ≤
      (state.idle (pos + passed.length) feeds ended).service.mLFCount := atMost
  have ends := LdifService.recordEnds_eq (Nat.le_succ_of_le balanced)
  have clear := LdifService.isClear_iff balanced
  change _ = decide (1 < feeds) at ends
  change _ ↔ feeds = 0 at clear
  rcases Nat.lt_trichotomy feeds 1 with none | one | more
  · have zero : feeds = 0 := Nat.lt_one_iff.mp none
    have noReturn : ended = 0 := by omega
    refine ⟨passed, leftover, middle, whole, behind, ?_, balanced, ?_⟩
    · rw [← pending, zero]
      rfl
    · rw [opened, if_pos (clear.mpr zero), noReturn, zero]
      rfl
  · refine ⟨passed, leftover, middle, whole, behind, ?_, balanced, ?_⟩
    · rw [← pending, one]
      rfl
    · have notClear := clear.not.mpr (by omega)
      rw [opened, if_neg notClear, ends, if_neg (by rw [one]; decide), one]
      rfl
  · refine ⟨bytes, [], false, (append_nil _).symm, .nil false, ?_, balanced, ?_⟩
    · rw [opening, if_neg (by omega)]
      rfl
    · have notClear := clear.not.mpr (by omega)
      rw [opened, if_neg notClear, ends, if_pos (decide_eq_true more), takeRecord_idle, opening,
        if_neg (by omega)]
      rfl

/-- The line breaks between two records: where the record ends, and what is left in front of the
next one. -/
structure Gap (addMailList : Nat → Bool) (edge : Nat → Bool) (pos : Nat) (state : Import)
    (line breaks : Bytes) : Prop where
  parts : ∃ before passed leftover last after,
    breaks = before ++ passed ++ leftover ∧ BreakRun false before last ∧
    2 ≤ before.count LF ∧ BreakRun after leftover false ∧
    leftover.count LF = (opening (pendingFeeds edge pos 0 breaks)).length ∧
    (feed addMailList edge pos (state.hold line 0 0) breaks).opened addMailList
        (pos + breaks.length) =
      { state.taken line (pos + before.length) with
        service := { mLdifLine := opening (pendingFeeds edge pos 0 breaks) }
        savedStartPos := pos + before.length + passed.length }
  balanced : (feed addMailList edge pos (state.hold line 0 0) breaks).service.mCRCount ≤
    (feed addMailList edge pos (state.hold line 0 0) breaks).service.mLFCount

variable (addMailList edge) in
lemma feed_gap {breaks : Bytes} (run : BreakRun false breaks false) (two : 2 ≤ breaks.count LF)
    {line : Bytes} (some_ : line ≠ []) (state : Import) (pos : Nat) :
    Gap addMailList edge pos state line breaks := by
  rcases feed_hold addMailList edge run some_ state (Nat.le_refl 0) pos with
    ⟨ended, atMost, pending, _, fed⟩ | ⟨before, later, whole, _, twoBefore, pending, fed⟩
  · rw [Nat.zero_add] at pending atMost fed
    have balanced : (state.hold line (breaks.count LF) ended).service.mCRCount ≤
        (state.hold line (breaks.count LF) ended).service.mLFCount := atMost
    constructor
    · refine ⟨breaks, [], [], false, false, by simp, run, two, .nil false, ?_, ?_⟩
      · rw [pending, opening, if_neg (by omega)]
        rfl
      · have ends := LdifService.recordEnds_eq (Nat.le_succ_of_le balanced)
        change _ = decide (1 < breaks.count LF) at ends
        have notClear := (LdifService.isClear_iff balanced).not.mpr (by
          change breaks.count LF ≠ 0
          omega)
        have more : 1 < breaks.count LF := two
        rw [fed, opened, if_neg notClear, ends, if_pos (decide_eq_true more), takeRecord_hold some_,
          pending, opening, if_neg (by omega)]
        rfl
    · rw [fed]
      exact balanced
  · rw [whole] at run
    rw [Nat.zero_add] at twoBefore
    obtain ⟨last, first, second⟩ := run.split before
    obtain ⟨passed, leftover, after, parts, behind, count, balanced, opened⟩ :=
      opened_idle addMailList edge second (state.taken line (pos + before.length)) rfl
        (rfl : _ = pos + before.length)
    have place : pos + breaks.length = pos + before.length + later.length := by
      rw [whole, length_append, Nat.add_assoc]
    constructor
    · refine ⟨before, passed, leftover, last, after, ?_, first, twoBefore, behind, ?_, ?_⟩
      · rw [whole, parts, append_assoc]
      · rw [pending]
        exact count
      · rw [fed, place, opened, pending]
    · rw [fed]
      exact balanced

end Import

end CommCentral.AddrBook
