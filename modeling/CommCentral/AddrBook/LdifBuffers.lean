import CommCentral.AddrBook.LdifImport

/-! The first pass over an LDIF file, byte by byte: reading it in buffers comes to an extra look at
the counted line breaks at the end of each buffer. -/
namespace CommCentral.AddrBook
open List

namespace LdifService

/-- The line breaks that have been counted are forgotten. -/
def IsClear (service : LdifService) : Prop := service.mLFCount = 0 ∧ service.mCRCount = 0

instance (service : LdifService) : Decidable service.IsClear := inferInstanceAs (Decidable (_ ∧ _))

lemma IsClear.recordEnds {service : LdifService} (clear : service.IsClear) :
    service.recordEnds = false := by
  simp [LdifService.recordEnds, clear.1, clear.2]

def append (service : LdifService) (c : UInt8) : LdifService :=
  { service with mLdifLine := service.mLdifLine ++ [c] }

end LdifService

namespace Import

variable (addMailList : Nat → Bool)

def withService (state : Import) (service : LdifService) : Import :=
  { state with service := service }

def byte (pos : Nat) (c : UInt8) (state : Import) : Import :=
  if c = LF then
    state.withService { state.service with mLFCount := state.service.mLFCount + 1 }
  else if c = CR then
    state.withService { state.service with mCRCount := state.service.mCRCount + 1 }
  else if state.service.IsClear then state.withService (state.service.append c)
  else if state.service.recordEnds then
    (state.takeRecord addMailList pos).withService
      ((state.takeRecord addMailList pos).service.append c)
  else if state.service.mLFCount = 1 ∨ state.service.mCRCount = 1 then
    state.withService { mLdifLine := state.service.mLdifLine ++ [LF, c] }
  else state

def bufferEnd (pos : Nat) (state : Import) : Import :=
  if state.service.recordEnds then state.takeRecord addMailList pos else state

/-- The bytes from `pos` on, in buffers that end at the edges. -/
def feed (edge : Nat → Bool) : Nat → Import → Bytes → Import
  | _, state, [] => state
  | pos, state, c :: rest =>
    feed edge (pos + 1)
      (if edge (pos + 1) then (state.byte addMailList pos c).bufferEnd addMailList (pos + 1)
        else state.byte addMailList pos c)
      rest

/-- Bytes inside a buffer. -/
def noEdge (_ : Nat) : Bool := false

variable {addMailList}

variable {edge : Nat → Bool}

lemma feed_append (pos : Nat) (state) (bytes later) :
    feed addMailList edge pos state (bytes ++ later) =
      feed addMailList edge (pos + bytes.length) (feed addMailList edge pos state bytes) later := by
  induction bytes generalizing pos state with
  | nil => rfl
  | cons c bytes ih => rw [cons_append, feed, ih, feed, length_cons, Nat.add_assoc, Nat.add_comm 1]

lemma feed_cons (inside : edge (pos + 1) = false) (state) (c : UInt8) (rest) :
    feed addMailList edge pos state (c :: rest) =
      feed addMailList edge (pos + 1) (state.byte addMailList pos c) rest := by
  rw [feed, inside, if_neg Bool.false_ne_true]

lemma feed_inside {bytes : Bytes} (state) (some_ : bytes ≠ [])
    (inside : ∀ q, pos < q → q < pos + bytes.length → edge q = false)
    (last : edge (pos + bytes.length) = true) :
    feed addMailList edge pos state bytes =
      (feed addMailList noEdge pos state bytes).bufferEnd addMailList
        (pos + bytes.length) := by
  induction bytes generalizing pos state with
  | nil => exact absurd rfl some_
  | cons c bytes ih =>
    cases bytes with
    | nil =>
      change edge (pos + 1) = true at last
      rw [feed, if_pos last]
      rfl
    | cons d bytes =>
      have here : edge (pos + 1) = false := by
        apply inside
        · exact Nat.lt_succ_self pos
        · rw [length_cons, length_cons]
          omega
      have length : pos + (c :: d :: bytes).length = pos + 1 + (d :: bytes).length := by
        rw [length_cons (a := c)]
        omega
      have plain : noEdge (pos + 1) = false := rfl
      rw [feed_cons here, feed_cons plain]
      rw [length] at inside last ⊢
      exact ih _ (cons_ne_nil _ _) (fun q after before => inside q (by omega) before) last

lemma bufferEnd_ends {state : Import} (ends : state.service.recordEnds = true) (pos : Nat) :
    state.bufferEnd addMailList pos = state.takeRecord addMailList pos :=
  if_pos ends

lemma bufferEnd_goesOn {state : Import} (goesOn : state.service.recordEnds = false) (pos : Nat) :
    state.bufferEnd addMailList pos = state := by
  rw [bufferEnd, goesOn, if_neg Bool.false_ne_true]

/-- After a record has been taken the buffer is empty. -/
theorem takeRecord_service (addMailList : Nat → Bool) (pos : Nat) (state : Import) :
    (state.takeRecord addMailList pos).service = {} := by
  unfold takeRecord addLdifRowToDatabase LdifService.clearLdifRecordBuffer
  cases line : state.service.mLdifLine with
  | nil =>
    have none : findGroupOfNames [] = false := by decide
    rw [none, if_neg Bool.false_ne_true]
    simp only [isEmpty_nil, if_true]
    rw [line]
  | cons c rest =>
    split
    · rfl
    · rfl

/-- What a call of `GetLdifStringRecord` has done. -/
structure Got (addMailList : Nat → Bool) (pos : Nat) (state : Import) (buf : Bytes)
    (found : Bool) (service : LdifService) (rest : Bytes) : Prop where
  suffix : ∃ passed, buf = passed ++ rest ∧
    feed addMailList noEdge pos state passed = state.withService service
  ends : service.recordEnds = found
  whole : found = false → rest = []
  next : ∀ c later, rest = c :: later → c ≠ LF ∧ c ≠ CR
  moves : found = true → state.service.recordEnds = false → rest.length < buf.length

lemma getLdifStringRecord_cons (addMailList : Nat → Bool) (pos : Nat) (state : Import) (c : UInt8) (rest : Bytes) :
    (c ≠ LF ∧ c ≠ CR ∧ state.service.recordEnds = true ∧
        state.service.getLdifStringRecord (c :: rest) = (true, state.service, c :: rest)) ∨
      ((state.byte addMailList pos c) =
          state.withService (state.byte addMailList pos c).service ∧
        state.service.getLdifStringRecord (c :: rest) =
          (state.byte addMailList pos c).service.getLdifStringRecord rest) := by
  unfold byte
  rw [LdifService.getLdifStringRecord]
  by_cases lineFeed : c = LF
  · right
    simp only [if_pos lineFeed]
    exact ⟨rfl, rfl⟩
  · by_cases return_ : c = CR
    · right
      simp only [if_neg lineFeed, if_pos return_]
      exact ⟨rfl, rfl⟩
    · by_cases clear : state.service.IsClear
      · right
        have both : state.service.mLFCount = 0 ∧ state.service.mCRCount = 0 := clear
        simp only [if_neg lineFeed, if_neg return_, if_pos clear, if_pos both]
        exact ⟨rfl, rfl⟩
      · have both : ¬ (state.service.mLFCount = 0 ∧ state.service.mCRCount = 0) := clear
        by_cases ends : state.service.recordEnds = true
        · left
          simp only [if_neg lineFeed, if_neg return_, if_neg both, if_pos ends]
          exact ⟨lineFeed, return_, ends, trivial⟩
        · right
          simp only [if_neg lineFeed, if_neg return_, if_neg clear, if_neg both, if_neg ends]
          split
          · exact ⟨rfl, rfl⟩
          · exact ⟨rfl, rfl⟩

lemma getLdifStringRecord_got (addMailList : Nat → Bool) (pos : Nat) (state : Import) (buf : Bytes) :
    Got addMailList pos state buf (state.service.getLdifStringRecord buf).1
      (state.service.getLdifStringRecord buf).2.1 (state.service.getLdifStringRecord buf).2.2 := by
  induction buf generalizing pos state with
  | nil =>
    refine ⟨⟨[], rfl, rfl⟩, rfl, fun _ => rfl, nofun, ?_⟩
    intro found notEnds
    exact absurd (found.symm.trans notEnds) (by decide)
  | cons c rest ih =>
    rcases getLdifStringRecord_cons addMailList pos state c rest with
      ⟨notFeed, notReturn, ends, got⟩ | ⟨same, got⟩
    · rw [got]
      refine ⟨⟨[], rfl, rfl⟩, ends, nofun, ?_, ?_⟩
      · intro d later both
        cases both
        exact ⟨notFeed, notReturn⟩
      · intro _ notEnds
        exact absurd (ends.symm.trans notEnds) (by decide)
    · rw [got]
      obtain ⟨⟨passed, rest_eq, fed⟩, ends, whole, next, moves⟩ :=
        ih (pos + 1) (state.byte addMailList pos c)
      refine ⟨⟨c :: passed, ?_, ?_⟩, ends, whole, next, ?_⟩
      · exact congrArg (c :: ·) rest_eq
      · rw [feed_cons rfl, fed, same]
        rfl
      · intro _ _
        have := congrArg List.length rest_eq
        rw [length_append] at this
        rw [length_cons]
        omega

/-- A record that ends before a byte may as well be taken first. -/
theorem byte_takeRecord {state : Import} (notFeed : c ≠ LF) (notReturn : c ≠ CR)
    (ends : state.service.recordEnds = true) :
    (state.takeRecord addMailList pos).byte addMailList pos c = state.byte addMailList pos c := by
  have notClear : ¬ state.service.IsClear := by
    intro clear
    exact absurd (ends.symm.trans clear.recordEnds) (by decide)
  have taken : (state.takeRecord addMailList pos).service.IsClear := by
    rw [takeRecord_service]
    exact ⟨rfl, rfl⟩
  simp only [byte, if_neg notFeed, if_neg notReturn, if_pos taken, if_neg notClear, if_pos ends]

lemma readBuffer_feed {last : Nat} (fuel : Nat) (position : pos + buf.length = last)
    (enough : buf.length + (if state.service.recordEnds then 2 else 1) ≤ fuel) :
    readBuffer addMailList last fuel state buf =
      some ((feed addMailList noEdge pos state buf).bufferEnd addMailList last) := by
  induction fuel generalizing pos state buf with
  | zero => split at enough <;> omega
  | succ fuel ih =>
    obtain ⟨⟨passed, whole, fed⟩, ends, finished, next, moves⟩ :=
      getLdifStringRecord_got addMailList pos state buf
    rw [readBuffer]
    generalize state.service.getLdifStringRecord buf = result at *
    obtain ⟨found, service, rest⟩ := result
    dsimp only at whole fed ends finished next moves ⊢
    have reached : pos + passed.length = last - rest.length := by
      have := congrArg List.length whole
      rw [length_append] at this
      omega
    rw [whole, feed_append, fed, reached]
    cases found with
    | false =>
      rw [finished rfl]
      exact congrArg some (bufferEnd_goesOn ends last).symm
    | true =>
      have taken : ((state.withService service).takeRecord addMailList
          (last - rest.length)).service.recordEnds = false := by
        rw [takeRecord_service]
        rfl
      have shorter : rest.length ≤ buf.length := by
        rw [whole, length_append]
        exact Nat.le_add_left _ _
      have enoughLater : rest.length + 1 ≤ fuel := by
        cases ended : state.service.recordEnds with
        | true =>
          rw [ended, if_pos rfl] at enough
          omega
        | false =>
          rw [ended, if_neg Bool.false_ne_true] at enough
          have := moves rfl ended
          omega
      have position : last - rest.length + rest.length = last := by omega
      change readBuffer addMailList last fuel
        ((state.withService service).takeRecord addMailList (last - rest.length)) rest = _
      refine (ih position ?_).trans (congrArg some ?_)
      · rw [if_neg (by rw [taken]; exact Bool.false_ne_true)]
        exact enoughLater
      cases rest with
      | nil => exact (bufferEnd_goesOn taken last).trans (bufferEnd_ends ends last).symm
      | cons c later =>
        obtain ⟨notFeed, notReturn⟩ := next c later rfl
        have plain : noEdge (last - (c :: later).length + 1) = false := rfl
        rw [feed_cons plain, feed_cons plain, byte_takeRecord notFeed notReturn ends]

/-- The edges of the buffers of a file of the length. -/
def bufferEdge (total pos : Nat) : Bool := pos % 1024 == 0 || pos == total

lemma readFile_feed (fuel : Nat) (aligned : pos % 1024 = 0) (position : pos + file.length = total)
    (enough : file.length < fuel) :
    readFile addMailList fuel pos state file =
      some (feed addMailList (bufferEdge total) pos state file) := by
  induction fuel generalizing pos state file with
  | zero => exact absurd enough (Nat.not_lt_zero _)
  | succ fuel ih =>
    rw [readFile]
    cases empty : file.isEmpty with
    | true =>
      rw [List.isEmpty_iff.mp empty]
      rfl
    | false =>
      have some_ : file ≠ [] := by simpa using empty
      have length := length_pos_iff.mpr some_
      have taken : (file.take 1024).length = min 1024 file.length := length_take
      have dropped : (file.drop 1024).length = file.length - 1024 := length_drop
      have read : readBuffer addMailList (pos + (file.take 1024).length)
          ((file.take 1024).length + 2) state (file.take 1024) =
          some ((feed addMailList noEdge pos state (file.take 1024)).bufferEnd addMailList
            (pos + (file.take 1024).length)) :=
        readBuffer_feed _ rfl (by split <;> omega)
      rw [if_neg Bool.false_ne_true]
      dsimp only
      rw [read]
      dsimp only
      have buffer : feed addMailList (bufferEdge total) pos state (file.take 1024) =
          (feed addMailList noEdge pos state (file.take 1024)).bufferEnd addMailList
            (pos + (file.take 1024).length) := by
        apply feed_inside
        · exact ne_nil_of_length_pos (by omega)
        · intro q after before
          unfold bufferEdge
          rw [Bool.or_eq_false_iff, beq_eq_false_iff_ne, beq_eq_false_iff_ne]
          omega
        · unfold bufferEdge
          rw [Bool.or_eq_true, beq_iff_eq, beq_iff_eq]
          omega
      have whole : feed addMailList (bufferEdge total) pos state file =
          feed addMailList (bufferEdge total) (pos + (file.take 1024).length)
            (feed addMailList (bufferEdge total) pos state (file.take 1024)) (file.drop 1024) := by
        rw [← feed_append, take_append_drop]
      rw [whole, buffer]
      by_cases more : 1024 < file.length
      · exact ih (by omega) (by omega) (by omega)
      · rw [drop_eq_nil_of_le (by omega), feed]
        cases fuel with
        | zero => omega
        | succ fuel => rfl

end Import

end CommCentral.AddrBook
