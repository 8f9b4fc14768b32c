import CommCentral.AddrBook.LdifFile
import Mathlib.Data.List.Forall2

/-! How the buffer of the service fills with a record. -/
namespace CommCentral.AddrBook
open List

/-- Line breaks with no two carriage returns in a row, behind a carriage return or not, and whether
the last of them is one. -/
inductive BreakRun : Bool → Bytes → Bool → Prop where
  | nil (after : Bool) : BreakRun after [] after
  | feed {after last : Bool} {rest : Bytes} (later : BreakRun false rest last) :
      BreakRun after (LF :: rest) last
  | carriageReturn {last : Bool} {rest : Bytes} (later : BreakRun true rest last) :
      BreakRun false (CR :: rest) last

namespace BreakRun

lemma breaks (lineEnd : LineEnd) (count : Nat) : BreakRun false (lineEnd.breaks count) false := by
  induction count with
  | zero => exact .nil false
  | succ count ih =>
    cases lineEnd with
    | lf => exact .feed ih
    | crlf => exact .carriageReturn (.feed ih)

lemma split {after last : Bool} (bytes) (run : BreakRun after (bytes ++ later) last) :
    ∃ middle, BreakRun after bytes middle ∧ BreakRun middle later last := by
  induction bytes generalizing after with
  | nil => exact ⟨after, .nil after, run⟩
  | cons c bytes ih =>
    cases run with
    | feed run =>
      obtain ⟨middle, first, second⟩ := ih run
      exact ⟨middle, .feed first, second⟩
    | carriageReturn run =>
      obtain ⟨middle, first, second⟩ := ih run
      exact ⟨middle, .carriageReturn first, second⟩

end BreakRun

lemma count_breaks (lineEnd : LineEnd) (count : Nat) :
    (lineEnd.breaks count).count LF = count := by
  induction count with
  | zero => rfl
  | succ count ih =>
    rw [LineEnd.breaks, replicate_succ, flatten_cons, count_append]
    change _ + (lineEnd.breaks count).count LF = _
    rw [ih]
    cases lineEnd <;> exact Nat.add_comm 1 count

namespace LdifService

lemma recordEnds_eq {service : LdifService} (balanced : service.mCRCount ≤ service.mLFCount + 1) :
    service.recordEnds = decide (1 < service.mLFCount) := by
  unfold recordEnds
  by_cases two : 1 < service.mLFCount
  · simp [two]
  · have few : ¬ 2 < service.mCRCount := by omega
    simp [two, few]
    omega

lemma isClear_iff {service : LdifService} (balanced : service.mCRCount ≤ service.mLFCount) :
    service.IsClear ↔ service.mLFCount = 0 := by
  unfold IsClear
  omega

end LdifService

/-- The line feed that stays in front of a record. -/
def opening (pending : Nat) : Bytes := if pending = 1 then [LF] else []

/-- Bytes that the service goes through without the end of a record. -/
inductive Collects : LdifService → Bytes → LdifService → Prop where
  | nil (service : LdifService) : Collects service [] service
  | plain {service ended : LdifService} {c : UInt8} {rest : Bytes} (clear : service.IsClear)
      (notFeed : c ≠ LF) (notReturn : c ≠ CR) (later : Collects (service.append c) rest ended) :
      Collects service (c :: rest) ended
  | opens {service ended : LdifService} {c : UInt8} {rest : Bytes} (one : service.mLFCount = 1)
      (few : service.mCRCount ≤ 1) (notFeed : c ≠ LF) (notReturn : c ≠ CR)
      (later : Collects { mLdifLine := service.mLdifLine ++ [LF, c] } rest ended) :
      Collects service (c :: rest) ended
  | feed {service ended : LdifService} {rest : Bytes}
      (goesOn : { service with mLFCount := service.mLFCount + 1 }.recordEnds = false)
      (later : Collects { service with mLFCount := service.mLFCount + 1 } rest ended) :
      Collects service (LF :: rest) ended
  | carriageReturn {service ended : LdifService} {rest : Bytes}
      (goesOn : { service with mCRCount := service.mCRCount + 1 }.recordEnds = false)
      (later : Collects { service with mCRCount := service.mCRCount + 1 } rest ended) :
      Collects service (CR :: rest) ended

namespace Collects

lemma append {bytes later : Bytes} (first : Collects service bytes middle)
    (second : Collects middle later ended) : Collects service (bytes ++ later) ended := by
  induction first with
  | nil => exact second
  | plain clear notFeed notReturn _ ih => exact .plain clear notFeed notReturn (ih second)
  | opens one few notFeed notReturn _ ih => exact .opens one few notFeed notReturn (ih second)
  | feed goesOn _ ih => exact .feed goesOn (ih second)
  | carriageReturn goesOn _ ih => exact .carriageReturn goesOn (ih second)

variable {service : LdifService}

lemma goesOn_opens (one : service.mLFCount = 1)
    (few : service.mCRCount ≤ 1) : service.recordEnds = false ∧ ¬ service.IsClear := by
  constructor
  · rw [LdifService.recordEnds_eq (by omega), one]
    rfl
  · intro clear
    exact absurd (one.symm.trans clear.1) (by decide)

lemma getLdifStringRecord {bytes : Bytes} (collects : Collects service bytes ended) (rest) :
    service.getLdifStringRecord (bytes ++ rest) = ended.getLdifStringRecord rest := by
  induction collects with
  | nil => rfl
  | @plain service _ _ _ clear notFeed notReturn _ ih =>
    have both : service.mLFCount = 0 ∧ service.mCRCount = 0 := clear
    rw [cons_append, LdifService.getLdifStringRecord, if_neg notFeed, if_neg notReturn,
      if_pos both]
    exact ih
  | @opens service _ _ _ one few notFeed notReturn _ ih =>
    obtain ⟨goesOn, notClear⟩ := goesOn_opens one few
    have some_ : ¬ (service.mLFCount = 0 ∧ service.mCRCount = 0) := notClear
    rw [cons_append, LdifService.getLdifStringRecord, if_neg notFeed, if_neg notReturn,
      if_neg some_, goesOn, if_neg Bool.false_ne_true, if_pos (.inl one)]
    exact ih
  | feed _ _ ih =>
    rw [cons_append, LdifService.getLdifStringRecord, if_pos rfl]
    exact ih
  | carriageReturn _ _ ih =>
    rw [cons_append, LdifService.getLdifStringRecord, if_neg (by decide), if_pos rfl]
    exact ih

lemma feed_eq {addMailList : Nat → Bool} {edge : Nat → Bool} {bytes : Bytes}
    (collects : Collects service bytes ended) (pos : Nat) (state : Import) :
    Import.feed addMailList edge pos (state.withService service) bytes =
      state.withService ended := by
  have step : ∀ (pos : Nat) (c : UInt8) (before next : LdifService) (rest : Bytes),
      next.recordEnds = false →
      (state.withService before).byte addMailList pos c = state.withService next →
      Import.feed addMailList edge pos (state.withService before) (c :: rest) =
        Import.feed addMailList edge (pos + 1) (state.withService next) rest := by
    intro pos c before next rest goesOn byte
    have quiet : (state.withService next).service.recordEnds = false := goesOn
    rw [Import.feed, byte, Import.bufferEnd_goesOn quiet, ite_self]
  induction collects generalizing pos with
  | nil => rfl
  | @plain service _ c _ clear notFeed notReturn _ ih =>
    have next : (service.append c).IsClear := clear
    have inside : (state.withService service).service.IsClear := clear
    rw [step pos c service (service.append c) _ next.recordEnds, ih]
    rw [Import.byte, if_neg notFeed, if_neg notReturn, if_pos inside]
    rfl
  | @opens service _ c _ one few notFeed notReturn _ ih =>
    obtain ⟨goesOn, notClear⟩ := goesOn_opens one few
    have inside : ¬ (state.withService service).service.IsClear := notClear
    have quiet : (state.withService service).service.recordEnds = false := goesOn
    rw [step pos c service { mLdifLine := service.mLdifLine ++ [LF, c] } _ rfl, ih]
    rw [Import.byte, if_neg notFeed, if_neg notReturn, if_neg inside, quiet,
      if_neg Bool.false_ne_true, if_pos (.inl one)]
    rfl
  | @feed service _ _ goesOn _ ih => rw [step pos LF service _ _ goesOn rfl, ih]
  | @carriageReturn service _ _ goesOn _ ih => rw [step pos CR service _ _ goesOn rfl, ih]

lemma plains (clear : service.IsClear) {bytes : Bytes}
    (plain : ∀ c ∈ bytes, c ≠ LF ∧ c ≠ CR) :
    Collects service bytes { service with mLdifLine := service.mLdifLine ++ bytes } := by
  induction bytes generalizing service with
  | nil =>
    rw [append_nil]
    exact .nil service
  | cons c bytes ih =>
    obtain ⟨⟨notFeed, notReturn⟩, plain⟩ := forall_mem_cons.mp plain
    have next : (service.append c).IsClear := clear
    have later := ih next plain
    rw [LdifService.append, append_assoc] at later
    exact .plain clear notFeed notReturn later

lemma line (balanced : service.mCRCount ≤ service.mLFCount)
    (few : service.mLFCount ≤ 1) {line : Bytes} (isLine : IsLine line) :
    Collects service line
      { mLdifLine := service.mLdifLine ++ opening service.mLFCount ++ line } := by
  by_cases one : service.mLFCount = 1
  · cases line with
    | nil => exact absurd rfl isLine.1
    | cons c rest =>
      obtain ⟨_, notFeed, notReturn⟩ := isLine.2 c mem_cons_self
      apply Collects.opens one (by omega) notFeed notReturn
      have clear : ({ mLdifLine := service.mLdifLine ++ [LF, c] } : LdifService).IsClear := ⟨rfl, rfl⟩
      have later := plains clear fun d mem => (isLine.2 d (mem_cons_of_mem c mem)).2
      simpa [opening, one] using later
  · have clear : service.IsClear := ⟨by omega, by omega⟩
    have whole := plains clear fun d mem => (isLine.2 d mem).2
    rw [opening, if_neg one, append_nil]
    have zero : service = { mLdifLine := service.mLdifLine } := by
      cases service
      simp only [LdifService.IsClear] at clear
      rw [clear.1, clear.2]
    rw [zero] at whole ⊢
    exact whole

lemma lineEnd (lineEnd : LineEnd) (line : Bytes) : ∃ returns ≤ 1,
    Collects { mLdifLine := line } lineEnd.bytes
      { mLdifLine := line, mLFCount := 1, mCRCount := returns } := by
  cases lineEnd with
  | lf => exact ⟨0, Nat.zero_le 1, .feed rfl (.nil _)⟩
  | crlf => exact ⟨1, Nat.le_refl 1, .carriageReturn rfl (.feed rfl (.nil _))⟩

lemma lines (lineEnd : LineEnd) {lines : List Bytes} (begun : lines ≠ [])
    (isLine : ∀ line ∈ lines, IsLine line) (balanced : service.mCRCount ≤ service.mLFCount)
    (few : service.mLFCount ≤ 1) :
    Collects service (lineEnd.bytes.intercalate lines)
      { mLdifLine :=
          service.mLdifLine ++ opening service.mLFCount ++ [LF].intercalate lines } := by
  induction lines generalizing service with
  | nil => exact absurd rfl begun
  | cons first lines ih =>
    obtain ⟨here, isLine⟩ := forall_mem_cons.mp isLine
    have start := Collects.line balanced few here
    cases lines with
    | nil =>
      rw [intercalate_singleton, intercalate_singleton]
      exact start
    | cons next lines =>
      obtain ⟨returns, atMost, ended⟩ :=
        Collects.lineEnd lineEnd (service.mLdifLine ++ opening service.mLFCount ++ first)
      have later := (start.append ended).append
        (ih (cons_ne_nil _ _) isLine atMost (Nat.le_refl 1))
      simpa [opening, intercalate_cons_cons] using later

lemma body (lineEnd : LineEnd) (record : LdifRecord)
    (balanced : service.mCRCount ≤ service.mLFCount) (few : service.mLFCount ≤ 1) :
    Collects service (record.body lineEnd)
      { mLdifLine := service.mLdifLine ++ opening service.mLFCount ++ record.text } :=
  lines lineEnd record.begun record.isLine balanced few

end Collects

/-- The lines of a record that go to `str_parse_line`. -/
def handedLines : LdifRecord × Nat → List Bytes
  | (record, pending) => if pending = 1 then [] else logicalLines record.lines

variable (record : LdifRecord)

lemma recordLines_opening (pending : Nat) :
    recordLines (opening pending ++ record.text) = handedLines (record, pending) := by
  change _ = if pending = 1 then [] else logicalLines record.lines
  unfold opening
  split
  · change ldifLines (record.text.length + 1) (LF :: record.text.takeWhile (· != 0)) = []
    rw [ldifLines, if_pos rfl]
  · exact recordLines_text record

lemma findGroupOfNames_opening (pending : Nat) :
    findGroupOfNames (opening pending ++ record.text) = record.isList := by
  unfold opening LdifRecord.isList findGroupOfNames
  split
  · rfl
  · rfl

lemma text_ne_nil : record.text ≠ [] := by
  intro nothing
  cases lines : record.lines with
  | nil => exact record.begun lines
  | cons line more =>
    have isLine := record.isLine line (by rw [lines]; exact mem_cons_self)
    rw [LdifRecord.text, lines, intercalate_cons] at nothing
    exact isLine.1 (append_eq_nil_iff.mp nothing).1

lemma getLdifStringRecord_breaks {after last : Bool} {bytes : Bytes}
    (run : BreakRun after bytes last) (service : LdifService)
    (balanced : service.mCRCount ≤ service.mLFCount + after.toNat) : ∃ returns,
    returns ≤ service.mLFCount + bytes.count LF + last.toNat ∧
    service.getLdifStringRecord bytes =
      (decide (1 < service.mLFCount + bytes.count LF),
        { service with mLFCount := service.mLFCount + bytes.count LF, mCRCount := returns }, []) := by
  induction run generalizing service with
  | nil after =>
    refine ⟨service.mCRCount, balanced, ?_⟩
    have ends := LdifService.recordEnds_eq
      (balanced.trans (Nat.add_le_add_left (Bool.toNat_le after) _))
    rw [LdifService.getLdifStringRecord, ends]
    rfl
  | @feed after last rest _ ih =>
    obtain ⟨returns, few, got⟩ := ih { service with mLFCount := service.mLFCount + 1 } (by
      have := Bool.toNat_le after
      simp only [Bool.toNat_false]
      omega)
    refine ⟨returns, ?_, ?_⟩
    · rw [count_cons_self]
      simp only at few
      omega
    · rw [LdifService.getLdifStringRecord, if_pos rfl, got, count_cons_self]
      simp only [Nat.add_assoc, Nat.add_comm 1]
  | @carriageReturn last rest _ ih =>
    obtain ⟨returns, few, got⟩ := ih { service with mCRCount := service.mCRCount + 1 }
      (Nat.succ_le_succ balanced)
    refine ⟨returns, ?_, ?_⟩
    · rw [count_cons_of_ne (by decide)]
      exact few
    · rw [LdifService.getLdifStringRecord, if_neg (by decide), if_pos rfl, got,
        count_cons_of_ne (by decide)]

end CommCentral.AddrBook
