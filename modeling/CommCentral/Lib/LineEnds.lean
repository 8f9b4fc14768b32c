import Mathlib.Data.List.Induction
import Mathlib.Tactic.Common

/-! Text in lines that end with CRLF, CR or LF. A CR at the end of the text may be
the first half of a CRLF, so that its line is still open. -/

namespace CommCentral.Lib
open List Option

def CR : UInt8 := 0x0D
def LF : UInt8 := 0x0A

/-- A line ends between two parts of a text: at an LF, or at a CR that something
other than an LF follows. -/
def LineEnd (before after : List UInt8) : Prop :=
  before.getLast? = some LF ∨ before.getLast? = some CR ∧ after ≠ [] ∧ after.head? ≠ some LF

/-- The text cut into lines and an open rest: the ends of the lines are the places
where a line ends. -/
structure CutAtLineEnds (text : List UInt8) (lines : List (List UInt8)) (rest : List UInt8) :
    Prop where
  joined : lines.flatten ++ rest = text
  nonempty : ∀ line ∈ lines, line ≠ []
  ends : ∀ before after, text = before ++ after → before ≠ [] →
    (LineEnd before after ↔ ∃ front back, lines = front ++ back ∧ front ≠ [] ∧
      before = front.flatten)

/-- One more byte behind an open line: the lines that are then complete, and the
line that is open. -/
def takeByte (front : List UInt8) (c : UInt8) : List (List UInt8) × List UInt8 :=
  if c = LF then ([front ++ [c]], [])
  else if front.getLast? = some CR then ([front], [c])
  else ([], front ++ [c])

/-- The lines that a text completes behind an open line, and what stays open. -/
def splitLines : List UInt8 → List UInt8 → List (List UInt8) × List UInt8
  | front, [] => ([], front)
  | front, c :: text =>
    ((takeByte front c).1 ++ (splitLines (takeByte front c).2 text).1,
      (splitLines (takeByte front c).2 text).2)

/-- The length of a text up to the end of its first line; a CR at the end of the text
ends none. -/
def lineLength : List UInt8 → Option Nat
  | [] => none
  | c :: text =>
    if c = CR then text.head?.map fun d => if d = LF then 2 else 1
    else if c = LF then some 1
    else (lineLength text).map (· + 1)

variable {front text more : List UInt8}

lemma splitLines_append (front text more) :
    splitLines front (text ++ more) =
      ((splitLines front text).1 ++ (splitLines (splitLines front text).2 more).1,
        (splitLines (splitLines front text).2 more).2) := by
  induction text generalizing front with
  | nil => rfl
  | cons c text ih => rw [cons_append, splitLines, ih, splitLines, append_assoc]

lemma takeByte_lf (front) : takeByte front LF = ([front ++ [LF]], []) := if_pos rfl

lemma takeByte_open (other : c ≠ LF) (opened : front.getLast? ≠ some CR) :
    takeByte front c = ([], front ++ [c]) := by
  rw [takeByte, if_neg other, if_neg opened]

lemma takeByte_cr (other : c ≠ LF) (ended : front.getLast? = some CR) :
    takeByte front c = ([front], [c]) := by
  rw [takeByte, if_neg other, if_pos ended]

lemma splitLines_pending (ended : front.getLast? = some CR) (some : text ≠ [])
    (other : text.head? ≠ .some LF) :
    splitLines front text = (front :: (splitLines [] text).1, (splitLines [] text).2) := by
  cases text with
  | nil => exact absurd rfl some
  | cons c text =>
    have notLf : c ≠ LF := fun same => other (congrArg Option.some same)
    rw [splitLines, splitLines, takeByte_cr notLf ended, takeByte_open notLf (by simp)]
    rfl

lemma splitLines_line (found : lineLength text = some n)
    (opened : front.getLast? = some CR → text.head? = some LF) :
    splitLines front text =
      ((front ++ text.take n) :: (splitLines [] (text.drop n)).1,
        (splitLines [] (text.drop n)).2) := by
  induction text generalizing front n with
  | nil => cases found
  | cons c text ih =>
    rw [lineLength] at found
    by_cases isCr : c = CR
    · subst isCr
      have notEnded : front.getLast? ≠ some CR := by
        intro ended
        cases opened ended
      rw [if_pos rfl] at found
      rw [splitLines, takeByte_open (by decide) notEnded]
      cases text with
      | nil => cases found
      | cons d text =>
        cases found
        by_cases isLf : d = LF
        · subst isLf
          rw [splitLines, takeByte_lf]
          simp
        · have notHead : (d :: text).head? ≠ some LF := by simpa using isLf
          rw [splitLines_pending (by simp) (by simp) notHead]
          simp [isLf]
    · rw [if_neg isCr] at found
      by_cases isLf : c = LF
      · subst isLf
        rw [if_pos rfl] at found
        cases found
        rw [splitLines, takeByte_lf]
        rfl
      · rw [if_neg isLf] at found
        obtain ⟨m, found', rfl⟩ := map_eq_some_iff.mp found
        have notEnded : front.getLast? ≠ some CR := by
          intro ended
          exact isLf (Option.some.inj (opened ended))
        rw [splitLines, takeByte_open isLf notEnded, ih found' (by simp [isCr])]
        simp

lemma splitLines_none (missing : lineLength text = none)
    (opened : front.getLast? = some CR → text = []) :
    splitLines front text = ([], front ++ text) := by
  induction text generalizing front with
  | nil => rw [splitLines, append_nil]
  | cons c text ih =>
    have notEnded : front.getLast? ≠ some CR := by
      intro ended
      cases opened ended
    rw [lineLength] at missing
    by_cases isCr : c = CR
    · subst isCr
      cases text with
      | nil => rw [splitLines, takeByte_open (by decide) notEnded]; rfl
      | cons d text => cases missing
    · rw [if_neg isCr] at missing
      by_cases isLf : c = LF
      · rw [if_pos isLf] at missing
        cases missing
      · rw [if_neg isLf, map_eq_none_iff] at missing
        rw [splitLines, takeByte_open isLf notEnded, ih missing (by simp [isCr])]
        simp

lemma lineLength_le (found : lineLength text = some n) : 0 < n ∧ n ≤ text.length := by
  induction text generalizing n with
  | nil => cases found
  | cons c text ih =>
    rw [lineLength] at found
    by_cases isCr : c = CR
    · rw [if_pos isCr] at found
      cases text with
      | nil => cases found
      | cons d text =>
        cases found
        simp only [length_cons]
        split <;> omega
    · rw [if_neg isCr] at found
      by_cases isLf : c = LF
      · rw [if_pos isLf] at found
        cases found
        simp
      · rw [if_neg isLf] at found
        obtain ⟨m, found', rfl⟩ := map_eq_some_iff.mp found
        have bound := ih found'
        simp only [length_cons]
        omega

lemma lineLength_last (found : lineLength text = some n) :
    (text.take n).getLast? = some LF ∨ (text.take n).getLast? = some CR := by
  induction text generalizing n with
  | nil => cases found
  | cons c text ih =>
    rw [lineLength] at found
    by_cases isCr : c = CR
    · rw [if_pos isCr] at found
      cases text with
      | nil => cases found
      | cons d text =>
        cases found
        by_cases isLf : d = LF
        · simp [isLf]
        · simp [isLf, isCr]
    · rw [if_neg isCr] at found
      by_cases isLf : c = LF
      · rw [if_pos isLf] at found
        cases found
        simp [isLf]
      · rw [if_neg isLf] at found
        obtain ⟨m, found', rfl⟩ := map_eq_some_iff.mp found
        have bound := lineLength_le found'
        have some : text.take m ≠ [] := by
          intro nothing
          have lengths := congrArg List.length nothing
          rw [length_take, length_nil] at lengths
          omega
        rw [take_succ_cons, getLast?_cons_of_ne_nil some]
        exact ih found'

lemma splitLines_concat (front text) (c : UInt8) :
    splitLines front (text ++ [c]) =
      ((splitLines front text).1 ++ (takeByte (splitLines front text).2 c).1,
        (takeByte (splitLines front text).2 c).2) := by
  rw [splitLines_append]
  simp [splitLines]

section
variable {before after : List UInt8}

lemma lineEnd_nil : LineEnd before [] ↔ before.getLast? = some LF := by
  simp [LineEnd]

/-- The byte behind a nonempty text is not next to its front. -/
theorem lineEnd_concat (some : after ≠ []) (c : UInt8) :
    LineEnd before (after ++ [c]) ↔ LineEnd before after := by
  cases after with
  | nil => exact absurd rfl some
  | cons d after => simp [LineEnd]

lemma lineEnd_singleton :
    LineEnd before [c] ↔ before.getLast? = some LF ∨ before.getLast? = some CR ∧ c ≠ LF := by
  simp [LineEnd]

def EndOf (lines : List (List UInt8)) (before : List UInt8) : Prop :=
  ∃ front back, lines = front ++ back ∧ front ≠ [] ∧ before = front.flatten

lemma endOf_concat (lines) (line before) :
    EndOf (lines ++ [line]) before ↔
      EndOf lines before ∨ before = (lines ++ [line]).flatten := by
  constructor
  · rintro ⟨front, back, whole, some, same⟩
    obtain nothing | ⟨back', last, rfl⟩ := eq_nil_or_concat back
    · rw [nothing, append_nil] at whole
      exact .inr (by rw [same, whole])
    · rw [concat_eq_append, ← append_assoc] at whole
      obtain ⟨lines', -⟩ := append_inj' whole rfl
      exact .inl ⟨front, back', lines', some, same⟩
  · rintro (⟨front, back, rfl, some, same⟩ | same)
    · exact ⟨front, back ++ [line], append_assoc .., some, same⟩
    · exact ⟨lines ++ [line], [], (append_nil _).symm, by simp, same⟩

lemma EndOf.length_le {lines : List (List UInt8)} (ended : EndOf lines before) :
    before.length ≤ lines.flatten.length := by
  obtain ⟨front, back, rfl, -, rfl⟩ := ended
  rw [flatten_append, length_append]
  exact Nat.le_add_right ..

end

lemma getLast?_append_nonempty (some : rest ≠ []) (front) :
    (front ++ rest).getLast? = rest.getLast? := by
  rw [getLast?_append, getLast?_eq_some_getLast some]
  rfl

lemma CutAtLineEnds.rest_cr {lines : List (List UInt8)} (cut : CutAtLineEnds text lines rest)
    (ended : text.getLast? = some CR) : rest.getLast? = some CR := by
  have joined := cut.joined
  by_cases nothing : rest = []
  · have some : text ≠ [] := by
      rintro rfl
      cases ended
    rw [nothing, append_nil] at joined
    have notEmpty : lines ≠ [] := by
      rintro rfl
      exact some joined.symm
    have ends := (cut.ends text [] (append_nil _).symm some).mpr
      ⟨lines, [], (append_nil _).symm, notEmpty, joined.symm⟩
    rw [lineEnd_nil, ended] at ends
    cases ends
  · rw [← joined, getLast?_append_nonempty nothing] at ended
    exact ended

/-- What an end is, one byte further. -/
theorem CutAtLineEnds.concat {lines more : List (List UInt8)} (cut : CutAtLineEnds text lines rest)
    (joined : (lines ++ more).flatten ++ rest' = text ++ [c]) (nonempty : ∀ line ∈ more, line ≠ [])
    (atEnd : c = LF ↔ EndOf (lines ++ more) (text ++ [c])) (inside : ∀ before after, text = before
      ++ after → before ≠ [] → ((LineEnd before (after ++ [c]) ↔ LineEnd before after) ∧ (EndOf
      (lines ++ more) before ↔ EndOf lines before)) ∨ LineEnd before (after ++ [c]) ∧ EndOf (lines
      ++ more) before) : CutAtLineEnds (text ++ [c]) (lines ++ more) rest' := by
  refine ⟨joined, ?_, ?_⟩
  · intro line mem
    obtain old | new := mem_append.mp mem
    · exact cut.nonempty line old
    · exact nonempty line new
  · intro before after whole some
    obtain rfl | ⟨after', last, rfl⟩ := eq_nil_or_concat after
    · rw [append_nil] at whole
      rw [← whole, lineEnd_nil, getLast?_concat, Option.some.injEq]
      exact atEnd
    · rw [concat_eq_append, ← append_assoc] at whole
      obtain ⟨front, same⟩ := append_inj' whole rfl
      cases same
      rw [concat_eq_append]
      obtain ⟨lineEnds, ends⟩ | ⟨lineEnds, ends⟩ := inside before after' front some
      · exact lineEnds.trans ((cut.ends before after' front some).trans ends.symm)
      · exact ⟨fun _ => ends, fun _ => lineEnds⟩

lemma splitLines_cut (text : List UInt8) :
    CutAtLineEnds text (splitLines [] text).1 (splitLines [] text).2 := by
  induction text using List.reverseRecOn with
  | nil =>
    refine ⟨rfl, by simp [splitLines], ?_⟩
    intro before after whole some
    exact absurd (append_eq_nil_iff.mp whole.symm).1 some
  | append_singleton text c ih =>
    rw [splitLines_concat]
    generalize (splitLines [] text).1 = lines at ih
    generalize (splitLines [] text).2 = rest at ih
    have joined := ih.joined
    have bound : ∀ before, EndOf lines before → before.length ≤ text.length := by
      intro before ended
      have short := ended.length_le
      rw [← joined, length_append]
      omega
    have long : ¬ EndOf lines (text ++ [c]) := by
      intro ended
      have short := bound _ ended
      rw [length_append, length_singleton] at short
      omega
    by_cases isLf : c = LF
    · subst isLf
      rw [takeByte_lf]
      have whole : (lines ++ [rest ++ [LF]]).flatten = text ++ [LF] := by
        rw [← joined]
        simp
      apply ih.concat
      · rw [whole, append_nil]
      · simp
      · rw [endOf_concat, whole]
        simp
      · intro before after split some
        refine .inl ⟨?_, ?_⟩
        · by_cases nothing : after = []
          · rw [nothing, nil_append, lineEnd_singleton, lineEnd_nil]
            simp
          · exact lineEnd_concat nothing LF
        · rw [endOf_concat, whole, or_iff_left]
          intro same
          have lengths := congrArg List.length same
          rw [split, length_append, length_append, length_singleton] at lengths
          omega
    · by_cases ended : rest.getLast? = some CR
      · rw [takeByte_cr isLf ended]
        have nonempty : rest ≠ [] := by
          rintro rfl
          cases ended
        have whole : (lines ++ [rest]).flatten = text := by
          rw [← joined]
          simp
        have textEnds : text.getLast? = some CR := by
          rw [← joined, getLast?_append_nonempty nonempty, ended]
        apply ih.concat
        · rw [whole]
        · simpa using nonempty
        · rw [endOf_concat, whole]
          simp [isLf, long]
        · intro before after split some
          by_cases nothing : after = []
          · rw [nothing, append_nil] at split
            subst split
            refine .inr ⟨?_, ?_⟩
            · rw [nothing, nil_append, lineEnd_singleton]
              exact .inr ⟨textEnds, isLf⟩
            · rw [endOf_concat, whole]
              exact .inr rfl
          · refine .inl ⟨lineEnd_concat nothing c, ?_⟩
            rw [endOf_concat, whole, or_iff_left]
            intro same
            apply nothing
            rw [← same] at split
            simpa using split
      · rw [takeByte_open isLf ended, append_nil]
        have notEnds : text.getLast? ≠ some CR := fun last => ended (ih.rest_cr last)
        have same : lines = lines ++ [] := (append_nil _).symm
        rw [same]
        apply ih.concat
        · rw [append_nil, ← append_assoc, joined]
        · simp
        · rw [append_nil]
          simp [isLf, long]
        · intro before after split some
          refine .inl ⟨?_, by rw [append_nil]⟩
          by_cases nothing : after = []
          · rw [nothing, append_nil] at split
            rw [nothing, nil_append, lineEnd_singleton, lineEnd_nil, ← split]
            simp [notEnds]
          · exact lineEnd_concat nothing c

end CommCentral.Lib
