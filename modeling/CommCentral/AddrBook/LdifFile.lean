import CommCentral.AddrBook.LdifBuffers
import Mathlib.Data.List.TakeWhile

/-! LDIF files as records between blank lines, and where the line breaks before a record are cut by
the end of a buffer. -/
namespace CommCentral.AddrBook
open List

inductive LineEnd where
  | lf
  | crlf

def LineEnd.bytes : LineEnd → Bytes
  | .lf => [LF]
  | .crlf => [CR, LF]

def LineEnd.breaks (lineEnd : LineEnd) (count : Nat) : Bytes :=
  (List.replicate count lineEnd.bytes).flatten

/-- A line without its end. -/
def IsLine (line : Bytes) : Prop := line ≠ [] ∧ ∀ c ∈ line, c ≠ 0 ∧ c ≠ LF ∧ c ≠ CR

instance (line : Bytes) : Decidable (IsLine line) := inferInstanceAs (Decidable (_ ∧ _))

/-- A record and the number of line ends behind it. With two or more it ends in a blank line. -/
structure LdifRecord where
  lines : List Bytes
  breaks : Nat
  begun : lines ≠ []
  isLine : ∀ line ∈ lines, IsLine line

namespace LdifRecord

def body (lineEnd : LineEnd) (record : LdifRecord) : Bytes := lineEnd.bytes.intercalate record.lines

/-- The lines as they are collected. -/
def text (record : LdifRecord) : Bytes := [LF].intercalate record.lines

def isList (record : LdifRecord) : Bool := findGroupOfNames record.text

end LdifRecord

/-- A line that begins with white space continues the line before it. -/
def continueLine (line : Bytes) : List Bytes → List Bytes
  | [] => [line]
  | next :: later =>
    match next with
    | c :: rest =>
      if isSpace c then (line ++ continuedLineMarker :: continuedLineMarker :: rest) :: later
      else line :: next :: later
    | [] => line :: next :: later

/-- The lines of a record, with those that continue others put behind them. -/
def logicalLines : List Bytes → List Bytes
  | [] => []
  | line :: lines => continueLine line (logicalLines lines)

/-- All records but the last are followed by a blank line. -/
def Separated : List LdifRecord → Prop
  | [] => True
  | [_] => True
  | record :: next :: records => 2 ≤ record.breaks ∧ Separated (next :: records)

/-- An LDIF file with `leading` blank lines. -/
structure LdifFile where
  lineEnd : LineEnd
  leading : Nat
  records : List LdifRecord
  separated : Separated records

def recordsBytes (lineEnd : LineEnd) (records : List LdifRecord) : Bytes :=
  records.flatMap fun record => record.body lineEnd ++ lineEnd.breaks record.breaks

def LdifFile.bytes (file : LdifFile) : Bytes :=
  file.lineEnd.breaks file.leading ++ recordsBytes file.lineEnd file.records

lemma strGetline_cons (noFeed : c ≠ LF) (rest) :
    strGetline (c :: rest) = (c :: (strGetline rest).1, (strGetline rest).2) := by
  cases rest with
  | nil => exact if_neg noFeed
  | cons d rest => rw [strGetline, if_neg noFeed]

lemma strGetline_append {line : Bytes} (noFeed : LF ∉ line) (rest) :
    strGetline (line ++ rest) = (line ++ (strGetline rest).1, (strGetline rest).2) := by
  induction line with
  | nil => rfl
  | cons c line ih =>
    obtain ⟨other, noFeed⟩ := ne_and_not_mem_of_not_mem_cons noFeed
    rw [cons_append, strGetline_cons other.symm, ih noFeed]
    rfl

lemma IsLine.noFeed {line : Bytes} (isLine : IsLine line) : LF ∉ line := by
  intro mem
  exact (isLine.2 LF mem).2.1 rfl

lemma intercalate_cons (separator line : Bytes) (lines) :
    separator.intercalate (line :: lines) = line ++ lines.flatMap (separator ++ ·) := by
  induction lines generalizing line with
  | nil => rw [intercalate_singleton, flatMap_nil, append_nil]
  | cons next lines ih => rw [intercalate_cons_cons, ih, flatMap_cons, append_assoc, append_assoc]

/-- `str_getline` goes on over the lines that continue one, whatever comes first on it. -/
theorem strGetline_continued {lines : List Bytes} (isLine : ∀ line ∈ lines, IsLine line) :
    ∃ more later, later <:+ lines ∧
      (∀ start, LF ∉ start → strGetline (start ++ lines.flatMap ([LF] ++ ·)) =
        (start ++ more, [LF].intercalate later)) ∧
      ∀ line, logicalLines (line :: lines) = (line ++ more) :: logicalLines later := by
  induction lines with
  | nil =>
    refine ⟨[], [], suffix_rfl, ?_, ?_⟩
    · intro start noFeed
      rw [flatMap_nil, strGetline_append noFeed]
      rfl
    · intro line
      rw [append_nil]
      rfl
  | cons next lines ih =>
    obtain ⟨here, isLine⟩ := forall_mem_cons.mp isLine
    obtain ⟨more, later, suffix, got, logical⟩ := ih isLine
    cases next with
    | nil => exact absurd rfl here.1
    | cons c rest =>
      have noFeed : c ≠ LF := (here.2 c mem_cons_self).2.1
      have noFeedRest : LF ∉ rest := (ne_and_not_mem_of_not_mem_cons here.noFeed).2
      by_cases continues : isSpace c = true
      · refine ⟨continuedLineMarker :: continuedLineMarker :: (rest ++ more), later,
          suffix.trans (suffix_cons _ _), ?_, ?_⟩
        · intro start noFeedStart
          have space : (isSpace c && c != LF) = true := by simp [continues, noFeed]
          have continued : strGetline ([LF] ++ c :: rest ++ lines.flatMap ([LF] ++ ·)) =
              (continuedLineMarker :: continuedLineMarker :: (rest ++ more),
                [LF].intercalate later) := by
            change strGetline (LF :: c :: (rest ++ _)) = _
            rw [strGetline, if_pos rfl, space, if_pos rfl, got rest noFeedRest]
          rw [flatMap_cons, strGetline_append noFeedStart, continued]
        · intro line
          rw [logicalLines, logical]
          simp only [continueLine, cons_append, continues, if_true]
      · refine ⟨[], (c :: rest) :: lines, suffix_rfl, ?_, ?_⟩
        · intro start noFeedStart
          have space : (isSpace c && c != LF) = false := by simp [continues]
          have ended : strGetline ([LF] ++ c :: rest ++ lines.flatMap ([LF] ++ ·)) =
              ([], [LF].intercalate ((c :: rest) :: lines)) := by
            rw [intercalate_cons]
            change strGetline (LF :: c :: (rest ++ _)) = _
            rw [strGetline, if_pos rfl, space, if_neg Bool.false_ne_true]
            rfl
          rw [flatMap_cons, strGetline_append noFeedStart, ended]
        · intro line
          rw [logicalLines, logical]
          simp only [continueLine, cons_append, continues, if_false, append_nil,
            Bool.false_eq_true]

lemma strGetline_length (text) : text = [] ∨ (strGetline text).2.length < text.length := by
  fun_induction strGetline text with
  | case1 => exact .inl rfl
  | case2 | case3 => exact .inr (Nat.succ_pos _)
  | case4 d rest space line next got ih =>
    right
    rw [got] at ih
    rcases ih with rfl | shorter
    · have nothing : strGetline [] = ([], []) := rfl
      cases nothing.symm.trans got
      exact Nat.succ_pos _
    · dsimp only at shorter
      simp only [length_cons]
      omega
  | case5 d rest space => exact .inr (Nat.lt_succ_self _)
  | case6 c d rest noFeed line next got ih =>
    right
    rw [got] at ih
    rcases ih with none | shorter
    · exact absurd none (cons_ne_nil _ _)
    · exact Nat.lt_succ_of_lt shorter

lemma ldifLines_intercalate (fuel : Nat) {lines : List Bytes}
    (isLine : ∀ line ∈ lines, IsLine line) (enough : ([LF].intercalate lines).length ≤ fuel) :
    ldifLines fuel ([LF].intercalate lines) = logicalLines lines := by
  induction fuel generalizing lines with
  | zero =>
    cases lines with
    | nil => rfl
    | cons line lines =>
      have here := (isLine line mem_cons_self).1
      rw [intercalate_cons, length_append] at enough
      exact absurd (length_pos_iff.mpr here) (by omega)
  | succ fuel ih =>
    cases lines with
    | nil => rfl
    | cons line lines =>
      obtain ⟨here, isLines⟩ := forall_mem_cons.mp isLine
      obtain ⟨more, later, suffix, got, logical⟩ := strGetline_continued isLines
      have got := got line here.noFeed
      have text := intercalate_cons [LF] line lines
      rw [← text] at got
      have shorter := strGetline_length ([LF].intercalate (line :: lines))
      rw [logical]
      cases line with
      | nil => exact absurd rfl here.1
      | cons c rest =>
        have noFeed : c ≠ LF := (here.2 c mem_cons_self).2.1
        rw [text] at got shorter enough ⊢
        rw [got] at shorter
        have shorter := shorter.resolve_left (cons_ne_nil _ _)
        dsimp only at shorter
        rw [← ih (fun line mem => isLines line (suffix.subset mem)) (by omega)]
        change ldifLines (fuel + 1) (c :: (rest ++ _)) = _
        rw [ldifLines, if_neg noFeed]
        change (strGetline (c :: rest ++ _)).1 :: ldifLines fuel (strGetline (c :: rest ++ _)).2 = _
        rw [got]

lemma mem_intercalate {separator : Bytes} {lines : List Bytes}
    (mem : c ∈ separator.intercalate lines) : c ∈ separator ∨ ∃ line ∈ lines, c ∈ line := by
  cases lines with
  | nil => exact absurd mem not_mem_nil
  | cons line lines =>
    rw [intercalate_cons] at mem
    rcases mem_append.mp mem with inside | inside
    · exact .inr ⟨line, mem_cons_self, inside⟩
    · obtain ⟨next, listed, inside⟩ := mem_flatMap.mp inside
      rcases mem_append.mp inside with separates | inside
      · exact .inl separates
      · exact .inr ⟨next, mem_cons_of_mem _ listed, inside⟩

/-- The lines of a record are handed on as they stand, continued lines in one. -/
theorem recordLines_text (record : LdifRecord) :
    recordLines record.text = logicalLines record.lines := by
  have noNul : record.text.takeWhile (· != 0) = record.text := by
    rw [takeWhile_eq_self_iff]
    intro c mem
    rcases mem_intercalate mem with separates | ⟨line, listed, inside⟩
    · rw [mem_singleton.mp separates]
      decide
    · exact bne_iff_ne.mpr ((record.isLine line listed).2 c inside).1
  rw [recordLines, noNul]
  exact ldifLines_intercalate _ record.isLine (Nat.le_refl _)

/-- The line feeds counted after the bytes from `pos` on, where a buffer that ends behind two or
more starts the count again. -/
def pendingFeeds (edge : Nat → Bool) : (pos pending : Nat) → Bytes → Nat
  | _, pending, [] => pending
  | pos, pending, c :: rest =>
    let pending := if c = LF then pending + 1 else pending
    pendingFeeds edge (pos + 1) (if edge (pos + 1) && 1 < pending then 0 else pending) rest

/-- Each record with the line feeds counted when it begins. -/
def starts (edge : Nat → Bool) (lineEnd : LineEnd) :
    (pos pending : Nat) → List LdifRecord → List (LdifRecord × Nat)
  | _, _, [] => []
  | pos, pending, record :: records =>
    let ended := pos + (record.body lineEnd).length
    let breaks := lineEnd.breaks record.breaks
    (record, pending) ::
      starts edge lineEnd (ended + breaks.length) (pendingFeeds edge ended 0 breaks) records

/-- The line feeds that are still counted when the last record has been taken before the end of the
file. -/
def staleFeeds (edge : Nat → Bool) (lineEnd : LineEnd) : (pos : Nat) → List LdifRecord → Nat
  | _, [] => 0
  | pos, [record] =>
    if 2 ≤ record.breaks then
      pendingFeeds edge (pos + (record.body lineEnd).length) 0 (lineEnd.breaks record.breaks)
    else 0
  | pos, record :: next :: records =>
    staleFeeds edge lineEnd
      (pos + (record.body lineEnd).length + (lineEnd.breaks record.breaks).length) (next :: records)

/-- The lists that the second pass reads: the last record is none without a blank line behind it. -/
def keptLists : List (LdifRecord × Nat) → List (LdifRecord × Nat)
  | [] => []
  | [(record, pending)] => if record.isList ∧ 2 ≤ record.breaks then [(record, pending)] else []
  | (record, pending) :: next :: records =>
    if record.isList then (record, pending) :: keptLists (next :: records)
    else keptLists (next :: records)

end CommCentral.AddrBook
