import CommCentral.Lib.Decision
import CommCentral.Search.ArbitraryHeader
import Mathlib

/-! Which occurrences of a header are matched, and with what values. -/
namespace CommCentral.Search

open Lib List Function

/-- A header of a message: its first line, and the lines that continue it. -/
structure HeaderField where
  firstLine : List UInt8
  continuations : List (List UInt8)
  deriving DecidableEq

/-- The lines in front of the first header, and the headers. -/
def groupFields : List (List UInt8) → List (List UInt8) × List HeaderField
  | [] => ([], [])
  | line :: rest =>
    if isContinuation line then (line :: (groupFields rest).1, (groupFields rest).2)
    else ([], ⟨line, (groupFields rest).1⟩ :: (groupFields rest).2)

def headerBlock (lines : List (List UInt8)) : List (List UInt8) :=
  lines.takeWhile fun line => !emptyMessageLine line

def headerFields (lines : List (List UInt8)) : List HeaderField :=
  (groupFields (headerBlock lines)).2

namespace HeaderField

variable (field : HeaderField) (name : List UInt8)

/-- The line begins with the name, in any case, up to a colon or the end. -/
def startsWithName : Prop := equalIgnoringAsciiCase (field.firstLine.takeWhile (· ≠ 58)) name = true

/-- An occurrence of the header. -/
def IsNamed : Prop := field.startsWithName name ∧ 58 ∈ field.firstLine

def parts : List (List UInt8) := (field.firstLine.dropWhile (· ≠ 58)).tail :: field.continuations

/-- The value, with its lines joined by one space. -/
def unfolded : List UInt8 := stripWhiteSpace ([32].intercalate (field.parts.map stripWhiteSpace))

end HeaderField

/-- The operator that looks for what another one excludes. -/
def positiveOp : MsgSearchOp → MsgSearchOp
  | .doesntContain => .contains
  | .isnt => .is
  | operator => operator

def headerOps : List MsgSearchOp := [.contains, .is, .beginsWith, .endsWith, .doesntContain, .isnt]

/-- The value is one that the term looks for, or excludes. -/
def MatchesPositively (env : MatchEnv) (term : MsgSearchTerm) (value : List UInt8) : Prop :=
  value ≠ [] ∧
    ({ term with operator := positiveOp term.operator }.matchRfc2047String env value).result = true

/-- Every occurrence of the header counts, each with its whole value. -/
def Considers (env : MatchEnv) (term : MsgSearchTerm) (lines : List (List UInt8)) : Prop :=
  (term.matchArbitraryHeader env [] lines).result = true ↔
    if term.matchExpected then
      ∃ field ∈ headerFields lines, field.IsNamed term.arbitraryHeader ∧
        MatchesPositively env term field.unfolded
    else
      ¬ ∃ field ∈ headerFields lines, field.IsNamed term.arbitraryHeader ∧
        MatchesPositively env term field.unfolded

/-- Behind the first character and a colon the line has only white space, up to a NUL. -/
def HoldsNoText (line : List UInt8) : Prop := valueInLine 1 line = []

/-- The value of the header is read as it is: no NUL, no colon directly behind the character
that continues it, and no blank line at the end of a value. What begins with the name but has no
colon must not be continued with text. -/
structure HeaderField.Readable (field : HeaderField) (name : List UInt8) : Prop where
  noNul : field.IsNamed name → ∀ part ∈ field.parts, 0 ∉ part
  noColon : field.IsNamed name → ∀ line ∈ field.continuations, (line)[1]? ≠ some 58
  ends : field.IsNamed name → ∀ last ∈ field.parts.getLast?, (∀ byte ∈ last, isSpace byte = true) →
    ∀ part ∈ field.parts, ∀ byte ∈ part, isSpace byte = true
  noText : field.startsWithName name → 58 ∉ field.firstLine →
    ∀ line ∈ field.continuations, HoldsNoText line

/-- The value that the loop gathers of a header. -/
def HeaderField.readValue (field : HeaderField) (name : List UInt8) : List UInt8 :=
  if equalIgnoringAsciiCase (field.firstLine.takeWhile (· ≠ 58)) name then
    (field.continuations.map (valueInLine 1)).foldl appendValue
      (valueInLine name.length field.firstLine)
  else []

namespace MsgSearchTerm

/-- One value is checked after the other, until one ends the search. -/
def checkAll (env : MatchEnv) (term : MsgSearchTerm) (result : Bool) :
    (values : List (List UInt8)) → (succeeded : Bool) → Matched
  | [], succeeded => ⟨result, succeeded⟩
  | value :: rest, succeeded =>
    match term.checkValue env value succeeded with
    | .inl matched => matched
    | .inr succeeded => checkAll env term result rest succeeded

variable {term : MsgSearchTerm}

lemma matchLines_eq (lines) (headerFullValue curMsgHeader) (succeeded : Bool) :
    term.matchLines env result lines headerFullValue curMsgHeader succeeded =
      term.checkAll env result
        ((if equalIgnoringAsciiCase curMsgHeader term.arbitraryHeader then
            ((groupFields (headerBlock lines)).1.map (valueInLine 1)).foldl appendValue
              headerFullValue
          else headerFullValue) ::
            (headerFields lines).map (·.readValue term.arbitraryHeader)) succeeded := by
  induction lines generalizing headerFullValue curMsgHeader succeeded with
  | nil =>
    cases checked : term.checkValue env headerFullValue succeeded <;>
      simp only [matchLines, headerFields, headerBlock, takeWhile_nil, groupFields,
        map_nil, foldl_nil, ite_self, checkAll, checked]
  | cons buf lines ih =>
    rw [matchLines]
    by_cases isEmpty : emptyMessageLine buf = true
    · have block : headerBlock (buf :: lines) = [] := takeWhile_cons_of_neg (by simpa using isEmpty)
      cases checked : term.checkValue env headerFullValue succeeded <;>
        simp only [isEmpty, if_true, headerFields, block, groupFields, map_nil,
          foldl_nil, ite_self, checkAll, checked]
    · have block : headerBlock (buf :: lines) = buf :: headerBlock lines := by
        rw [headerBlock, takeWhile_cons_of_pos (by simpa using isEmpty), headerBlock]
      rw [if_neg isEmpty]
      by_cases continues : isContinuation buf = true
      · rw [if_pos continues, headerFields, block, groupFields, if_pos continues]
        by_cases isHeader : equalIgnoringAsciiCase curMsgHeader term.arbitraryHeader = true
        · rw [if_pos isHeader, ih, if_pos isHeader, if_pos isHeader, map_cons,
            foldl_cons, headerFields]
        · rw [if_neg isHeader, ih, if_neg isHeader, if_neg isHeader, headerFields]
      · rw [if_neg continues, headerFields, block, groupFields, if_neg continues]
        simp only [map_nil, foldl_nil, ite_self, map_cons]
        rw [checkAll]
        cases term.checkValue env headerFullValue succeeded with
        | inl matched => rfl
        | inr succeeded =>
          dsimp only
          rw [ih, ih, HeaderField.readValue, headerFields]
          by_cases isHeader : equalIgnoringAsciiCase (buf.takeWhile (· ≠ 58))
              term.arbitraryHeader = true
          · simp only [isHeader, if_true]
          · simp only [isHeader, Bool.false_eq_true, if_false]

lemma matchRfc2047String_headerOp (operator : term.operator ∈ headerOps) (value) :
    term.matchRfc2047String env value =
      ⟨({ term with operator := positiveOp term.operator }.matchRfc2047String env value).result ==
        term.matchExpected, true⟩ := by
  obtain ⟨op, _, _, _⟩ := term
  simp only [headerOps, mem_cons, not_mem_nil, or_false] at operator
  rcases operator with rfl | rfl | rfl | rfl | rfl | rfl <;>
    simp [matchRfc2047String, matchString, matchExpected, positiveOp]

lemma checkValue_headerOp (env) (operator : term.operator ∈ headerOps) (value) :
    (MatchesPositively env term value →
      term.checkValue env value true = .inl ⟨term.matchExpected, true⟩) ∧
      (¬ MatchesPositively env term value → term.checkValue env value true = .inr true) := by
  rw [checkValue, matchRfc2047String_headerOp operator, MatchesPositively]
  by_cases empty : value = []
  · simp [empty]
  · generalize ({ term with operator := positiveOp term.operator }.matchRfc2047String env
      value).result = found
    cases found <;> cases term.matchExpected <;> simp [empty]

/-- The search ends with the first value that is looked for or excluded. -/
theorem checkAll_iff (operator : term.operator ∈ headerOps) (values : List (List UInt8)) :
    (term.checkAll env (!term.matchExpected) values true).result = true ↔
      if term.matchExpected then ∃ value ∈ values, MatchesPositively env term value
      else ¬ ∃ value ∈ values, MatchesPositively env term value := by
  induction values with
  | nil => cases term.matchExpected <;> simp [checkAll]
  | cons value rest ih =>
    obtain ⟨found, notFound⟩ := checkValue_headerOp env operator value
    rw [checkAll]
    by_cases isMatch : MatchesPositively env term value
    · rw [found isMatch]
      cases term.matchExpected <;> simp [isMatch]
    · rw [notFound isMatch]
      dsimp only
      rw [ih]
      simp only [mem_cons, exists_eq_or_imp, isMatch, false_or]

end MsgSearchTerm

lemma appendValue_foldl (first) (parts) :
    parts.foldl appendValue first = joinFromFirst 32 (first :: parts) := by
  induction parts generalizing first with
  | nil =>
    rw [foldl_nil]
    cases first <;> simp [joinFromFirst]
  | cons second parts ih =>
    rw [foldl_cons, ih]
    cases first with
    | nil => simp [appendValue, joinFromFirst]
    | cons item others => cases parts <;> simp [appendValue, joinFromFirst, intercalate_cons_cons]

lemma length_of_equalIgnoringAsciiCase (equal : equalIgnoringAsciiCase first second = true) :
    first.length = second.length := by
  have same := congrArg List.length (of_decide_eq_true equal)
  rwa [length_map, length_map] at same

lemma isSpace_of_isAsciiWhitespace {byte : UInt8} (white : isAsciiWhitespace byte = true) :
    isSpace byte = true := by
  simp only [isAsciiWhitespace, Bool.or_eq_true, decide_eq_true_eq] at white
  rcases white with (((rfl | rfl) | rfl) | rfl) | rfl <;> decide

lemma cString_count (text) : (cString text).count 0 = 0 := by
  rw [count_eq_zero]
  intro mem
  simpa using mem_takeWhile_imp mem

namespace HeaderField

variable {field : HeaderField}

/-- The parts of a value as the loop gets them. -/
def readParts (field : HeaderField) (name : List UInt8) : List (List UInt8) :=
  valueInLine name.length field.firstLine :: field.continuations.map (valueInLine 1)

lemma readValue_eq (starts : field.startsWithName name) :
    field.readValue name = joinFromFirst 32 (field.readParts name) := by
  have isName : equalIgnoringAsciiCase (field.firstLine.takeWhile (· ≠ 58)) name = true := starts
  rw [readValue, if_pos isName, appendValue_foldl, readParts]

lemma drop_name (starts : field.startsWithName name) :
    field.firstLine.drop name.length = field.firstLine.dropWhile (· ≠ 58) := by
  have length := length_of_equalIgnoringAsciiCase starts
  have split := congrArg (List.drop (field.firstLine.takeWhile (· ≠ 58)).length)
    (takeWhile_append_dropWhile (p := (· ≠ 58)) (l := field.firstLine))
  rw [drop_left, length] at split
  exact split.symm

lemma valueInLine_named (named : field.IsNamed name) :
    valueInLine name.length field.firstLine =
      cString (stripWhiteSpace (field.firstLine.dropWhile (· ≠ 58)).tail) := by
  have starts : (field.firstLine.dropWhile (· ≠ 58)).head? = some 58 := by
    have member := named.2
    generalize field.firstLine = line at member
    induction line with
    | nil => cases member
    | cons first rest ih =>
      by_cases isColon : first = 58
      · simp [isColon]
      · rw [dropWhile_cons_of_pos (by simpa using isColon)]
        exact ih ((mem_cons.mp member).resolve_left (Ne.symm isColon))
  rw [valueInLine, drop_name named.1]
  simp only [starts, if_true]

lemma valueInLine_noColon (starts : field.startsWithName name) (noColon : 58 ∉ field.firstLine) :
    valueInLine name.length field.firstLine = [] := by
  have nothing : field.firstLine.dropWhile (· ≠ 58) = [] := by
    rw [dropWhile_eq_nil_iff]
    intro byte mem
    exact decide_eq_true fun isColon => noColon (isColon ▸ mem)
  rw [valueInLine, drop_name starts, nothing]
  rfl

/-- White space in front of a text does not count. -/
theorem stripWhiteSpace_cons {byte : UInt8} (white : isSpace byte = true) (rest : List UInt8) :
    stripWhiteSpace (byte :: rest) = stripWhiteSpace rest := by
  rw [stripWhiteSpace, stripWhiteSpace, trim, trim, dropWhile_cons_of_pos white]

lemma cString_stripWhiteSpace {text : List UInt8} (noNul : 0 ∉ text) :
    cString (stripWhiteSpace text) = stripWhiteSpace text := by
  apply cString_eq_self
  rw [← count_eq_zero, stripWhiteSpace, count_trim (by decide), count_eq_zero]
  exact noNul

/-- A colon directly behind the first character of a line is lost. -/
theorem valueInLine_continuation {line : List UInt8} (continues : isContinuation line = true)
    (noNul : 0 ∉ line) :
    ((line)[1]? ≠ some 58 → valueInLine 1 line = stripWhiteSpace line) ∧
      ((line)[1]? = some 58 →
        (valueInLine 1 line).count 58 + 1 = (stripWhiteSpace line).count 58) := by
  cases line with
  | nil => cases continues
  | cons first rest =>
    have white : isSpace first = true := isSpace_of_isAsciiWhitespace continues
    have noNulInRest : 0 ∉ rest := fun mem => noNul (mem_cons_of_mem _ mem)
    rw [stripWhiteSpace_cons white, valueInLine, drop_succ_cons, drop_zero,
      getElem?_cons_succ, ← head?_eq_getElem?]
    constructor
    · intro notColon
      rw [if_neg notColon, cString_stripWhiteSpace noNulInRest]
    · intro isColon
      obtain ⟨tail, rfl⟩ := head?_eq_some_iff.mp isColon
      have noNulInTail : 0 ∉ tail := fun mem => noNulInRest (mem_cons_of_mem _ mem)
      rw [if_pos isColon, tail_cons, cString_stripWhiteSpace noNulInTail, stripWhiteSpace,
        stripWhiteSpace, count_trim (by decide), count_trim (by decide), count_cons_self]

lemma head?_part (mem : part ∈ field.parts.map stripWhiteSpace) :
    ∀ first ∈ part.head?, isSpace first = false := by
  obtain ⟨text, _, rfl⟩ := mem_map.mp mem
  exact fun first head => head?_trim head

lemma getLast?_part (mem : part ∈ field.parts.map stripWhiteSpace) :
    ∀ last ∈ part.getLast?, isSpace last = false := by
  obtain ⟨text, _, rfl⟩ := mem_map.mp mem
  exact fun last ends => getLast?_trim ends

lemma count_unfolded {byte : UInt8} (notSpace : isSpace byte = false) (isOther : 32 ≠ byte) :
    field.unfolded.count byte =
      ((field.parts.map stripWhiteSpace).map (List.count byte)).sum := by
  rw [unfolded, stripWhiteSpace, count_trim notSpace, count_intercalate isOther]

/-- Without NULs the value differs by its colons, and by a space at its end. -/
theorem readParts_eq (named : field.IsNamed name)
    (continued : ∀ line ∈ field.continuations, isContinuation line = true)
    (noNul : ∀ part ∈ field.parts, 0 ∉ part)
    (noColon : ∀ line ∈ field.continuations, (line)[1]? ≠ some 58) :
    field.readParts name = field.parts.map stripWhiteSpace := by
  rw [parts] at noNul
  obtain ⟨noNulFirst, noNul⟩ := forall_mem_cons.mp noNul
  rw [readParts, valueInLine_named named, cString_stripWhiteSpace noNulFirst, parts, map_cons]
  congr 1
  apply map_congr_left
  intro line mem
  exact (valueInLine_continuation (continued line mem) (noNul line mem)).1
    (noColon line mem)

lemma noNul_of_readValue (named : field.IsNamed name)
    (same : field.readValue name = field.unfolded) : ∀ part ∈ field.parts, 0 ∉ part := by
  have counts := congrArg (List.count 0) same
  rw [readValue_eq named.1, count_joinFromFirst (by decide), count_unfolded (by decide) (by decide)]
    at counts
  have none : ((field.readParts name).map (List.count 0)).sum = 0 := by
    rw [List.sum_eq_zero_iff_forall_eq_nat]
    intro count mem
    obtain ⟨part, inParts, rfl⟩ := mem_map.mp mem
    rw [readParts] at inParts
    rcases mem_cons.mp inParts with rfl | inRest
    · exact cString_count _
    · obtain ⟨line, _, rfl⟩ := mem_map.mp inRest
      exact cString_count _
  rw [none, eq_comm, List.sum_eq_zero_iff_forall_eq_nat] at counts
  intro part mem
  have count := counts _ (mem_map_of_mem (mem_map_of_mem mem))
  rwa [stripWhiteSpace, count_trim (by decide), count_eq_zero] at count

section

variable (named : field.IsNamed name)
  (continued : ∀ line ∈ field.continuations, isContinuation line = true)
include named continued

lemma noColon_of_readValue (same : field.readValue name = field.unfolded) :
    ∀ line ∈ field.continuations, (line)[1]? ≠ some 58 := by
  have noNul := noNul_of_readValue named same
  rw [parts] at noNul
  obtain ⟨noNulFirst, noNul⟩ := forall_mem_cons.mp noNul
  have counts := congrArg (List.count 58) same
  rw [readValue_eq named.1, count_joinFromFirst (by decide), count_unfolded (by decide) (by decide),
    readParts, parts, valueInLine_named named, cString_stripWhiteSpace noNulFirst, map_cons,
    map_cons, map_cons, sum_cons, sum_cons, map_map,
    map_map] at counts
  have line (line : List UInt8) (mem : line ∈ field.continuations) :=
    valueInLine_continuation (continued line mem) (noNul line mem)
  intro bad mem isColon
  have fewer : (field.continuations.map (List.count 58 ∘ valueInLine 1)).sum <
      (field.continuations.map (List.count 58 ∘ stripWhiteSpace)).sum := by
    apply sum_lt_sum
    · intro other inList
      by_cases otherColon : other[1]? = some 58
      · have := (line other inList).2 otherColon
        simp only [comp_apply]
        omega
      · simp only [comp_apply, (line other inList).1 otherColon]
        exact le_refl _
    · refine ⟨bad, mem, ?_⟩
      have := (line bad mem).2 isColon
      simp only [comp_apply]
      omega
  omega

/-- The value of an occurrence is read as it is exactly if it can be. -/
theorem readValue_eq_unfolded_iff :
    field.readValue name = field.unfolded ↔
      (∀ part ∈ field.parts, 0 ∉ part) ∧ (∀ line ∈ field.continuations, (line)[1]? ≠ some 58) ∧
        ∀ last ∈ field.parts.getLast?, (∀ byte ∈ last, isSpace byte = true) →
          ∀ part ∈ field.parts, ∀ byte ∈ part, isSpace byte = true := by
  have blank : (∀ last ∈ (field.parts.map stripWhiteSpace).getLast?, last = [] →
        ∀ part ∈ field.parts.map stripWhiteSpace, part = []) ↔
      ∀ last ∈ field.parts.getLast?, (∀ byte ∈ last, isSpace byte = true) →
        ∀ part ∈ field.parts, ∀ byte ∈ part, isSpace byte = true := by
    simp only [getLast?_map, Option.mem_def, Option.map_eq_some_iff, forall_exists_index,
      and_imp, forall_apply_eq_imp_iff₂, mem_map, stripWhiteSpace, trim_eq_nil_iff]
  have whole (noNul : ∀ part ∈ field.parts, 0 ∉ part)
      (noColon : ∀ line ∈ field.continuations, (line)[1]? ≠ some 58) :
      field.readValue name = field.unfolded ↔
        ∀ last ∈ (field.parts.map stripWhiteSpace).getLast?, last = [] →
          ∀ part ∈ field.parts.map stripWhiteSpace, part = [] := by
    rw [readValue_eq named.1, readParts_eq named continued noNul noColon]
    exact joinFromFirst_eq_trim_iff (by decide) (fun part => head?_part) fun part => getLast?_part
  constructor
  · intro same
    have noNul := noNul_of_readValue named same
    have noColon := noColon_of_readValue named continued same
    exact ⟨noNul, noColon, blank.mp ((whole noNul noColon).mp same)⟩
  · rintro ⟨noNul, noColon, ends⟩
    exact (whole noNul noColon).mpr (blank.mpr ends)

end

/-- What has no colon gives no value exactly if nothing continues it. -/
theorem readValue_eq_nil_iff (starts : field.startsWithName name)
    (noColon : 58 ∉ field.firstLine) :
    field.readValue name = [] ↔ ∀ line ∈ field.continuations, HoldsNoText line := by
  rw [readValue_eq starts, joinFromFirst_eq_nil_iff, readParts,
    valueInLine_noColon starts noColon]
  simp [HoldsNoText]

end HeaderField

/-- A header begins with a line that continues none, and goes on with lines that do. -/
structure HeaderField.Formed (field : HeaderField) : Prop where
  first : emptyMessageLine field.firstLine = false ∧ isContinuation field.firstLine = false
  others : ∀ line ∈ field.continuations,
    emptyMessageLine line = false ∧ isContinuation line = true

variable {lines : List (List UInt8)}

lemma groupFields_formed
    (filled : ∀ line ∈ lines, emptyMessageLine line = false) :
    (∀ line ∈ (groupFields lines).1, emptyMessageLine line = false ∧ isContinuation line = true) ∧
      ∀ field ∈ (groupFields lines).2, field.Formed := by
  induction lines with
  | nil => exact ⟨nofun, nofun⟩
  | cons line rest ih =>
    obtain ⟨here, later⟩ := forall_mem_cons.mp filled
    obtain ⟨front, fields⟩ := ih later
    rw [groupFields]
    by_cases continues : isContinuation line = true
    · rw [if_pos continues]
      exact ⟨forall_mem_cons.mpr ⟨⟨here, continues⟩, front⟩, fields⟩
    · rw [if_neg continues]
      exact ⟨nofun, forall_mem_cons.mpr
        ⟨⟨⟨here, Bool.eq_false_iff.mpr continues⟩, front⟩, fields⟩⟩

variable {field : HeaderField}

lemma headerFields_formed
    (mem : field ∈ headerFields lines) : field.Formed := by
  refine (groupFields_formed fun line inBlock => ?_).2 field mem
  simpa using mem_takeWhile_imp inBlock

lemma groupFields_continuations
    (continued : ∀ line ∈ lines, isContinuation line = true) : groupFields lines = (lines, []) := by
  induction lines with
  | nil => rfl
  | cons line rest ih =>
    obtain ⟨here, later⟩ := forall_mem_cons.mp continued
    rw [groupFields, if_pos here, ih later]

lemma headerFields_alone (formed : field.Formed) :
    headerFields (field.firstLine :: field.continuations) = [field] := by
  have whole : headerBlock (field.firstLine :: field.continuations) =
      field.firstLine :: field.continuations := by
    rw [headerBlock, takeWhile_eq_self_iff]
    exact forall_mem_cons.mpr ⟨by simp [formed.first.1], fun line mem => by
      simp [(formed.others line mem).1]⟩
  rw [headerFields, whole, groupFields, if_neg (by simp [formed.first.2]),
    groupFields_continuations fun line mem => (formed.others line mem).2]

/-- The values that count are those that the loop gathers. -/
theorem matchArbitraryHeader_iff (operator : term.operator ∈ headerOps)
    (isName : term.arbitraryHeader ≠ []) (lines : List (List UInt8)) :
    Considers env term lines ↔
      ((∃ field ∈ headerFields lines,
          MatchesPositively env term (field.readValue term.arbitraryHeader)) ↔
        ∃ field ∈ headerFields lines, field.IsNamed term.arbitraryHeader ∧
          MatchesPositively env term field.unfolded) := by
  have notName : ¬ equalIgnoringAsciiCase [] term.arbitraryHeader = true := by
    intro equal
    have length := length_of_equalIgnoringAsciiCase equal
    exact isName (eq_nil_of_length_eq_zero length.symm)
  have nothing : ¬ MatchesPositively env term [] := fun isMatch => isMatch.1 rfl
  rw [Considers, MsgSearchTerm.matchArbitraryHeader, if_pos rfl, MsgSearchTerm.matchLines_eq,
    MsgSearchTerm.checkAll_iff operator, if_neg notName]
  simp only [mem_cons, exists_eq_or_imp, nothing, false_or, mem_map,
    exists_exists_and_eq_and]
  cases term.matchExpected with
  | true => simp only [if_true]
  | false => simp only [Bool.false_eq_true, if_false, not_iff_not]

/-- A readable header counts with its whole value, and nothing else does. -/
theorem HeaderField.Readable.matches_iff (readable : field.Readable term.arbitraryHeader)
    (formed : field.Formed) :
    MatchesPositively env term (field.readValue term.arbitraryHeader) ↔
      field.IsNamed term.arbitraryHeader ∧ MatchesPositively env term field.unfolded := by
  have nothing : ¬ MatchesPositively env term [] := fun isMatch => isMatch.1 rfl
  by_cases starts : field.startsWithName term.arbitraryHeader
  · by_cases colon : 58 ∈ field.firstLine
    · have named : field.IsNamed term.arbitraryHeader := ⟨starts, colon⟩
      have same := (readValue_eq_unfolded_iff named fun line mem =>
        (formed.others line mem).2).mpr
          ⟨readable.noNul named, readable.noColon named, readable.ends named⟩
      rw [same]
      exact ⟨fun isMatch => ⟨named, isMatch⟩, And.right⟩
    · rw [(readValue_eq_nil_iff starts colon).mpr (readable.noText starts colon)]
      exact iff_of_false nothing fun both => colon both.1.2
  · have unread : field.readValue term.arbitraryHeader = [] := if_neg starts
    rw [unread]
    exact iff_of_false nothing fun both => starts both.1.1

/-- Texts are compared as they are. -/
def exactEnv : MatchEnv where
  decodeMimeHeader text := text.map UInt8.toUInt16
  cardForEmailAddress := none
  findIgnoringCase needle text := needle.isEmpty || (firstOccurrence needle text).isSome
  equalIgnoringCase first second := first = second

def exactTerm (name value : List UInt8) : MsgSearchTerm :=
  { operator := .is, utf16String := value.map UInt8.toUInt16, arbitraryHeader := name }

lemma exactTerm_operator (name value) : (exactTerm name value).operator ∈ headerOps := by
  simp [exactTerm, headerOps]

lemma matchesPositively_exact {name needle value : List UInt8} :
    MatchesPositively exactEnv (exactTerm name needle) value ↔ value ≠ [] ∧ needle = value := by
  have injective : Function.Injective UInt8.toUInt16 :=
    Function.LeftInverse.injective UInt8.toUInt8_toUInt16
  have equal : needle.map UInt8.toUInt16 = value.map UInt8.toUInt16 ↔ needle = value :=
    (map_injective_iff.mpr injective).eq_iff
  simp [MatchesPositively, exactTerm, exactEnv, positiveOp, MsgSearchTerm.matchRfc2047String,
    MsgSearchTerm.matchString, equal]

/-- The header block and all that is left of it without some of its headers are considered as
they should be, for all terms, exactly if all its headers can be read. -/
theorem matchArbitraryHeader_considers_iff (arbitraryHeader : List UInt8)
    (isName : arbitraryHeader ≠ []) (lines : List (List UInt8)) :
    (∀ part, (headerFields part).Sublist (headerFields lines) →
        ∀ env, ∀ term : MsgSearchTerm, term.arbitraryHeader = arbitraryHeader →
          term.operator ∈ headerOps → Considers env term part) ↔
      ∀ field ∈ headerFields lines, field.Readable arbitraryHeader := by
  constructor
  · intro considers field mem
    have formed := headerFields_formed mem
    have alone := headerFields_alone formed
    have value (needle : List UInt8) :
        field.readValue arbitraryHeader ≠ [] ∧ needle = field.readValue arbitraryHeader ↔
          field.IsNamed arbitraryHeader ∧ field.unfolded ≠ [] ∧ needle = field.unfolded := by
      have considered := considers (field.firstLine :: field.continuations)
        (by rw [alone]; exact singleton_sublist.mpr mem) exactEnv
        (exactTerm arbitraryHeader needle) rfl (exactTerm_operator _ _)
      rw [matchArbitraryHeader_iff (exactTerm_operator _ _) isName, alone] at considered
      have isHeader : (exactTerm arbitraryHeader needle).arbitraryHeader = arbitraryHeader := rfl
      simpa [matchesPositively_exact, isHeader] using considered
    have same (named : field.IsNamed arbitraryHeader) :
        field.readValue arbitraryHeader = field.unfolded := by
      by_cases empty : field.unfolded = []
      · by_contra different
        have filled : field.readValue arbitraryHeader ≠ [] := fun none =>
          different (none.trans empty.symm)
        exact ((value _).mp ⟨filled, rfl⟩).2.1 empty
      · exact ((value _).mpr ⟨named, empty, rfl⟩).2.symm
    have readable (named : field.IsNamed arbitraryHeader) :=
      (HeaderField.readValue_eq_unfolded_iff named fun line inField =>
        (formed.others line inField).2).mp (same named)
    refine ⟨fun named => (readable named).1, fun named => (readable named).2.1,
      fun named => (readable named).2.2, fun starts noColon => ?_⟩
    rw [← HeaderField.readValue_eq_nil_iff starts noColon]
    by_contra filled
    exact noColon ((value _).mp ⟨filled, rfl⟩).1.2
  · intro readable part fewer env term isHeader operator
    cases isHeader
    rw [matchArbitraryHeader_iff operator isName]
    apply exists_congr
    intro field
    apply and_congr_right
    intro mem
    exact (readable field (fewer.subset mem)).matches_iff (headerFields_formed mem)

/-- The header X with the value a b on two lines. -/
theorem matchArbitraryHeader_considers_folded :
    Considers exactEnv (exactTerm [120] [97, 32, 98]) [[88, 58, 32, 97], [9, 98], []] := by
  have readable : ∀ field ∈ headerFields [[88, 58, 32, 97], [9, 98], []],
      field.Readable [120] := by
    have fields : headerFields [[88, 58, 32, 97], [9, 98], []] =
        [⟨[88, 58, 32, 97], [[9, 98]]⟩] := by decide
    rw [fields, forall_mem_singleton]
    exact ⟨fun _ => by decide, fun _ => by decide, fun _ => by decide,
      fun _ noColon => absurd (by decide) noColon⟩
  exact (matchArbitraryHeader_considers_iff [120] (by decide) _).mpr readable _
    (List.Sublist.refl _) exactEnv _ rfl (exactTerm_operator _ _)

/-- The colon of a second line is lost. -/
theorem matchArbitraryHeader_colon :
    ¬ ∀ (env : MatchEnv) (term : MsgSearchTerm) (lines : List (List UInt8)),
      term.arbitraryHeader ≠ [] → term.operator ∈ headerOps → Considers env term lines := by
  intro considers
  have considered := considers exactEnv (exactTerm [120] [97, 32, 58, 98])
    [[88, 58, 32, 97], [32, 58, 98], []] (by simp [exactTerm]) (exactTerm_operator _ _)
  rw [matchArbitraryHeader_iff (exactTerm_operator _ _) (by simp [exactTerm])] at considered
  have fields : headerFields [[88, 58, 32, 97], [32, 58, 98], []] =
      [⟨[88, 58, 32, 97], [[32, 58, 98]]⟩] := by decide
  have isHeader : (exactTerm [120] [97, 32, 58, 98]).arbitraryHeader = [120] := rfl
  have read : HeaderField.readValue ⟨[88, 58, 32, 97], [[32, 58, 98]]⟩ [120] = [97, 32, 98] := by
    decide
  have value : HeaderField.unfolded ⟨[88, 58, 32, 97], [[32, 58, 98]]⟩ = [97, 32, 58, 98] := by
    decide
  have named : HeaderField.IsNamed ⟨[88, 58, 32, 97], [[32, 58, 98]]⟩ [120] := ⟨rfl, by decide⟩
  rw [fields, isHeader] at considered
  simp [matchesPositively_exact, read, value, named] at considered

end CommCentral.Search
