import CommCentral.Imap.ParserTokens
import CommCentral.Lib.Decision
import CommCentral.Lib.PairLines

/-! The forms in which a server sends a string, and how each of them is read. -/
namespace CommCentral.Imap

open Lib GenericParser List

inductive AstringForm where
  | atom
  | quoted
  | literal
deriving DecidableEq

/-- `ASTRING-CHAR`: no control character, space, parenthesis, brace, wildcard, quote or backslash,
and not beyond ASCII. -/
def isAstringChar (c : UInt8) : Bool :=
  0x20 < c && c < 0x7F && !([0x28, 0x29, 0x7B, 0x25, 0x2A, 0x22, 0x5C] : List UInt8).contains c

/-- A string that can be sent in its form. -/
structure Astring where
  value : List UInt8
  form : AstringForm
  nonempty : value ≠ []
  noNull : 0 ∉ value
  atomChars : form = .atom → ∀ c ∈ value, isAstringChar c = true
  oneLine : form = .quoted → 0x0D ∉ value ∧ 0x0A ∉ value

def escapeChar (c : UInt8) : List UInt8 := if c = 0x22 ∨ c = 0x5C then [0x5C, c] else [c]

def crlf : List UInt8 := [0x0D, 0x0A]

def showDecimal (number : Nat) : List UInt8 :=
  (Nat.toDigits 10 number).map fun digit => UInt8.ofNat digit.toNat

/-- The line that announces a literal. -/
def literalHead (value : List UInt8) : List UInt8 := 0x7B :: showDecimal value.length ++ [0x7D]

def Astring.send (astring : Astring) : List UInt8 :=
  match astring.form with
  | .atom => astring.value
  | .quoted => 0x22 :: astring.value.flatMap escapeChar ++ [0x22]
  | .literal => literalHead astring.value ++ crlf ++ astring.value

/-- The rest of a response behind a string. -/
def behind : List Astring → List UInt8
  | [] => crlf
  | astring :: others => 0x20 :: (astring.send ++ behind others)

/-- The response line, which a literal breaks into several. -/
def response : List Astring → List UInt8
  | [] => crlf
  | astring :: others => astring.send ++ behind others

lemma isDigit_showDecimal {number : Nat} (mem : c ∈ showDecimal number) :
    GenericParser.isDigit c = true := by
  obtain ⟨digit, isDigit, rfl⟩ := mem_map.mp mem
  have range := Char.isDigit_iff_toNat.mp
    (Nat.isDigit_of_mem_toDigits (by decide) (by decide) isDigit)
  have small : digit.toNat < 256 := by
    have upper := range.2
    change digit.toNat ≤ 57 at upper
    omega
  have lower : 48 ≤ digit.toNat := range.1
  have upper : digit.toNat ≤ 57 := range.2
  rw [GenericParser.isDigit, Bool.and_eq_true]
  constructor
  · apply decide_eq_true
    rw [UInt8.le_iff_toNat_le, UInt8.toNat_ofNat_of_lt' small]
    exact lower
  · apply decide_eq_true
    rw [UInt8.le_iff_toNat_le, UInt8.toNat_ofNat_of_lt' small]
    exact upper

variable (number : Nat)

lemma decimalValue_showDecimal (stops : ∀ c ∈ rest.head?, GenericParser.isDigit c = false) :
    decimalValue (showDecimal number ++ rest) = number := by
  have digits : (showDecimal number ++ rest).takeWhile GenericParser.isDigit =
      showDecimal number := by
    rw [takeWhile_append_of_pos fun _ mem => isDigit_showDecimal mem]
    cases rest with
    | nil => exact append_nil _
    | cons c others =>
      have stopsHere := stops c rfl
      rw [takeWhile_cons_of_neg (by rw [stopsHere]; decide), append_nil]
  have read : ∀ (text : List Char) (sofar : Nat), (∀ digit ∈ text, digit.isDigit = true) →
      (text.map fun digit => UInt8.ofNat digit.toNat).foldl
          (fun number c => 10 * number + (c.toNat - 0x30)) sofar =
        Nat.ofDigitChars 10 text sofar := by
    intro text
    induction text with
    | nil => exact fun _ _ => rfl
    | cons digit text ih =>
      intro sofar all
      have upper := (Char.isDigit_iff_toNat.mp (all digit mem_cons_self)).2
      have small : digit.toNat < 256 := by
        change digit.toNat ≤ 57 at upper
        omega
      rw [map_cons, foldl_cons, Nat.ofDigitChars_cons,
        ih _ fun other mem => all other (mem_cons_of_mem _ mem),
        UInt8.toNat_ofNat_of_lt' small]
      rfl
  rw [decimalValue, digits, showDecimal,
    read _ 0 fun digit mem => Nat.isDigit_of_mem_toDigits (by decide) (by decide) mem,
    Nat.ofDigitChars_ten_toDigits]

lemma digit_plain (c : UInt8) : GenericParser.isDigit c = true →
    isSpace c = false ∧ c ≠ 0x2D ∧ c ≠ 0x2B := by
  revert c
  apply forall_byte
  decide +kernel

lemma showDecimal_ne_nil : showDecimal number ≠ [] :=
  map_eq_nil_iff.not.mpr Nat.toDigits_ne_nil

/-- `atoi` reads a number that fits into an `int`, and makes something else of another. -/
theorem atoi_showDecimal :
    atoi (showDecimal number ++ [0x7D]) = (min (2 ^ 63 - 1) number : Int).bmod (2 ^ 32) := by
  have stops : ∀ c ∈ ([0x7D] : List UInt8).head?, GenericParser.isDigit c = false := by
    intro c isClose
    cases isClose
    decide
  have value := decimalValue_showDecimal number stops
  obtain ⟨first, digits, shape⟩ := exists_cons_of_ne_nil (showDecimal_ne_nil number)
  have isFirst : first ∈ showDecimal number := shape ▸ mem_cons_self
  obtain ⟨notSpace, notMinus, notPlus⟩ := digit_plain first (isDigit_showDecimal isFirst)
  have noSpace : (showDecimal number ++ [0x7D]).dropWhile isSpace =
      showDecimal number ++ [0x7D] := by
    rw [shape, cons_append, dropWhile_cons_of_neg (by rw [notSpace]; decide)]
  rw [atoi, noSpace]
  split
  · rename_i isMinus
    rw [shape] at isMinus
    exact absurd (List.cons.inj isMinus).1 notMinus
  · rename_i isPlus
    rw [shape] at isPlus
    exact absurd (List.cons.inj isPlus).1 notPlus
  · rw [value]

lemma atoi_small {number : Nat} (small : number < 2 ^ 31) :
    atoi (showDecimal number ++ [0x7D]) = number := by
  rw [atoi_showDecimal]
  have least : (min (2 ^ 63 - 1) number : Int) = number := by omega
  rw [least]
  exact Int.bmod_eq_of_le (by omega) (by omega)

lemma atoi_large {number : Nat} (large : 2 ^ 31 ≤ number) :
    (atoi (showDecimal number ++ [0x7D])).toNat < number := by
  rw [atoi_showDecimal]
  have below : (min (2 ^ 63 - 1) number : Int).bmod (2 ^ 32) < 2 ^ 31 :=
    Int.bmod_lt (m := 2 ^ 32) (by decide)
  omega

def deliveredLines (text : List UInt8) : List (List UInt8) := (pairLines 0x0D 0x0A [] text).1

/-- The literal behind its last line break. -/
def lastLine (value : List UInt8) : List UInt8 := (pairLines 0x0D 0x0A [] value).2

lemma not_null_of_isAstringChar (c : UInt8) : isAstringChar c = true →
    c ≠ 0 ∧ c ≠ 0x0D ∧ c ≠ 0x0A ∧ c ≠ 0x7B ∧ c ≠ 0x22 ∧ isWhitespace c = false ∧
      isAtomChar true c = true := by
  revert c
  apply forall_byte
  decide +kernel

lemma noNull_escape {value : List UInt8} (different : c ≠ 0x5C) (absent : c ∉ value) :
    c ∉ value.flatMap escapeChar := by
  intro mem
  obtain ⟨char, inValue, inEscaped⟩ := mem_flatMap.mp mem
  rw [escapeChar] at inEscaped
  split at inEscaped
  · rcases mem_cons.mp inEscaped with isBackslash | isChar
    · exact different isBackslash
    · exact absent (mem_singleton.mp isChar ▸ inValue)
  · exact absent (mem_singleton.mp inEscaped ▸ inValue)

lemma not_mem_literalHead (notDigit : GenericParser.isDigit c = false) (notOpen : c ≠ 0x7B)
    (notClose : c ≠ 0x7D) (value) : c ∉ literalHead value := by
  intro mem
  rcases mem_append.mp mem with inHead | isClose
  · rcases mem_cons.mp inHead with isOpen | inDigits
    · exact notOpen isOpen
    · rw [isDigit_showDecimal inDigits] at notDigit
      cases notDigit
  · exact notClose (mem_singleton.mp isClose)

lemma Astring.noNull_send (astring : Astring) : 0 ∉ astring.send := by
  rw [Astring.send]
  cases astring.form with
  | atom => exact astring.noNull
  | quoted =>
    have escaped := noNull_escape (by decide) astring.noNull
    simp only [cons_append, mem_cons, mem_append, not_mem_nil, or_false,
      not_or]
    exact ⟨by decide, escaped, by decide⟩
  | literal =>
    have head := not_mem_literalHead (c := 0) (by decide) (by decide) (by decide) astring.value
    simp only [mem_append, not_or]
    exact ⟨⟨head, by decide⟩, astring.noNull⟩

lemma noNull_behind (others) : 0 ∉ behind others := by
  induction others with
  | nil => decide
  | cons astring others ih =>
    simp only [behind, mem_cons, mem_append, not_or]
    exact ⟨by decide, astring.noNull_send, ih⟩

/-- The first character of a string that is sent is no blank. -/
theorem Astring.exists_send (astring : Astring) : ∃ first rest,
    astring.send = first :: rest ∧ isWhitespace first = false := by
  rw [Astring.send]
  cases isForm : astring.form with
  | atom =>
    obtain ⟨first, rest, shape⟩ := exists_cons_of_ne_nil astring.nonempty
    have isFirst : first ∈ astring.value := shape ▸ mem_cons_self
    obtain ⟨_, _, _, _, _, visible, _⟩ :=
      not_null_of_isAstringChar first (astring.atomChars isForm first isFirst)
    exact ⟨first, rest, shape, visible⟩
  | quoted | literal => exact ⟨_, _, rfl, by decide⟩

/-- The text behind a string ends with a line break, and does not start with a line feed. -/
theorem exists_behind (others : List Astring) :
    (∃ text, behind others = text ++ [0x0D, 0x0A]) ∧ (behind others).head? ≠ some 0x0A := by
  constructor
  · induction others with
    | nil => exact ⟨[], rfl⟩
    | cons astring others ih =>
      obtain ⟨text, ends⟩ := ih
      refine ⟨0x20 :: (astring.send ++ text), ?_⟩
      rw [behind, ends, cons_append, append_assoc]
  · cases others with
    | nil => decide
    | cons astring others =>
      intro same
      exact absurd (Option.some.inj same) (by decide)

lemma exists_deliveredLines (text) (others) :
    ∃ first later, deliveredLines (text ++ behind others) = first :: later ∧
      first <+: text ++ behind others := by
  obtain ⟨⟨more, ends⟩, _⟩ := exists_behind others
  rw [ends, ← append_assoc]
  exact exists_pairLines (by decide) _

lemma noNull_of_deliveredLines {text line : List UInt8} (noNull : 0 ∉ text)
    (mem : line ∈ deliveredLines text) : 0 ∉ line := by
  intro isNull
  have whole := @flatten_pairLines _ _ (0x0D : UInt8) 0x0A [] text
  rw [nil_append] at whole
  apply noNull
  rw [← whole]
  exact mem_append_left _ (mem_flatten.mpr ⟨line, mem, isNull⟩)

lemma blank_mem_of_deliveredLines {text line : List UInt8}
    (mem : line ∈ deliveredLines text) : ∃ c ∈ line, isWhitespace c = true := by
  obtain ⟨before, rfl⟩ := pairLines_concat mem
  exact ⟨0x0A, mem_append_right _ (mem_singleton_self _), by decide⟩

/-- A text without line breaks before another. -/
theorem deliveredLines_append {text first : List UInt8} (unbroken : 0x0D ∉ text)
    (lines : deliveredLines (behind others) = first :: later) :
    deliveredLines (text ++ behind others) = (text ++ first) :: later := by
  have start := @pairLines_unbroken _ _ (0x0D : UInt8) 0x0A [] text unbroken (.inl nofun)
  rw [deliveredLines, pairLines_append, start, nil_append]
  dsimp only
  have behind_ := @pairLines_behind _ _ (0x0D : UInt8) 0x0A [] text first later (behind others)
    (.inr (.inr (exists_behind others).2)) lines
  rw [append_nil] at behind_
  exact behind_

namespace GenericParser

variable {parser : GenericParser} {astring : Astring}

def AtText (parser : GenericParser) (text : List UInt8) (following : List (List UInt8)) : Prop :=
  ∃ first later, deliveredLines text = first :: later ∧ ∃ before token separator after,
    first = token ++ separator :: after ∧
      parser.AtToken before [] token separator after (later ++ following)

/-- The parser has read a string; the separator behind it may have been read, too. -/
def Behind (parser : GenericParser) (others : List Astring) (following : List (List UInt8)) :
    Prop :=
  ∃ separator first later, isWhitespace separator = true ∧
    deliveredLines (behind others) = (separator :: first) :: later ∧
      (parser.Stands (separator :: first) (later ++ following) ∨
        parser.Stands first (later ++ following))

lemma deliveredLines_behind_nil : deliveredLines (behind []) = [[0x0D, 0x0A]] := by
  decide

/-- The first line of a string that is sent starts with a token. -/
theorem exists_lines_send (astring : Astring) (others : List Astring) :
    ∃ token separator after later, Token [] token separator ∧
      deliveredLines (astring.send ++ behind others) = (token ++ separator :: after) :: later := by
  obtain ⟨line, later, lines, isPrefix⟩ := exists_deliveredLines astring.send others
  obtain ⟨first, rest, sends, visible⟩ := astring.exists_send
  have blank := blank_mem_of_deliveredLines (lines ▸ mem_cons_self :
    line ∈ deliveredLines (astring.send ++ behind others))
  rw [sends] at isPrefix
  cases line with
  | nil =>
    obtain ⟨c, mem, _⟩ := blank
    exact absurd mem not_mem_nil
  | cons c line =>
    obtain ⟨rfl, _⟩ := cons_prefix_cons.mp isPrefix
    have inRest : ∃ d ∈ line, isWhitespace d = true := by
      obtain ⟨d, mem, isBlank⟩ := blank
      rcases mem_cons.mp mem with isFirst | inLine
      · rw [isFirst, visible] at isBlank
        cases isBlank
      · exact ⟨d, inLine, isBlank⟩
    obtain ⟨token, separator, after, split, isToken⟩ := exists_token visible inRest
    exact ⟨token, separator, after, later, isToken, split ▸ lines⟩

lemma deliveredLines_space {text : List UInt8} (lines : deliveredLines text = first :: later) :
    deliveredLines (0x20 :: text) = (0x20 :: first) :: later :=
  @pairLines_behind _ _ (0x0D : UInt8) 0x0A [] [0x20] first later text (.inr (.inl (by decide)))
    lines

lemma exists_lines_behind (others) : ∃ separator first later,
    isWhitespace separator = true ∧
      deliveredLines (behind others) = (separator :: first) :: later := by
  cases others with
  | nil => exact ⟨_, _, _, by decide, deliveredLines_behind_nil⟩
  | cons astring others =>
    obtain ⟨token, separator, after, later, _, lines⟩ := exists_lines_send astring others
    exact ⟨0x20, _, later, by decide, deliveredLines_space lines⟩

lemma Behind.next (behind_ : parser.Behind (astring :: others) following) :
    parser.advanceToNextToken.AtText (astring.send ++ behind others) following := by
  obtain ⟨blank, first, later, isBlank, lines, place⟩ := behind_
  obtain ⟨token, separator, after, later', isToken, inner⟩ := exists_lines_send astring others
  obtain ⟨isFirst, rfl⟩ := List.cons.inj (lines.symm.trans (deliveredLines_space inner))
  obtain ⟨rfl, rfl⟩ := List.cons.inj isFirst
  refine ⟨_, later, inner, ?_⟩
  rcases place with stands | stands
  · have spaced : Token [0x20] token separator :=
      { isToken with blank := forall_mem_singleton.mpr isBlank }
    obtain ⟨before, atToken, _⟩ := Stands.atToken spaced stands
    exact ⟨_, token, separator, after, rfl, atToken.skipBlanks⟩
  · obtain ⟨before, atToken, _⟩ := Stands.atToken isToken stands
    exact ⟨before, token, separator, after, rfl, atToken⟩

lemma Behind.last (behind_ : parser.Behind [] following) :
    parser.advanceToNextToken.AtEnd following := by
  obtain ⟨separator, first, later, blank, lines, place⟩ := behind_
  rw [deliveredLines_behind_nil] at lines
  cases lines
  rcases place with stands | stands
  · exact stands.atEnd (by decide)
  · exact stands.atEnd (by decide)

lemma AtText.line {text : List UInt8} (atText : parser.AtText (text ++ behind others) following)
    (unbroken : 0x0D ∉ text) : ∃ blank first later, isWhitespace blank = true ∧
      deliveredLines (behind others) = (blank :: first) :: later ∧
      ∃ before token separator after, text ++ blank :: first = token ++ separator :: after ∧
        parser.AtToken before [] token separator after (later ++ following) := by
  obtain ⟨line, later, lines, before, token, separator, after, split, atToken⟩ := atText
  obtain ⟨blank, first, later', isBlank, lines'⟩ := exists_lines_behind others
  obtain ⟨rfl, rfl⟩ := List.cons.inj
    ((deliveredLines_append unbroken lines').symm.trans lines)
  exact ⟨blank, first, later', isBlank, lines', before, token, separator, after, split, atToken⟩

lemma AtText.createAstring_atom
    (atText : parser.AtText (astring.send ++ behind others) following)
    (isAtom : astring.form = .atom) : ∃ after,
      parser.createAstring = some (some astring.value, after) ∧ after.Behind others following := by
  have chars := fun c mem => not_null_of_isAstringChar c (astring.atomChars isAtom c mem)
  have sends : astring.send = astring.value := by rw [Astring.send, isAtom]
  rw [sends] at atText
  have unbroken : 0x0D ∉ astring.value := fun mem => (chars _ mem).2.1 rfl
  obtain ⟨blank, first, later, isBlank, lines, before, token, separator, after, split, atToken⟩ :=
    atText.line unbroken
  have isToken : Token [] astring.value blank := by
    refine ⟨atToken.isToken.blank, ?_, astring.nonempty, isBlank⟩
    intro c mem
    obtain ⟨_, _, _, _, _, visible, _⟩ := chars c mem
    exact visible
  obtain ⟨rfl, rfl, rfl⟩ := isToken.unique atToken.isToken split
  have whole : astring.value.takeWhile (isAtomChar true) = astring.value := by
    apply takeWhile_eq_self_iff.mpr
    intro c mem
    obtain ⟨_, _, _, _, _, _, isChar⟩ := chars c mem
    exact isChar
  obtain ⟨c, rest, shape⟩ := exists_cons_of_ne_nil astring.nonempty
  have head : astring.value.head? = some c := congrArg List.head? shape
  obtain ⟨_, _, _, notBrace, notQuote, _, _⟩ := chars c (shape ▸ mem_cons_self)
  refine ⟨parser, ?_, blank, first, later, isBlank, lines, .inr atToken.stands⟩
  rw [createAstring, atToken.tokenText, Option.bind_some, head,
    if_neg (fun same => notBrace (Option.some.inj same)),
    if_neg (fun same => notQuote (Option.some.inj same)), createAtom, atToken.tokenText,
    Option.map_some, whole, if_neg astring.nonempty, if_neg (Nat.lt_irrefl _)]

lemma quotedLoop_quote (returnString rest) (escapeCharsCut : Nat) :
    quotedLoop returnString escapeCharsCut (0x22 :: rest) =
      some (returnString, escapeCharsCut) := by
  cases rest <;> rfl

lemma quotedLoop_escaped (c : UInt8) (returnString rest) (escapeCharsCut : Nat) :
    quotedLoop returnString escapeCharsCut (0x5C :: c :: rest) =
      quotedLoop (returnString ++ [c]) (escapeCharsCut + 1) rest :=
  rfl

lemma quotedLoop_plain (notQuote : c ≠ 0x22) (notBackslash : c ≠ 0x5C) (returnString rest)
    (escapeCharsCut : Nat) :
    quotedLoop returnString escapeCharsCut (c :: rest) =
      quotedLoop (returnString ++ [c]) escapeCharsCut rest := by
  rw [quotedLoop.eq_def]
  dsimp only
  rw [if_neg notQuote, if_neg notBackslash]

lemma quotedLoop_escape (value rest returnString) (escapeCharsCut : Nat) :
    ∃ cut, quotedLoop returnString escapeCharsCut (value.flatMap escapeChar ++ 0x22 :: rest) =
        some (returnString ++ value, escapeCharsCut + cut) ∧
      (value.flatMap escapeChar).length = value.length + cut := by
  induction value generalizing returnString escapeCharsCut with
  | nil =>
    refine ⟨0, ?_, rfl⟩
    rw [flatMap_nil, nil_append, quotedLoop_quote, append_nil]
    rfl
  | cons c value ih =>
    rw [flatMap_cons, append_assoc]
    by_cases special : c = 0x22 ∨ c = 0x5C
    · obtain ⟨cut, read, length⟩ := ih (returnString ++ [c]) (escapeCharsCut + 1)
      refine ⟨cut + 1, ?_, ?_⟩
      · rw [escapeChar, if_pos special, cons_append, singleton_append,
          quotedLoop_escaped, read, append_assoc, Nat.add_right_comm]
        rfl
      · rw [length_append, length, escapeChar, if_pos special, length_cons]
        simp only [length_cons, length_nil]
        omega
    · obtain ⟨notQuote, notBackslash⟩ := not_or.mp special
      obtain ⟨cut, read, length⟩ := ih (returnString ++ [c]) escapeCharsCut
      refine ⟨cut, ?_, ?_⟩
      · rw [escapeChar, if_neg special, singleton_append,
          quotedLoop_plain notQuote notBackslash, read, append_assoc]
        rfl
      · rw [length_append, length, escapeChar, if_neg special, length_cons]
        simp only [length_cons, length_nil]
        omega

lemma AtText.createAstring_quoted
    (atText : parser.AtText (astring.send ++ behind others) following)
    (isQuoted : astring.form = .quoted) : ∃ after,
      parser.createAstring = some (some astring.value, after) ∧ after.Behind others following := by
  obtain ⟨noReturn, _⟩ := astring.oneLine isQuoted
  have sends : astring.send = 0x22 :: astring.value.flatMap escapeChar ++ [0x22] := by
    rw [Astring.send, isQuoted]
  rw [sends] at atText
  have unbroken : 0x0D ∉ 0x22 :: astring.value.flatMap escapeChar ++ [0x22] := by
    have escaped := noNull_escape (by decide) noReturn
    simp only [cons_append, mem_cons, mem_append, not_mem_nil, or_false,
      not_or]
    exact ⟨by decide, escaped, by decide⟩
  obtain ⟨blank, first, later, isBlank, lines, before, token, separator, after, split, atToken⟩ :=
    atText.line unbroken
  obtain ⟨cut, read, length⟩ := quotedLoop_escape astring.value (blank :: first) [] 0
  have text : 0x22 :: (astring.value.flatMap escapeChar ++ 0x22 :: blank :: first) =
      token ++ separator :: after := by
    rw [← split]
    simp only [cons_append, append_assoc, nil_append]
  have head : token.head? = some 0x22 := by
    obtain ⟨c, rest, shape⟩ := exists_cons_of_ne_nil atToken.isToken.some
    rw [shape, cons_append] at text
    rw [shape, ← (List.cons.inj text).1]
    rfl
  have noNull : 0 ∉ astring.value.flatMap escapeChar ++ 0x22 :: blank :: first := by
    intro mem
    apply atToken.noNull
    rw [nil_append, ← text]
    exact mem_cons_of_mem _ mem
  have place : cString (before ++ ([] ++ (token ++ separator :: after))) (before.length + 1) =
      astring.value.flatMap escapeChar ++ 0x22 :: blank :: first := by
    have start : before.length + 1 = (before ++ [0x22]).length := by
      rw [length_append, length_singleton]
    rw [nil_append, ← text, ← singleton_append, ← append_assoc, start]
    exact cString_append noNull
  have distance := atToken.tokenDistance
  rw [length_nil, Nat.add_zero] at distance
  have inside : astring.value.length + (0 + cut) + 2 ≤
      ([] ++ (token ++ separator :: after)).length := by
    rw [nil_append, ← text]
    simp only [length_cons, length_append, length]
    omega
  have left := @AtToken.startingPoint _ _ _ _ _ _ _ atToken
    (parser.tokenDistance + astring.value.length + (0 + cut) + 2)
    (astring.value.length + (0 + cut) + 2) (by omega) inside
  have remains : ([] ++ (token ++ separator :: after)).drop
      (astring.value.length + (0 + cut) + 2) = blank :: first := by
    have count : astring.value.length + (0 + cut) + 2 =
        (0x22 :: astring.value.flatMap escapeChar ++ [0x22]).length := by
      simp only [cons_append, length_cons, length_append, length_nil, length]
      omega
    rw [nil_append, ← split, count, drop_left]
  rw [remains] at left
  refine ⟨_, ?_, blank, first, later, isBlank, lines, .inl left⟩
  rw [createAstring, atToken.tokenText, Option.bind_some, head, if_neg (by decide), if_pos rfl,
    createQuoted, atToken.next, atToken.current]
  dsimp only
  rw [length_nil, Nat.add_zero, Option.getD_some, place, read]
  rfl

end GenericParser

end CommCentral.Imap
