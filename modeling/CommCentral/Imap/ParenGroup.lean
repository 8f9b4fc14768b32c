import CommCentral.Imap.AstringLiteral

/-! Parenthesised groups in the responses of an IMAP server: how they are copied and how they are
skipped. -/
namespace CommCentral.Imap

open Lib List Option

namespace GenericParser

/-- The variables of the loop of `CreateParenGroup`. -/
structure ParenCopy where
  numOpenParens : Int
  returnString : List UInt8
  parenGroupStart : Nat

/-- The loop of `CreateParenGroup`. There is no result without fuel, or where the place holder
points to nothing or into a line that has been freed. -/
def parenLoop : Nat → GenericParser → ParenCopy → Option (GenericParser × ParenCopy)
  | 0, _, _ => none
  | fuel + 1, parser, copy =>
    match parser.fStartOfLineOfTokens, parser.fCurrentTokenPlaceHolder with
    | some buffer, some place =>
      match cString buffer place with
      | [] => some (parser, copy)
      | c :: _ =>
        if c = 0x7B then
          let copy :=
            { copy with
              returnString := copy.returnString ++ cString buffer copy.parenGroupStart }
          let parser := parser.advanceToNextToken
          if parser.continueParse then do
            let (lit, parser) ← parser.createLiteral
            match lit with
            | none => some (parser, copy)
            | some lit =>
              let copy := { copy with returnString := copy.returnString ++ cString lit 0 }
              if parser.continueParse then
                let place ← parser.fCurrentTokenPlaceHolder
                parenLoop fuel parser { copy with parenGroupStart := place }
              else some (parser, copy)
          else some (parser, copy)
        else if c = 0x22 then
          -- the quoted string is only skipped
          let parser := parser.advanceToNextToken
          if parser.continueParse then do
            let (q, parser) ← parser.createQuoted
            if q.isSome && parser.continueParse then parenLoop fuel parser copy
            else some (parser, copy)
          else some (parser, copy)
        else
          let parser := { parser with fCurrentTokenPlaceHolder := some (place + 1) }
          if c = 0x28 then
            parenLoop fuel parser { copy with numOpenParens := copy.numOpenParens + 1 }
          else if c = 0x29 then
            let copy := { copy with numOpenParens := copy.numOpenParens - 1 }
            if copy.numOpenParens = 0 then some (parser, copy) else parenLoop fuel parser copy
          else parenLoop fuel parser copy
    | _, _ => none

def createParenGroup (fuel : Nat) (parser : GenericParser) : Option Created := do
  let parser := parser.advanceTokenizerStartingPoint parser.tokenDistance
  let parenGroupStart ← parser.fCurrentTokenPlaceHolder
  let (parser, copy) ← parenLoop fuel parser ⟨0, [], parenGroupStart⟩
  if copy.numOpenParens ≠ 0 ∨ parser.continueParse = false then
    return (none, parser.setSyntaxError)
  let buffer ← parser.fStartOfLineOfTokens
  let place ← parser.fCurrentTokenPlaceHolder
  let last := (buffer.drop copy.parenGroupStart).take (place - copy.parenGroupStart)
  return (some (copy.returnString ++ last), parser.advanceToNextToken)

/-- Where the loop over the characters of a token ends: behind the token, at the matching close
paren, or at a string. The parens that are needed are counted on. -/
inductive ParenScan where
  | behind (needed : Nat)
  | close (skipped : Nat)
  | string (skipped needed : Nat)

def scanParens (needed skipped : Nat) : List UInt8 → ParenScan
  | [] => .behind needed
  | c :: rest =>
    if c = 0x28 then scanParens (needed + 1) (skipped + 1) rest
    else if c = 0x29 then
      if needed - 1 = 0 then .close skipped else scanParens (needed - 1) (skipped + 1) rest
    else if c = 0x7B ∨ c = 0x22 then .string skipped needed
    else scanParens needed (skipped + 1) rest

/-- `fNextToken` moved on inside the token. -/
def skipInToken (parser : GenericParser) (skipped : Nat) : GenericParser :=
  { parser with
    fNextToken := match parser.fNextToken with
      | .at offset => .at (offset + skipped)
      | other => other }

def createString (parser : GenericParser) : Option Created :=
  parser.tokenText.bind fun token =>
    if token.head? = some 0x7B then parser.createLiteral
    else if token.head? = some 0x22 then parser.createQuoted
    else some (none, parser.setSyntaxError)

/-- The loop of `skip_to_close_paren`; there is no result only without fuel. -/
def skipLoop : Nat → GenericParser → (numberOfCloseParensNeeded : Nat) → Option GenericParser
  | 0, _, _ => none
  | fuel + 1, parser, needed =>
    if parser.continueParse then
      match scanParens needed 0 (parser.tokenText.getD []) with
      | .behind needed => skipLoop fuel parser.advanceToNextToken needed
      | .close skipped =>
        let parser := parser.skipInToken (skipped + 1)
        some (if parser.tokenText.getD [] = [] then parser.advanceToNextToken else parser)
      | .string skipped needed => do
        let (_, parser) ← (parser.skipInToken skipped).createString
        skipLoop fuel (if parser.continueParse then parser.advanceToNextToken else parser) needed
    else some parser

def skipToCloseParen (fuel : Nat) (parser : GenericParser) : Option GenericParser :=
  skipLoop fuel parser 1

end GenericParser

/-- A character of an atom or a space between the parts of a group. -/
def isPlainChar (c : UInt8) : Bool :=
  !([0, 0x0D, 0x0A, 0x28, 0x29, 0x7B, 0x22] : List UInt8).contains c

/-- A quoted string stands in one line, and the length of a literal is an unsigned number of 32
bits. -/
inductive Piece where
  | opening
  | closing
  | plain (c : UInt8) (isPlain : isPlainChar c = true)
  | quoted (value : List UInt8) (oneLine : 0 ∉ value ∧ 0x0D ∉ value ∧ 0x0A ∉ value)
  | literal (value : List UInt8) (noNull : 0 ∉ value) (short : value.length < 2 ^ 32)

namespace Piece

def send : Piece → List UInt8
  | .opening => [0x28]
  | .closing => [0x29]
  | .plain c _ => [c]
  | .quoted value _ => 0x22 :: (value.flatMap escapeChar ++ [0x22])
  | .literal value _ _ => literalHead value ++ crlf ++ value

/-- The literal has a length that is an `int`, and does not end with a line. -/
def Fits : Piece → Prop
  | .literal value _ _ => value.length < 2 ^ 31 ∧ lastLine value ≠ []
  | _ => True

end Piece

def sendAll (pieces : List Piece) : List UInt8 := pieces.flatMap Piece.send

/-- As many parens are open, and the last piece closes the last of them. -/
def Closes : (depth : Nat) → List Piece → Prop
  | 0, pieces => pieces = []
  | _ + 1, [] => False
  | depth + 1, .opening :: pieces => Closes (depth + 2) pieces
  | depth + 1, .closing :: pieces => Closes depth pieces
  | depth + 1, _ :: pieces => Closes (depth + 1) pieces

/-- A group of nested parentheses: the pieces behind the first one. -/
structure ParenGroup where
  pieces : List Piece
  closes : Closes 1 pieces

def ParenGroup.send (group : ParenGroup) : List UInt8 := 0x28 :: sendAll group.pieces

structure ResponseEnd where
  text : List UInt8
  noNull : 0 ∉ text
  ends : ∃ before, text = before ++ crlf

namespace GenericParser

/-- The parser is inside a line, between what was copied and may have been overwritten and the text
that has not been read. -/
structure StandsIn (parser : GenericParser) (copied rest : List UInt8)
    (lines : List (List UInt8)) : Prop where
  lines : parser.lines = lines
  ok : parser.continueParse = true
  inLine : parser.fAtEndOfLine = false
  noNull : 0 ∉ rest
  current : ∃ before, before.length = copied.length ∧ parser.fCurrentLine = some (before ++ rest)
  copy : parser.fStartOfLineOfTokens = some (copied ++ rest)
  place : parser.fCurrentTokenPlaceHolder = some copied.length
  starting : parser.fLineOfTokens ≤ copied.length

/-- The parser has cut the line behind a word, which may be what is left of a token. -/
structure AtWord (parser : GenericParser) (copied word : List UInt8) (separator : UInt8)
    (after : List UInt8) (lines : List (List UInt8)) : Prop where
  lines : parser.lines = lines
  ok : parser.continueParse = true
  inLine : parser.fAtEndOfLine = false
  visible : ∀ c ∈ word, isWhitespace c = false
  separates : isWhitespace separator = true
  noNull : 0 ∉ word ++ separator :: after
  current : ∃ before, before.length = copied.length ∧
    parser.fCurrentLine = some (before ++ (word ++ separator :: after))
  copy : parser.fStartOfLineOfTokens = some (copied ++ (word ++ 0 :: after))
  place : parser.fCurrentTokenPlaceHolder = some (copied.length + word.length + 1)
  starting : parser.fLineOfTokens ≤ copied.length

variable {parser : GenericParser} {copied word after rest : List UInt8} {lines : List (List UInt8)}

lemma StandsIn.stands (stands : parser.StandsIn copied rest lines) :
    parser.Stands rest lines := by
  obtain ⟨before, same, current⟩ := stands.current
  exact ⟨stands.lines, stands.ok, stands.inLine, stands.noNull,
    .inr ⟨before, copied, current, stands.copy, same.symm, same ▸ stands.place,
      same ▸ stands.starting⟩⟩

lemma Stands.standsIn (stands : parser.Stands rest lines)
    (copy : parser.fStartOfLineOfTokens ≠ none) : ∃ copied, parser.StandsIn copied rest lines := by
  rcases stands.place with ⟨-, fresh⟩ | ⟨before, copied, current, isCopy, same, place, starting⟩
  · exact absurd fresh copy
  · exact ⟨copied, stands.lines, stands.ok, stands.inLine, stands.noNull,
      ⟨before, same.symm, current⟩, isCopy, same ▸ place, same ▸ starting⟩

lemma AtToken.atWord (atToken : parser.AtToken before blanks word separator after lines) :
    ∃ copied, parser.AtWord copied word separator after lines ∧
      parser.fNextToken = .at copied.length := by
  have skipped := atToken.skipBlanks
  obtain ⟨copied, same, copy⟩ := skipped.copied
  refine ⟨copied, ⟨skipped.lines, skipped.ok, skipped.inLine, skipped.isToken.word,
    skipped.isToken.separates, skipped.noNull, ⟨_, same.symm, skipped.current⟩, copy, ?_, ?_⟩, ?_⟩
  · rw [same]
    exact skipped.place
  · rw [same]
    exact skipped.starting
  · rw [same]
    exact skipped.next

section AtWord

variable (atWord : parser.AtWord copied word separator after lines)
include atWord

lemma AtWord.atToken (nonempty : word ≠ []) (next : parser.fNextToken = .at copied.length) :
    ∃ before, parser.AtToken before [] word separator after lines := by
  obtain ⟨before, same, current⟩ := atWord.current
  have noBlank : ∀ c ∈ ([] : List UInt8), isWhitespace c = true := nofun
  refine ⟨before, atWord.lines, atWord.ok, atWord.inLine,
    ⟨noBlank, atWord.visible, nonempty, atWord.separates⟩, atWord.noNull, current,
    ⟨copied, same.symm, atWord.copy⟩, ?_, ?_, ?_⟩
  · rw [same]
    exact next
  · rw [same]
    exact atWord.place
  · rw [same]
    exact atWord.starting

/-- The first character belongs to the text before the word. -/
theorem AtWord.tail (shape : word = c :: others) :
    parser.AtWord (copied ++ [c]) others separator after lines := by
  subst shape
  obtain ⟨before, same, current⟩ := atWord.current
  refine ⟨atWord.lines, atWord.ok, atWord.inLine,
    fun d mem => atWord.visible d (mem_cons_of_mem _ mem), atWord.separates,
    fun mem => atWord.noNull (mem_cons_of_mem _ mem), ⟨before ++ [c], ?_, ?_⟩, ?_, ?_,
    ?_⟩
  · rw [length_append, length_append, same]
  · rw [current, append_assoc]
    rfl
  · rw [atWord.copy, append_assoc]
    rfl
  · rw [atWord.place, length_append, length_cons, length_singleton]
    congr 1
    omega
  · rw [length_append]
    exact atWord.starting.trans (Nat.le_add_right _ _)

lemma AtWord.tokenText (next : parser.fNextToken = .at copied.length) :
    parser.tokenText = some word := by
  have keeps : ∀ c ∈ word, (c != 0) = true := fun c mem =>
    bne_iff_ne.mpr fun isNull => atWord.noNull (mem_append_left _ (isNull ▸ mem))
  rw [GenericParser.tokenText, next, atWord.copy]
  dsimp only
  rw [getD_some, cString, drop_left, takeWhile_append_of_pos keeps,
    takeWhile_cons_of_neg (by decide), append_nil]

lemma AtWord.standsIn :
    parser.StandsIn (copied ++ (word ++ [0])) after lines := by
  obtain ⟨before, same, current⟩ := atWord.current
  refine ⟨atWord.lines, atWord.ok, atWord.inLine,
    fun mem => atWord.noNull (mem_append_right _ (mem_cons_of_mem _ mem)),
    ⟨before ++ (word ++ [separator]), ?_, ?_⟩, ?_, ?_, ?_⟩
  · simp only [length_append, same, length_singleton]
  · rw [current]
    simp only [append_assoc, cons_append, nil_append]
  · rw [atWord.copy]
    simp only [append_assoc, cons_append, nil_append]
  · rw [atWord.place]
    simp only [length_append, length_singleton, Nat.add_assoc]
  · rw [length_append]
    exact atWord.starting.trans (Nat.le_add_right _ _)

/-- The separator is put back, and the text before the place is as it was. -/
theorem AtWord.startingPoint {read rest : List UInt8}
    (split : word ++ separator :: after = read ++ rest)
    (place : parser.fLineOfTokens + bytesToAdvance = copied.length + read.length) :
    (parser.advanceTokenizerStartingPoint bytesToAdvance).StandsIn (copied ++ read) rest lines := by
  obtain ⟨before, same, current⟩ := atWord.current
  have separatorAt : (before ++ (word ++ separator :: after)).getD
      (copied.length + word.length) 0 = separator := by
    rw [← same, getD_append_right _ _ _ _ (Nat.le_add_right _ _),
      Nat.add_sub_cancel_left, getD_append_right _ _ _ _ (Nat.le_refl _), Nat.sub_self,
      getD_cons_zero]
  have recovered : parser.recoverSeparator = copied ++ (read ++ rest) := by
    rw [recoverSeparator, atWord.place, current, atWord.copy]
    dsimp only
    rw [getD_some, getD_some, separatorAt,
      set_append_right _ _ (Nat.le_add_right _ _), Nat.add_sub_cancel_left,
      set_append_right _ _ (Nat.le_refl _), Nat.sub_self, set_cons_zero, split]
  have notNone : ¬ parser.fStartOfLineOfTokens.isNone = true := by
    rw [atWord.copy]
    exact Bool.false_ne_true
  have advanced : parser.advanceTokenizerStartingPoint bytesToAdvance =
      { parser with
        fStartOfLineOfTokens := some (copied ++ (read ++ rest))
        fLineOfTokens := copied.length + read.length
        fCurrentTokenPlaceHolder := some (copied.length + read.length) } := by
    rw [advanceTokenizerStartingPoint, if_neg notNone, if_neg notNone, recovered, place]
  rw [advanced]
  have noNull : 0 ∉ rest := by
    intro mem
    apply atWord.noNull
    rw [split]
    exact mem_append_right _ mem
  refine ⟨atWord.lines, atWord.ok, atWord.inLine, noNull, ⟨before ++ read, ?_, ?_⟩, ?_, ?_, ?_⟩
  · rw [length_append, length_append, same]
  · rw [append_assoc, ← split]
    exact current
  · rw [append_assoc]
  · rw [length_append]
  · rw [length_append]

lemma AtWord.tokenDistance (next : parser.fNextToken = .at copied.length) :
    parser.fLineOfTokens + parser.tokenDistance = copied.length := by
  have starting := atWord.starting
  rw [GenericParser.tokenDistance, next]
  dsimp only
  omega

end AtWord

lemma StandsIn.atWord (isToken : Token [] token separator)
    (stands : parser.StandsIn copied (token ++ separator :: after) lines) :
    parser.advanceToNextToken.AtWord copied token separator after lines ∧
      parser.advanceToNextToken.fNextToken = .at copied.length := by
  have kept : parser.copyLine = parser := by
    simp only [GenericParser.copyLine, stands.copy]
  have found := @nsStrtok_token copied [] token after separator isToken stands.noNull
  rw [nil_append] at found
  rw [stands.stands.advanceToNextToken_eq, kept, nextToken, stands.copy, stands.place,
    getD_some, found]
  refine ⟨⟨stands.lines, stands.ok, ?_, isToken.word, isToken.separates, stands.noNull,
    stands.current, rfl, rfl, stands.starting⟩, rfl⟩
  exact (Bool.or_false _).trans stands.inLine

lemma AtWord.createQuoted (atWord : parser.AtWord copied word separator after lines)
    (next : parser.fNextToken = .at copied.length) {value : List UInt8}
    (split : word ++ separator :: after = 0x22 :: (value.flatMap escapeChar ++ [0x22]) ++ rest) :
    ∃ later, parser.createQuoted = some (some value, later) ∧
      later.StandsIn (copied ++ 0x22 :: (value.flatMap escapeChar ++ [0x22])) rest lines := by
  obtain ⟨cut, read, length⟩ := quotedLoop_escape value rest [] 0
  obtain ⟨before, same, current⟩ := atWord.current
  have text : word ++ separator :: after = 0x22 :: (value.flatMap escapeChar ++ 0x22 :: rest) := by
    rw [split]
    simp only [cons_append, append_assoc, nil_append]
  have noNull : 0 ∉ value.flatMap escapeChar ++ 0x22 :: rest := by
    intro mem
    apply atWord.noNull
    rw [text]
    exact mem_cons_of_mem _ mem
  have place : cString (before ++ (word ++ separator :: after)) (copied.length + 1) =
      value.flatMap escapeChar ++ 0x22 :: rest := by
    have start : copied.length + 1 = (before ++ [0x22]).length := by
      rw [length_append, length_singleton, same]
    rw [text, ← singleton_append, ← append_assoc, start]
    exact cString_append noNull
  have distance := atWord.tokenDistance next
  have moved : parser.fLineOfTokens + (parser.tokenDistance + value.length + (0 + cut) + 2) =
      copied.length + (0x22 :: (value.flatMap escapeChar ++ [0x22])).length := by
    simp only [length_cons, length_append, length_nil]
    omega
  have left := atWord.startingPoint split moved
  refine ⟨_, ?_, left⟩
  rw [GenericParser.createQuoted, next, current]
  dsimp only
  rw [getD_some, place, read]
  rfl

lemma AtWord.createLiteral {value first : List UInt8} (atWord : parser.AtWord copied (literalHead
      value) separator after ((pairLines 0x0D 0x0A [] value).1 ++ (lastLine value ++ first) ::
      later)) (next : parser.fNextToken = .at copied.length) (noNull : 0 ∉ value)
    (small : value.length < 2 ^ 31) (noNullFirst : 0 ∉ first) (nonempty : first ≠ []) :
    ∃ (behind : GenericParser) (copy : LiteralCopy),
      behind.Copied copy (lastLine value) first later ∧
      parser.createLiteral = some (some value, behind.behindLiteral copy) := by
  have whole : (pairLines 0x0D 0x0A [] value).1.flatten ++ lastLine value = value :=
    flatten_pairLines [] value
  have noNullFull : ∀ line ∈ (pairLines 0x0D 0x0A [] value).1, (0 : UInt8) ∉ line :=
    fun line mem => noNull_of_deliveredLines noNull mem
  have nonemptyFull : ∀ line ∈ (pairLines (0x0D : UInt8) 0x0A [] value).1, line ≠ [] := by
    intro line mem
    obtain ⟨before, rfl⟩ := pairLines_concat mem
    exact concat_ne_nil _ _
  have noNullLast : 0 ∉ lastLine value ++ first := by
    intro mem
    rcases mem_append.mp mem with inLast | inFirst
    · exact noNull_lastLine noNull inLast
    · exact noNullFirst inFirst
  have enough : (pairLines (0x0D : UInt8) 0x0A [] value).1.length + 1 <
      parser.lines.length + 1 := by
    rw [atWord.lines, length_append, length_cons]
    omega
  have even : (⟨[], 0, 0⟩ : LiteralCopy).currentLineLength =
      (⟨[], 0, 0⟩ : LiteralCopy).bytesToCopy := rfl
  obtain ⟨behind, copy, ran, returned, isCopied⟩ := literalLoop_lines noNullFull nonemptyFull
    noNullLast nonempty atWord.ok atWord.lines even enough
  rw [whole, length_nil, Nat.zero_add] at ran
  rw [whole, nil_append] at returned
  have notMinusOne : ¬ (value.length : Int) = -1 := by omega
  have tail : (literalHead value).tail = showDecimal value.length ++ [0x7D] := rfl
  refine ⟨behind, copy, isCopied, ?_⟩
  rw [GenericParser.createLiteral, atWord.tokenText next, bind_some, tail, atoi_small small,
    if_neg notMinusOne, ran, map_some]
  dsimp only
  rw [returned]

end GenericParser

end CommCentral.Imap
