import Mathlib.Data.List.Basic
import Mathlib.Data.Nat.Digits.Defs

/-! The tokenizer of the IMAP response parser (`nsImapGenericParser`). -/
namespace CommCentral.Imap

def isWhitespace (c : UInt8) : Bool := c = 0x20 || c = 0x0D || c = 0x0A

def cString (buffer : List UInt8) (offset : Nat) : List UInt8 :=
  (buffer.drop offset).takeWhile (· != 0)

/-- What `fNextToken` points to: nothing, the constant `CRLF`, or a place in the copied line. -/
inductive NextToken where
  | null
  | crlf
  | at (offset : Nat)
deriving DecidableEq

/-- The members of `nsImapGenericParser`, and the lines that the connection has yet to deliver. The
pointers into the copied line are offsets. -/
structure GenericParser where
  lines : List (List UInt8)
  fNextToken : NextToken
  fCurrentLine : Option (List UInt8)
  fLineOfTokens : Nat
  fStartOfLineOfTokens : Option (List UInt8)
  fCurrentTokenPlaceHolder : Option Nat
  fAtEndOfLine : Bool
  stateSyntaxError : Bool
  stateDisconnected : Bool
deriving DecidableEq

/-- The results of `NS_strtok`: the token, the buffer, and the place to go on at. -/
structure Strtok where
  token : Option Nat
  buffer : List UInt8
  place : Option Nat
deriving DecidableEq

/-- `NS_strtok(WHITESPACE, …)`, which ends the token with a null. -/
def nsStrtok (buffer : List UInt8) : (place : Option Nat) → Strtok
  | none => ⟨none, buffer, none⟩
  | some place =>
    let rest := cString buffer place
    let start := place + (rest.takeWhile isWhitespace).length
    let token := (rest.dropWhile isWhitespace).takeWhile (!isWhitespace ·)
    if token = [] then ⟨none, buffer, some start⟩
    else
      let stop := start + token.length
      if stop < place + rest.length then ⟨some start, buffer.set stop 0, some (stop + 1)⟩
      else ⟨some start, buffer, none⟩

namespace GenericParser

def isSpace (c : UInt8) : Bool := c = 0x20 || (0x09 ≤ c && c ≤ 0x0D)

def isDigit (c : UInt8) : Bool := 0x30 ≤ c && c ≤ 0x39

def decimalValue (text : List UInt8) : Nat :=
  (text.takeWhile isDigit).foldl (fun number c => 10 * number + (c.toNat - 0x30)) 0

/-- `atoi`, which is `strtol` with its result cut to an `int`. -/
def atoi (text : List UInt8) : Int :=
  let number : Int := match text.dropWhile isSpace with
    | 0x2D :: digits => max (-2 ^ 63) (-(decimalValue digits : Int))
    | 0x2B :: digits => min (2 ^ 63 - 1) (decimalValue digits)
    | digits => min (2 ^ 63 - 1) (decimalValue digits)
  number.bmod (2 ^ 32)

def continueParse (parser : GenericParser) : Bool :=
  !parser.stateSyntaxError && !parser.stateDisconnected

/-- The parser after `ResetLexAnalyzer`. -/
def start (lines : List (List UInt8)) : GenericParser where
  lines := lines
  fNextToken := .null
  fCurrentLine := none
  fLineOfTokens := 0
  fStartOfLineOfTokens := none
  fCurrentTokenPlaceHolder := none
  fAtEndOfLine := false
  stateSyntaxError := false
  stateDisconnected := false

def setSyntaxError (parser : GenericParser) : GenericParser :=
  { parser with stateSyntaxError := true }

/-- There is no next line when the connection has ended. -/
def advanceToNextLine (parser : GenericParser) : GenericParser :=
  match parser.lines with
  | [] =>
    { parser with
      stateDisconnected := true
      fCurrentLine := none
      fStartOfLineOfTokens := none
      fLineOfTokens := 0
      fCurrentTokenPlaceHolder := none
      fAtEndOfLine := true
      fNextToken := .crlf }
  | line :: lines =>
    -- `fLineOfTokens` and the place holder are left until the next line is copied
    { parser with
      lines := lines
      fCurrentLine := some line
      fStartOfLineOfTokens := none
      fNextToken := .null
      fAtEndOfLine := (cString line 0).all isWhitespace }

/-- The copied line, set up for the first token. -/
def copyLine (parser : GenericParser) : GenericParser :=
  match parser.fStartOfLineOfTokens with
  | some _ => parser
  | none =>
    { parser with
      fStartOfLineOfTokens := parser.fCurrentLine
      fLineOfTokens := 0
      fCurrentTokenPlaceHolder := some 0 }

def nextToken (parser : GenericParser) : GenericParser :=
  let found := nsStrtok (parser.fStartOfLineOfTokens.getD []) parser.fCurrentTokenPlaceHolder
  { parser with
    fStartOfLineOfTokens := some found.buffer
    fCurrentTokenPlaceHolder := found.place
    fNextToken := match found.token with
      | some offset => .at offset
      | none => .crlf
    fAtEndOfLine := parser.fAtEndOfLine || found.token.isNone }

def advanceToNextToken (parser : GenericParser) : GenericParser :=
  let parser := if parser.fCurrentLine.isNone ∨ parser.fAtEndOfLine then parser.advanceToNextLine
    else parser
  if parser.stateDisconnected then parser
  else parser.copyLine.nextToken

/-- The separator that the last token has overwritten is put back. -/
def recoverSeparator (parser : GenericParser) : List UInt8 :=
  let copied := parser.fStartOfLineOfTokens.getD []
  match parser.fCurrentTokenPlaceHolder with
  | some (endTokenOffset + 1) =>
    copied.set endTokenOffset ((parser.fCurrentLine.getD []).getD endTokenOffset 0)
  | _ => copied

def advanceTokenizerStartingPoint (parser : GenericParser) (bytesToAdvance : Nat) : GenericParser :=
  let parser := if parser.fStartOfLineOfTokens.isNone then parser.advanceToNextToken else parser
  if parser.fStartOfLineOfTokens.isNone then parser
  else
    { parser with
      fStartOfLineOfTokens := some parser.recoverSeparator
      fLineOfTokens := parser.fLineOfTokens + bytesToAdvance
      fCurrentTokenPlaceHolder := some (parser.fLineOfTokens + bytesToAdvance) }

/-- The string that `fNextToken` points to. -/
def tokenText (parser : GenericParser) : Option (List UInt8) :=
  match parser.fNextToken with
  | .null => none
  | .crlf => some [0x0D, 0x0A]
  | .at offset => some (cString (parser.fStartOfLineOfTokens.getD []) offset)

/-- How far the token is from `fLineOfTokens`, which it never stands before. -/
def tokenDistance (parser : GenericParser) : Nat :=
  match parser.fNextToken with
  | .at offset => offset - parser.fLineOfTokens
  | _ => 0

/-- The characters of an atom; a `char` is signed. -/
def isAtomChar (isAstring : Bool) (c : UInt8) : Bool :=
  ((42 < c && c < 128) || c = 33 || c = 35 || c = 36 || c = 38 || c = 39) &&
    c != 0x5C && c != 0x7B && (isAstring || c != 0x5D)

/-- A string that was read, if any, and the parser afterwards. -/
abbrev Created := Option (List UInt8) × GenericParser

def createAtom (parser : GenericParser) (isAstring : Bool) : Option Created :=
  parser.tokenText.map fun token =>
    let atom := token.takeWhile (isAtomChar isAstring)
    if atom = [] then (none, parser.setSyntaxError)
    else if atom.length < token.length then
      (some atom, parser.advanceTokenizerStartingPoint (parser.tokenDistance + atom.length))
    else (some atom, parser)

/-- The loop of `CreateQuoted`: the characters up to the closing quote, and how many escape
characters have been cut. -/
def quotedLoop (returnString : List UInt8) (escapeCharsCut : Nat) :
    List UInt8 → Option (List UInt8 × Nat)
  | [] => none
  | c :: rest =>
    if c = 0x22 then some (returnString, escapeCharsCut)
    else if c = 0x5C then
      match rest with
      | [] => none
      | escaped :: rest => quotedLoop (returnString ++ [escaped]) (escapeCharsCut + 1) rest
    else quotedLoop (returnString ++ [c]) escapeCharsCut rest

/-- The quoted string is read from the current line, at the place of the token in its copy. -/
def createQuoted (parser : GenericParser) : Option Created :=
  match parser.fNextToken with
  | .at offset =>
    match quotedLoop [] 0 (cString (parser.fCurrentLine.getD []) (offset + 1)) with
    | none => some (none, parser.setSyntaxError)
    | some (returnString, escapeCharsCut) =>
      some (some returnString, parser.advanceTokenizerStartingPoint
        (parser.tokenDistance + returnString.length + escapeCharsCut + 2))
  | _ => none

/-- The variables of the loop of `CreateLiteral`. -/
structure LiteralCopy where
  returnString : List UInt8
  currentLineLength : Nat
  bytesToCopy : Nat

/-- The loop of `CreateLiteral`; there is no result only without fuel. -/
def literalLoop (numberOfCharsInMessage : Int) :
    Nat → GenericParser → LiteralCopy → Option (GenericParser × LiteralCopy)
  | 0, _, _ => none
  | fuel + 1, parser, copy =>
    if (copy.returnString.length : Int) < numberOfCharsInMessage then
      let parser := parser.advanceToNextLine
      if parser.continueParse then
        let line := cString (parser.fCurrentLine.getD []) 0
        let bytesToCopy := min line.length (numberOfCharsInMessage.toNat - copy.returnString.length)
        literalLoop numberOfCharsInMessage fuel parser
          ⟨copy.returnString ++ line.take bytesToCopy, line.length, bytesToCopy⟩
      else some (parser, copy)
    else some (parser, copy)

/-- What `CreateLiteral` does behind its loop. -/
def behindLiteral (parser : GenericParser) (copy : LiteralCopy) : GenericParser :=
  if parser.continueParse then
    -- the entire line is consumed
    if copy.currentLineLength = copy.bytesToCopy then parser.advanceToNextLine
    else parser.advanceTokenizerStartingPoint copy.bytesToCopy
  else parser

def createLiteral (parser : GenericParser) : Option Created :=
  parser.tokenText.bind fun token =>
    let numberOfCharsInMessage := atoi token.tail
    -- `numBytes` is zero
    if numberOfCharsInMessage = -1 then some (none, parser)
    else
      (literalLoop numberOfCharsInMessage (parser.lines.length + 1) parser ⟨[], 0, 0⟩).map
        fun (parser, copy) => (some copy.returnString, parser.behindLiteral copy)

/-- There is no result where `fNextToken` is null. -/
def createAstring (parser : GenericParser) : Option Created :=
  parser.tokenText.bind fun token =>
    if token.head? = some 0x7B then parser.createLiteral
    else if token.head? = some 0x22 then parser.createQuoted
    else parser.createAtom true

/-- `CreateAstring` and `AdvanceToNextToken`, `count` times. -/
def readAstrings : (count : Nat) → GenericParser →
    Option (List (Option (List UInt8)) × GenericParser)
  | 0, parser => some ([], parser)
  | count + 1, parser => do
    let (created, parser) ← parser.createAstring
    let (others, parser) ← readAstrings count parser.advanceToNextToken
    some (created :: others, parser)

end GenericParser

end CommCentral.Imap
