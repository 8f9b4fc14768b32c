import CommCentral.Lib.JoinedParts
import CommCentral.Search.SearchTerm

/-! How a search term is matched with a header of a message that is read line by line. -/
namespace CommCentral.Search

open Lib

/-- What matching asks the MIME converter, the address book and the string library. -/
structure MatchEnv where
  decodeMimeHeader : List UInt8 → List UInt16
  /-- Whether the directory has a card for an address, if there is a directory. -/
  cardForEmailAddress : Option (List UInt16 → Bool)
  findIgnoringCase : (needle text : List UInt16) → Bool
  equalIgnoringCase : List UInt16 → List UInt16 → Bool

namespace MatchEnv

variable (env : MatchEnv) (source substring : List UInt16)

def stringBeginsWith : Bool :=
  substring.length ≤ source.length &&
    env.equalIgnoringCase (source.take substring.length) substring

def stringEndsWith : Bool :=
  substring.length ≤ source.length &&
    env.equalIgnoringCase (source.drop (source.length - substring.length)) substring

end MatchEnv

/-- `isspace` in the C locale. -/
def isSpace (byte : UInt8) : Bool := (9 ≤ byte && byte ≤ 13) || byte = 32

def isAsciiWhitespace (byte : UInt8) : Bool :=
  byte = 32 || byte = 9 || byte = 10 || byte = 12 || byte = 13

def toLowerAscii (byte : UInt8) : UInt8 := if 65 ≤ byte ∧ byte ≤ 90 then byte + 32 else byte

/-- `nsCaseInsensitiveCStringComparator` -/
def equalIgnoringAsciiCase (first second : List UInt8) : Bool :=
  first.map toLowerAscii = second.map toLowerAscii

def emptyMessageLine (line : List UInt8) : Bool :=
  line.head?.all fun byte => byte = 13 || byte = 10 || byte = 0

/-- The line continues the header of the line before it. -/
def isContinuation (line : List UInt8) : Bool := line.head?.any isAsciiWhitespace

def stripWhiteSpace (text : List UInt8) : List UInt8 := trim isSpace text

/-- The part of a value after `start` characters of a line, and after a colon there. -/
def valueInLine (start : Nat) (line : List UInt8) : List UInt8 :=
  let headerValue := line.drop start
  cString (stripWhiteSpace
    (if headerValue.head? = some 58 then headerValue.tail else headerValue))

def appendValue (headerFullValue part : List UInt8) : List UInt8 :=
  (if headerFullValue = [] then [] else headerFullValue ++ [32]) ++ part

namespace MsgSearchTerm

variable (env : MatchEnv) (term : MsgSearchTerm)

def matchInAddressBook (address : List UInt16) : Matched :=
  if address = [] then ⟨false, env.cardForEmailAddress.isSome⟩
  else
    match env.cardForEmailAddress with
    | none => ⟨false, false⟩
    | some hasCard =>
      match term.operator with
      | .isInAB => ⟨hasCard address, true⟩
      | .isntInAB => ⟨!hasCard address, true⟩
      | _ => ⟨false, false⟩

def matchString (text : List UInt16) : Matched :=
  match term.operator with
  | .contains => ⟨env.findIgnoringCase term.utf16String text, true⟩
  | .doesntContain => ⟨!env.findIgnoringCase term.utf16String text, true⟩
  | .is => ⟨env.equalIgnoringCase term.utf16String text, true⟩
  | .isnt => ⟨!env.equalIgnoringCase term.utf16String text, true⟩
  | .isEmpty => ⟨text = [], true⟩
  | .isntEmpty => ⟨text ≠ [], true⟩
  | .beginsWith => ⟨env.stringBeginsWith text term.utf16String, true⟩
  | .endsWith => ⟨env.stringEndsWith text term.utf16String, true⟩
  | _ => ⟨false, false⟩

def matchRfc2047String (rfc2047string : List UInt8) : Matched :=
  let stringToMatch := env.decodeMimeHeader rfc2047string
  if term.operator = .isInAB ∨ term.operator = .isntInAB then
    term.matchInAddressBook env stringToMatch
  else term.matchString env stringToMatch

/-- The operators that look for a value which matches, and not for one that does not. -/
def matchExpected : Bool := term.operator ∈ [.contains, .is, .beginsWith, .endsWith]

/-- A value that has been read in full: the result that ends the search, or the return code with
which it goes on. -/
def checkValue (headerFullValue : List UInt8) (succeeded : Bool) : Matched ⊕ Bool :=
  if headerFullValue = [] then .inr succeeded
  else
    let matched := term.matchRfc2047String env headerFullValue
    if term.matchExpected = matched.result then .inl matched else .inr matched.succeeded

/-- The loop over the lines of the header block that the body handler hands over. -/
def matchLines (result : Bool) :
    (lines : List (List UInt8)) → (headerFullValue curMsgHeader : List UInt8) →
      (succeeded : Bool) → Matched
  | [], headerFullValue, _, succeeded =>
    match term.checkValue env headerFullValue succeeded with
    | .inl matched => matched
    | .inr succeeded => ⟨result, succeeded⟩
  | buf :: lines, headerFullValue, curMsgHeader, succeeded =>
    if emptyMessageLine buf then
      match term.checkValue env headerFullValue succeeded with
      | .inl matched => matched
      | .inr succeeded => ⟨result, succeeded⟩
    else if isContinuation buf then
      if equalIgnoringAsciiCase curMsgHeader term.arbitraryHeader then
        matchLines result lines (appendValue headerFullValue (valueInLine 1 buf)) curMsgHeader
          succeeded
      else matchLines result lines headerFullValue curMsgHeader succeeded
    else
      match term.checkValue env headerFullValue succeeded with
      | .inl matched => matched
      | .inr succeeded =>
        let curMsgHeader := buf.takeWhile (· ≠ 58)
        if equalIgnoringAsciiCase curMsgHeader term.arbitraryHeader then
          matchLines result lines (valueInLine term.arbitraryHeader.length buf) curMsgHeader
            succeeded
        else matchLines result lines [] curMsgHeader succeeded

/-- `MatchArbitraryHeader`, with the value of the header that the database has. -/
def matchArbitraryHeader (dbHdrValue : List UInt8) (lines : List (List UInt8)) : Matched :=
  if dbHdrValue = [] then term.matchLines env (!term.matchExpected) lines [] [] true
  else
    let matched := term.matchRfc2047String env dbHdrValue
    if term.matchExpected = matched.result then matched
    else term.matchLines env matched.result lines [] [] matched.succeeded

end MsgSearchTerm

end CommCentral.Search
