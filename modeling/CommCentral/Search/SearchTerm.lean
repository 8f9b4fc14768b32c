import CommCentral.Lib.Decision
import CommCentral.Lib.Tokens

/-! A search term, and how it is matched with keywords and with the headers of a message. -/
namespace CommCentral.Search

open Lib

inductive MsgSearchOp
  | contains | doesntContain | is | isnt | isEmpty
  | isBefore | isAfter | isHigherThan | isLowerThan
  | beginsWith | endsWith | soundsLike | ldapDwim | isGreaterThan | isLessThan
  | nameCompletion | isInAB | isntInAB | isntEmpty | matchesCustom | doesntMatchCustom
  deriving DecidableEq

/-- `nsMsgSearchTerm`, where it holds a text to look for. -/
structure MsgSearchTerm where
  operator : MsgSearchOp
  utf8String : List UInt8 := []
  utf16String : List UInt16 := []
  arbitraryHeader : List UInt8 := []

/-- A result, and whether the call succeeded. -/
structure Matched where
  result : Bool
  succeeded : Bool := true
  deriving DecidableEq

/-- The characters up to the first NUL. -/
def cString (text : List UInt8) : List UInt8 := text.takeWhile (· ≠ 0)

lemma cString_eq_self {text : List UInt8} (noNul : 0 ∉ text) : cString text = text := by
  rw [cString, List.takeWhile_eq_self_iff]
  intro byte mem
  exact decide_eq_true fun isNul => noNul (isNul ▸ mem)

/-- `PL_strstr`, as a place in the text. -/
def strstr (text needle : List UInt8) : Option Nat :=
  if cString needle = [] then none else firstOccurrence (cString needle) (cString text)

/-- The loop that looks for the value from a place of the keywords on. -/
def findKeyword (keywordString value : List UInt8) : (steps place : Nat) → Bool
  | 0, _ => false
  | steps + 1, place =>
    match strstr (keywordString.drop place) value with
    | none => false
    | some offset =>
      let matchStart := place + offset
      let matchEnd := matchStart + value.length
      if (matchStart = 0 ∨ keywordString[matchStart - 1]? = some 32) ∧
          ((cString keywordString)[matchEnd]? = none ∨ keywordString[matchEnd]? = some 32) then true
      else findKeyword keywordString value steps matchEnd

namespace MsgSearchTerm

variable (term : MsgSearchTerm)

/-- The loop over the tokens of the keywords, of which only those with valid keys count, with
what the last of them was. -/
def matchTokens (isValidKey : List UInt8 → Bool) :
    (keywordArray : List (List UInt8)) → (lastMatched : Bool) → Matched
  | [], lastMatched =>
    match term.operator with
    | .is => ⟨lastMatched, true⟩
    | .isnt => ⟨!lastMatched, true⟩
    | .isEmpty => ⟨true, true⟩
    | .isntEmpty => ⟨false, true⟩
    | _ => ⟨false, false⟩
  | token :: rest, lastMatched =>
    if isValidKey token then
      if term.operator = .isEmpty then ⟨false, true⟩
      else if term.operator = .isntEmpty then ⟨true, true⟩
      else if token = term.utf8String then matchTokens isValidKey rest true
      else if term.operator = .is then ⟨false, true⟩
      else if term.operator = .isnt then ⟨true, true⟩
      else matchTokens isValidKey rest false
    else matchTokens isValidKey rest lastMatched

/-- `MatchKeyword`, where the tag service has the keys `tagKeys`. -/
def matchKeyword (tagKeys : List (List UInt8)) (keywordList : List UInt8) : Matched :=
  if keywordList = [] then
    ⟨term.operator ≠ .contains ∧ term.operator ≠ .is ∧ term.operator ≠ .isntEmpty, true⟩
  else if term.operator = .doesntContain ∨ term.operator = .contains then
    if findKeyword keywordList term.utf8String (keywordList.length + 1) 0 then
      ⟨term.operator = .contains, true⟩
    else ⟨term.operator = .doesntContain, true⟩
  else term.matchTokens (· ∈ tagKeys) (tokens 32 keywordList) false

end MsgSearchTerm

end CommCentral.Search
