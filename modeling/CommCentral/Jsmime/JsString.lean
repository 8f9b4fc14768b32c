import CommCentral.Lib.Decision
import Mathlib.Data.List.DropRight

/-! JavaScript strings as lists of UTF-16 units, with the operations of `String` that the
MIME library uses. -/
namespace CommCentral.Jsmime
open List

abbrev JsString := List UInt16

def js (text : String) : JsString := text.toList.map fun c => UInt16.ofNat c.toNat

def crlf : JsString := [0x0D, 0x0A]

/-- White space and line terminators, the characters that `trim` removes. -/
def isWhiteSpace (c : UInt16) : Bool :=
  (0x09 ≤ c && c ≤ 0x0D) || c == 0x20 || c == 0xA0 || c == 0x1680 ||
    (0x2000 ≤ c && c ≤ 0x200A) || c == 0x2028 || c == 0x2029 || c == 0x202F ||
    c == 0x205F || c == 0x3000 || c == 0xFEFF

def trimLeft (text : JsString) : JsString := text.dropWhile isWhiteSpace

def trimRight (text : JsString) : JsString := text.rdropWhile isWhiteSpace

def lastIndexOf? (c : UInt16) : JsString → Option Nat
  | [] => none
  | first :: rest =>
    match lastIndexOf? c rest with
    | some index => some (index + 1)
    | none => if first = c then some 0 else none

def splitAtChar (c : UInt16) : JsString → List JsString
  | [] => [[]]
  | first :: rest =>
    if first = c then [] :: splitAtChar c rest
    else (splitAtChar c rest).modifyHead (first :: ·)

/-- `split("\r\n")`. -/
def splitLines : JsString → List JsString
  | [] => [[]]
  | [c] => [[c]]
  | c :: d :: rest =>
    if c = 0x0D ∧ d = 0x0A then [] :: splitLines rest
    else (splitLines (d :: rest)).modifyHead (c :: ·)

lemma splitLines_ne_nil (text) : splitLines text ≠ [] := by
  fun_induction splitLines text with
  | case1 | case2 | case3 => exact cons_ne_nil _ _
  | case4 c d rest other ih =>
    intro nothing
    apply ih
    exact length_eq_zero_iff.mp (by
      simpa only [length_modifyHead, length_nil] using congrArg List.length nothing)

variable (text later : JsString)

/-- A line break ends the lines before it. -/
theorem splitLines_append :
    splitLines (text ++ crlf ++ later) = splitLines text ++ splitLines later := by
  fun_induction splitLines text with
  | case1 => rfl
  | case2 c =>
    change splitLines (c :: 0x0D :: 0x0A :: later) = _
    rw [splitLines, if_neg (fun both => absurd both.2 (by decide)), splitLines,
      if_pos ⟨rfl, rfl⟩]
    rfl
  | case3 c d rest lineBreak ih =>
    change splitLines (c :: d :: (rest ++ crlf ++ later)) = _
    rw [splitLines, if_pos lineBreak, ih]
    rfl
  | case4 c d rest other ih =>
    change splitLines (c :: d :: (rest ++ crlf ++ later)) = _
    rw [splitLines, if_neg other]
    change (splitLines (d :: rest ++ crlf ++ later)).modifyHead (c :: ·) = _
    rw [ih]
    cases pieces : splitLines (d :: rest) with
    | nil => exact absurd pieces (splitLines_ne_nil _)
    | cons piece others => rfl

/-- The line has nothing but white space. -/
def Blank (line : JsString) : Prop := ∀ c ∈ line, isWhiteSpace c

instance (line : JsString) : Decidable (Blank line) :=
  inferInstanceAs (Decidable (∀ c ∈ line, isWhiteSpace c))

def NoBlankLine (text : JsString) : Prop := ∀ line ∈ splitLines text, ¬ Blank line

instance (text : JsString) : Decidable (NoBlankLine text) :=
  inferInstanceAs (Decidable (∀ line ∈ splitLines text, ¬ Blank line))

lemma noBlankLine_append :
    NoBlankLine (text ++ crlf ++ later) ↔ NoBlankLine text ∧ NoBlankLine later := by
  unfold NoBlankLine
  rw [splitLines_append, forall_mem_append]

end CommCentral.Jsmime
