import CommCentral.Jsmime.HeaderTokens
import Mathlib

/-! `parseParameterHeader` with RFC 2231: values that are percent-encoded, in some charset,
or in several segments. The text decoder is a parameter; it has no result where it
throws. -/

namespace CommCentral.Jsmime
open List

def charPercent : UInt16 := 0x25
def charApostrophe : UInt16 := 0x27
def charZero : UInt16 := 0x30

def hexDigitValue? (c : UInt16) : Option Nat :=
  if 0x30 ≤ c ∧ c ≤ 0x39 then some (c.toNat - 0x30)
  else if 0x41 ≤ c ∧ c ≤ 0x46 then some (c.toNat - 0x41 + 10)
  else if 0x61 ≤ c ∧ c ≤ 0x66 then some (c.toNat - 0x61 + 10)
  else none

/-- Replaces `/%([0-9A-Fa-f]{2})/g`. -/
def percentDecode : JsString → JsString
  | c :: high :: low :: rest =>
    if c = charPercent then
      match hexDigitValue? high, hexDigitValue? low with
      | some a, some b => UInt16.ofNat (a * 16 + b) :: percentDecode rest
      | _, _ => c :: percentDecode (high :: low :: rest)
    else c :: percentDecode (high :: low :: rest)
  | text => text

/-- The value of a name that ends with `*` may be percent-encoded. -/
def decodeStarred (name value : JsString) : JsString :=
  if name.getLast? = some charStar then percentDecode value else value

def ParameterLoop.next2231 (loop : ParameterLoop) : HeaderToken → ParameterLoop
  | .delimiter c => loop.next (.delimiter c)
  | .text token => loop.next (.text (if loop.inName then token else decodeStarred loop.name token))

/-- The integer of type `Number` that is nearest to a natural number, ties to even. Those
from `2 ^ 1024` on stand for `Infinity`. -/
def nearestNumber (n : Nat) : Nat :=
  if n < 2 ^ 53 then n
  else
    let unit := 2 ^ (n.log2 - 52)
    let quotient := n / unit
    let up := n % unit * 2 > unit ∨ n % unit * 2 = unit ∧ quotient % 2 = 1
    min ((if up then quotient + 1 else quotient) * unit) (2 ^ 1024)

def isDecimalDigit (c : UInt16) : Bool := 0x30 ≤ c && c ≤ 0x39

def parseInt (digits : JsString) : Nat :=
  nearestNumber (digits.foldl (fun value c => value * 10 + (c.toNat - 0x30)) 0)

/-- The segments of a parameter: an array with gaps. Strings have no room for so many
segments that the limit on the length of an array matters. -/
structure Continuation where
  valid : Bool := true
  hasCharset : Option Bool := none
  items : List (Nat × JsString) := []

/-- `entry[i]` -/
def Continuation.get? (entry : Continuation) (i : Nat) : Option JsString :=
  (entry.items.find? fun item => item.1 == i).map Prod.snd

def Continuation.length (entry : Continuation) : Nat :=
  (entry.items.map fun item => item.1 + 1).foldl max 0

/-- One more segment; `tail` is what comes behind the first star of its name. -/
def Continuation.add (tail value : JsString) (entry : Continuation) : Continuation :=
  if !entry.valid then entry
  else
    let lastStar := tail.getLast? == some charStar
    let number := if lastStar then tail.dropLast else tail
    if number ≠ [charZero] ∧
        (number = [] ∨ number.head? = some charZero ∨ !number.all isDecimalDigit) then
      { entry with valid := false }
    else
      let entry := if number = [charZero] then { entry with hasCharset := some lastStar } else entry
      if (entry.get? (parseInt number)).isSome then { entry with valid := false }
      else { entry with items := entry.items ++ [(parseInt number, value)] }

/-- Where the loop over the segments stops: behind the first gap. -/
def Continuation.stop (entry : Continuation) : Nat → Nat → Nat
  | 0, i => i
  | more + 1, i => if entry.get? i = none then i + 1 else entry.stop more (i + 1)

/-- `entry.slice(0, i).join("")`: a gap is joined as the empty string. -/
def Continuation.join (entry : Continuation) : JsString :=
  ((List.range (entry.stop entry.length 0)).map fun i => (entry.get? i).getD []).flatten

/-- `Map`, in the order of insertion. -/
abbrev JsMap (α : Type) := List (JsString × α)

def JsMap.get? (map : JsMap α) (key : JsString) : Option α :=
  (map.find? fun pair => pair.1 == key).map Prod.snd

def JsMap.modify (new : α) (change : α → α) : JsMap α → JsString → JsMap α
  | [], key => [(key, change new)]
  | (other, value) :: map, key =>
    if other = key then (other, change value) :: map
    else (other, value) :: JsMap.modify new change map key

def JsMap.set (map : JsMap α) (key : JsString) (value : α) : JsMap α :=
  JsMap.modify value (fun _ => value) map key

def JsMap.setFirst (map : JsMap α) (key : JsString) (value : α) : JsMap α :=
  JsMap.modify value id map key

/-- The three kinds of values. -/
structure ParameterMaps where
  simpleValues : JsMap JsString := []
  charsetValues : JsMap JsString := []
  continuationValues : JsMap Continuation := []

/-- What comes before the first star, and what comes behind it. -/
def splitStar (name : JsString) : JsString × Option JsString :=
  (name.takeWhile (· != charStar), (name.dropWhile (· != charStar)).tail?)

def ParameterMaps.add (maps : ParameterMaps) (pair : JsString × JsString) : ParameterMaps :=
  match splitStar pair.1 with
  | (name, none) => { maps with simpleValues := maps.simpleValues.setFirst name pair.2 }
  | (name, some []) => { maps with charsetValues := maps.charsetValues.setFirst name pair.2 }
  | (name, some tail) =>
    { maps with
      continuationValues :=
        JsMap.modify {} (Continuation.add tail pair.2) maps.continuationValues name }

/-- `decode2231Value`. -/
def decode2231Value (decode : JsString → List UInt8 → Option JsString) (value : JsString) :
    Option JsString :=
  let charset := if charApostrophe ∈ value then value.takeWhile (· != charApostrophe) else []
  let behind := if charApostrophe ∈ value then
    (value.dropWhile (· != charApostrophe)).tail else value
  let text := if charApostrophe ∈ behind ∧ charApostrophe ∈ value then
    (behind.dropWhile (· != charApostrophe)).tail else behind
  decode charset (text.map UInt16.toUInt8)

section
variable (decode : JsString → List UInt8 → Option JsString)

/-- Puts a value in, unless its charset is bad. -/
def setDecoded (values : JsMap JsString) (name : JsString) :
    Option JsString → JsMap JsString
  | some value => values.set name value
  | none => values

/-- The value of the segments, where the first one is known. -/
def addContinuation (values : JsMap JsString) (pair : JsString × Continuation) : JsMap JsString :=
  match pair.2.hasCharset with
  | none => values
  | some false => values.set pair.1 pair.2.join
  | some true => setDecoded values pair.1 (decode2231Value decode pair.2.join)

def addCharsetValue (values : JsMap JsString) (pair : JsString × JsString) : JsMap JsString :=
  setDecoded values pair.1 (decode2231Value decode pair.2)

/-- The name and value pairs of the parameters. -/
def parameterPairs (rest : JsString) : List (JsString × JsString) :=
  ((getHeaderTokens rest [charSemicolon, charEquals]).foldl ParameterLoop.next2231 {}).finish

/-- `parseParameterHeader(headerValue, false, true)`. -/
def parseParameterHeader2231 (headerValue : JsString) : Parameters :=
  let start := headerValue.takeWhile (· != charSemicolon)
  let rest := headerValue.dropWhile (· != charSemicolon)
  let maps := (parameterPairs rest).foldl ParameterMaps.add {}
  let values := maps.continuationValues.foldl (addContinuation decode) maps.simpleValues
  { preSemi := (trim start).takeWhile fun c => !isWsp c
    values := maps.charsetValues.foldl (addCharsetValue decode) values }

end

/-- A character of a token that is no quoted string. -/
def AtomChar (c : UInt16) : Prop :=
  isWsp c = false ∧ c ≠ charSemicolon ∧ c ≠ charEquals ∧ c ≠ charQuote ∧ c ≠ charBackslash

instance (c : UInt16) : Decidable (AtomChar c) := inferInstanceAs (Decidable (_ ∧ _))

/-- White space between tokens. -/
def Space (text : JsString) : Prop := ∀ c ∈ text, isWsp c = true

inductive QuotedText : JsString → JsString → Prop
  | nil : QuotedText [] []
  | char (c : UInt16) {text value : JsString} (noQuote : c ≠ charQuote)
      (noEscape : c ≠ charBackslash) (rest : QuotedText text value) : QuotedText (c :: text) (c :: value)
  | pair (c : UInt16) {text value : JsString} (rest : QuotedText text value) :
      QuotedText (charBackslash :: c :: text) (c :: value)

/-- A value as a token, which may be empty, or as a quoted string. -/
inductive ValueText : JsString → JsString → Prop
  | token (text : JsString) (atoms : ∀ c ∈ text, AtomChar c) : ValueText text text
  | quoted {text value : JsString} (inside : QuotedText text value) :
      ValueText (charQuote :: (text ++ [charQuote])) value

structure ParameterText where
  name : JsString
  value : JsString
  text : JsString
  named : name ≠ []
  atoms : ∀ c ∈ name, AtomChar c
  shape : ∃ beforeName afterName beforeValue valueText afterValue : JsString,
    Space beforeName ∧ Space afterName ∧ Space beforeValue ∧ Space afterValue ∧
    ValueText valueText value ∧
    text = charSemicolon :: (beforeName ++ (name ++ (afterName ++ charEquals ::
      (beforeValue ++ (valueText ++ afterValue)))))

/-- `;name=value` -/
def ParameterText.token (name value : JsString) (named : name ≠ [])
    (atoms : ∀ c ∈ name, AtomChar c) (plain : ∀ c ∈ value, AtomChar c) : ParameterText where
  name := name
  value := value
  text := charSemicolon :: (name ++ charEquals :: value)
  named := named
  atoms := atoms
  shape := by
    have space : Space [] := fun c member => absurd member not_mem_nil
    refine ⟨[], [], [], value, [], space, space, space, space, .token value plain, ?_⟩
    rw [append_nil]
    rfl

def parameterDelimiters : JsString := [charSemicolon, charEquals]

/-- What can follow a token. -/
def EndsToken (rest : JsString) : Prop :=
  ∀ c, rest.head? = some c → isWsp c = true ∨ c ∈ parameterDelimiters

section
variable {text value rest : JsString}

lemma unescape_atoms (atoms : ∀ c ∈ text, AtomChar c) : unescape text = text := by
  induction text with
  | nil => rfl
  | cons c text ih =>
    obtain ⟨first, others⟩ := forall_mem_cons.mp atoms
    rw [unescape.eq_def]
    simp only [if_neg first.2.2.2.2, ih others]

lemma unescape_quoted (inside : QuotedText text value) : unescape text = value := by
  induction inside with
  | nil => rfl
  | char c noQuote noEscape rest ih => rw [unescape.eq_def]; simp only [if_neg noEscape, ih]
  | pair c rest ih => rw [unescape.eq_def]; simp only [if_true, ih]

lemma scan_space (space : Space text) (rest) :
    scanTokens parameterDelimiters .none (text ++ rest) =
      scanTokens parameterDelimiters .none rest := by
  induction text with
  | nil => rfl
  | cons c text ih =>
    obtain ⟨first, others⟩ := forall_mem_cons.mp space
    have notEscape : c ≠ charBackslash := by
      rintro rfl
      cases first
    rw [cons_append, scanTokens.eq_def]
    simp only [if_neg notEscape, first, if_true, ih others]

lemma scan_delimiter (delimiter : c ∈ parameterDelimiters) (rest) :
    scanTokens parameterDelimiters .none (c :: rest) =
      .delimiter c :: scanTokens parameterDelimiters .none rest := by
  have plain : ∀ d ∈ parameterDelimiters, d ≠ charBackslash ∧ isWsp d = false := by decide
  obtain ⟨notEscape, notSpace⟩ := plain c delimiter
  rw [scanTokens.eq_def]
  simp only [if_neg notEscape, notSpace, if_pos delimiter, Bool.false_eq_true, if_false]

lemma scan_atom (atoms : ∀ c ∈ text, AtomChar c) (before rest) :
    scanTokens parameterDelimiters (.atom before) (text ++ rest) =
      scanTokens parameterDelimiters (.atom (before ++ text)) rest := by
  induction text generalizing before with
  | nil => rw [append_nil, nil_append]
  | cons c text ih =>
    obtain ⟨⟨notSpace, notSemicolon, notEquals, notQuote, notEscape⟩, others⟩ :=
      forall_mem_cons.mp atoms
    have notDelimiter : c ∉ parameterDelimiters := by
      simp [parameterDelimiters, notSemicolon, notEquals]
    rw [cons_append, scanTokens.eq_def]
    simp only [if_neg notEscape, notSpace, if_neg notDelimiter, if_neg notQuote,
      Bool.false_eq_true, if_false]
    rw [ih others, append_assoc, singleton_append]

lemma scan_token (atoms : ∀ c ∈ text, AtomChar c) (nonempty : text ≠ []) (rest : JsString) :
    scanTokens parameterDelimiters .none (text ++ rest) =
      scanTokens parameterDelimiters (.atom text) rest := by
  cases text with
  | nil => exact absurd rfl nonempty
  | cons c text =>
    obtain ⟨⟨notSpace, notSemicolon, notEquals, notQuote, notEscape⟩, others⟩ :=
      forall_mem_cons.mp atoms
    have notDelimiter : c ∉ parameterDelimiters := by
      simp [parameterDelimiters, notSemicolon, notEquals]
    rw [cons_append, scanTokens.eq_def]
    simp only [if_neg notEscape, notSpace, if_neg notDelimiter, if_neg notQuote,
      Bool.false_eq_true, if_false]
    exact scan_atom others [c] rest

lemma scan_close (ends : EndsToken rest) (before) :
    scanTokens parameterDelimiters (.atom before) rest =
      .text (unescape before) :: scanTokens parameterDelimiters .none rest := by
  cases rest with
  | nil => simp only [scanTokens, TokenStart.close]
  | cons c rest =>
    rcases ends c rfl with space | delimiter
    · have notEscape : c ≠ charBackslash := by
        rintro rfl
        cases space
      rw [scanTokens.eq_def]
      simp only [if_neg notEscape, space, if_true, TokenStart.close]
      have skipped := @scan_space [c] (by simpa [Space] using space) rest
      rw [singleton_append] at skipped ⊢
      rw [skipped]
    · have plain : ∀ d ∈ parameterDelimiters, d ≠ charBackslash ∧ isWsp d = false := by decide
      obtain ⟨notEscape, notSpace⟩ := plain c delimiter
      rw [scan_delimiter delimiter, scanTokens.eq_def]
      simp only [if_neg notEscape, notSpace, if_pos delimiter, Bool.false_eq_true, if_false,
        TokenStart.close]
      rfl

lemma scan_quoted (inside : QuotedText text value) (before rest) :
    scanTokens parameterDelimiters (.quoted before) (text ++ charQuote :: rest) =
      .text (unescape (before ++ text)) :: scanTokens parameterDelimiters .none rest := by
  induction inside generalizing before with
  | nil =>
    have notEscape : charQuote ≠ charBackslash := by decide
    rw [nil_append, append_nil, scanTokens.eq_def]
    simp only [if_neg notEscape, if_true, TokenStart.close]
    rfl
  | @char c text value noQuote noEscape inside ih =>
    rw [cons_append, scanTokens.eq_def]
    simp only [if_neg noEscape, if_neg noQuote]
    rw [ih, append_assoc, singleton_append]
  | @pair c text value inside ih =>
    rw [cons_append, cons_append, scanTokens.eq_def]
    simp only [if_true, TokenStart.push]
    rw [ih, append_assoc]
    rfl

lemma scan_value (shape : ValueText text value) (ends : EndsToken rest) :
    scanTokens parameterDelimiters .none (text ++ rest) =
        .text value :: scanTokens parameterDelimiters .none rest ∨
      value = [] ∧ scanTokens parameterDelimiters .none (text ++ rest) =
        scanTokens parameterDelimiters .none rest := by
  cases shape with
  | token text atoms =>
    by_cases nonempty : text = []
    · exact .inr ⟨nonempty, by rw [nonempty, nil_append]⟩
    · left
      rw [scan_token atoms nonempty, scan_close ends, unescape_atoms atoms]
  | quoted inside =>
    left
    have notEscape : charQuote ≠ charBackslash := by decide
    have notSpace : isWsp charQuote = false := rfl
    have notDelimiter : charQuote ∉ parameterDelimiters := by decide
    rw [cons_append, append_assoc, singleton_append, scanTokens.eq_def]
    simp only [if_neg notEscape, notSpace, if_neg notDelimiter, if_true, Bool.false_eq_true,
      if_false]
    rw [scan_quoted inside, nil_append, unescape_quoted inside]

end

lemma endsToken_space (blank : Space space) (ends : EndsToken rest) :
    EndsToken (space ++ rest) := by
  cases space with
  | nil => exact ends
  | cons c space =>
    intro d found
    cases found
    exact .inl (blank c (mem_cons_self ..))

lemma endsToken_cons (delimiter : c ∈ parameterDelimiters) (rest) : EndsToken (c :: rest) := by
  intro d found
  cases found
  exact .inr delimiter

variable (parameter : ParameterText)

lemma ParameterText.scan (ends : EndsToken rest) :
    ∃ value, (value = [.text parameter.value] ∨ value = [] ∧ parameter.value = []) ∧
      scanTokens parameterDelimiters .none (parameter.text ++ rest) =
        .delimiter charSemicolon :: .text parameter.name :: .delimiter charEquals ::
          (value ++ scanTokens parameterDelimiters .none rest) := by
  obtain ⟨beforeName, afterName, beforeValue, valueText, afterValue, space1, space2, space3, space4,
    shape, text⟩ := parameter.shape
  have close : EndsToken (afterName ++ charEquals ::
      (beforeValue ++ (valueText ++ (afterValue ++ rest)))) :=
    endsToken_space space2 (endsToken_cons (by decide) _)
  have behind := scan_value shape (endsToken_space space4 ends)
  rw [scan_space space4] at behind
  have front : scanTokens parameterDelimiters .none (parameter.text ++ rest) =
      .delimiter charSemicolon :: .text parameter.name :: .delimiter charEquals ::
        scanTokens parameterDelimiters .none (valueText ++ (afterValue ++ rest)) := by
    rw [text]
    simp only [cons_append, append_assoc]
    rw [scan_delimiter (by decide), scan_space space1, scan_token parameter.atoms parameter.named,
      scan_close close, unescape_atoms parameter.atoms, scan_space space2,
      scan_delimiter (by decide), scan_space space3]
  rcases behind with token | ⟨empty, nothing⟩
  · exact ⟨[.text parameter.value], .inl rfl, by rw [front, token]; rfl⟩
  · exact ⟨[], .inr ⟨rfl, empty⟩, by rw [front, nothing]; rfl⟩

def ParameterText.pair (parameter : ParameterText) : JsString × JsString :=
  (parameter.name, decodeStarred parameter.name parameter.value)

lemma ParameterText.starts : parameter.text.head? = some charSemicolon := by
  obtain ⟨_, _, _, _, _, -, -, -, -, -, text⟩ := parameter.shape
  rw [text]
  rfl

lemma parameterPairs_texts (parameters : List ParameterText) :
    parameterPairs (parameters.map ParameterText.text).flatten =
      parameters.map ParameterText.pair := by
  have loop : ∀ state : ParameterLoop,
      ((scanTokens parameterDelimiters .none (parameters.map ParameterText.text).flatten).foldl
        ParameterLoop.next2231 state).finish =
          state.finish ++ parameters.map ParameterText.pair := by
    induction parameters with
    | nil =>
      intro state
      simp [scanTokens, TokenStart.close]
    | cons parameter parameters ih =>
      intro state
      have ends : EndsToken (parameters.map ParameterText.text).flatten := by
        cases parameters with
        | nil =>
          intro c found
          cases found
        | cons next parameters =>
          intro c found
          rw [map_cons, flatten_cons, head?_append, next.starts] at found
          cases found
          exact .inr (by decide)
      obtain ⟨value, shape, tokens⟩ := parameter.scan ends
      have opened : ((state.next2231 (.delimiter charSemicolon)).next2231
          (.text parameter.name)).next2231 (.delimiter charEquals) =
            { name := parameter.name, inName := false, pairs := state.finish } := rfl
      rw [map_cons, flatten_cons, tokens, foldl_cons, foldl_cons,
        foldl_cons, opened, map_cons]
      rcases shape with rfl | ⟨rfl, empty⟩
      · have taken : ParameterLoop.next2231
            { name := parameter.name, inName := false, pairs := state.finish }
            (.text parameter.value) =
              { name := [], inName := false, pairs := state.finish ++ [parameter.pair] } := by
          simp [ParameterLoop.next2231, ParameterLoop.next, parameter.named, ParameterText.pair]
        rw [singleton_append, foldl_cons, taken, ih]
        simp [ParameterLoop.finish]
      · have none : parameter.pair = (parameter.name, []) := by
          rw [ParameterText.pair, decodeStarred, empty]
          split <;> rfl
        rw [nil_append, ih, none]
        simp [ParameterLoop.finish, parameter.named]
  exact loop {}

end CommCentral.Jsmime
