import CommCentral.Lib.Utf8Stream
import CommCentral.Jsmime.ContentDecoders
import CommCentral.Jsmime.ContinuedParameters

/-! `decodeRFC2047Words`: a header is split into encoded words and other text, and a text
decoder is kept from one word to the next. The decoders of labels other than `UTF-8` are a
parameter. -/

namespace CommCentral.Jsmime

open Lib

def charQuestion : UInt16 := 0x3F
def charUnderscore : UInt16 := 0x5F

/-- `TextDecoder` of UTF-8 with `fatal: false`. -/
structure Utf8TextDecoder where
  bomSeen : Bool := false
  state : Utf8State := {}

/-- The units of UTF-16 of a character. -/
def utf16Units (codePoint : Nat) : JsString :=
  if codePoint < 0x10000 then [UInt16.ofNat codePoint]
  else [UInt16.ofNat (0xD800 + (codePoint - 0x10000) / 0x400),
    UInt16.ofNat (0xDC00 + (codePoint - 0x10000) % 0x400)]

/-- A byte order mark at the start of the text is no part of it. -/
def withoutBom (bomSeen : Bool) (characters : List Nat) : List Nat :=
  if !bomSeen ∧ characters.head? = some 0xFEFF then characters.tail else characters

/-- `decode(octets, {stream})`; the state is that of a new decoder again if there is no
more text. -/
def Utf8TextDecoder.decode (decoder : Utf8TextDecoder) (octets : List UInt8) (stream : Bool) :
    JsString × Utf8TextDecoder :=
  let (characters, state) := decoder.state.run octets
  if stream then
    ((withoutBom decoder.bomSeen characters).flatMap utf16Units,
      { bomSeen := decoder.bomSeen || !characters.isEmpty, state })
  else ((withoutBom decoder.bomSeen (characters ++ state.finish)).flatMap utf16Units, {})

/-- `new TextDecoder("UTF-8").decode(octets)` -/
def utf8Decode (octets : List UInt8) : JsString := (Utf8TextDecoder.decode {} octets false).1

/-- The decoders of other labels: `construct` has no result where the charset is unknown,
and `decode()` has no input. -/
structure OtherDecoders (σ : Type) where
  construct : JsString → Option σ
  decode : σ → (input : Option (List UInt8)) → (stream : Bool) → JsString × σ

inductive MimeTextDecoder (σ : Type)
  | utf8 (decoder : Utf8TextDecoder)
  | other (decoder : σ)

section
variable {σ : Type} (others : OtherDecoders σ)

def MimeTextDecoder.construct (charset : JsString) : Option (MimeTextDecoder σ) :=
  if charset = js "UTF-8" then some (.utf8 {}) else (others.construct charset).map .other

def MimeTextDecoder.decode (decoder : MimeTextDecoder σ) (input : Option (List UInt8))
    (stream : Bool) : JsString × MimeTextDecoder σ :=
  match decoder with
  | .utf8 decoder =>
    let (text, next) := decoder.decode (input.getD []) stream
    (text, .utf8 next)
  | .other decoder =>
    let (text, next) := others.decode decoder input stream
    (text, .other next)

end

/-- The text before the next `?`, and the text behind it. -/
def untilQuestion : JsString → Option (JsString × JsString)
  | [] => none
  | c :: rest =>
    if c = charQuestion then some ([], rest)
    else (untilQuestion rest).map fun (before, behind) => (c :: before, behind)

def isEncoding (c : UInt16) : Bool := c ∈ js "BQbq"

/-- `/^=\?[^?]*\?[BQbq]\?[^?]*\?=/`: the length of the match. -/
def wordLength? : JsString → Option Nat
  | c :: d :: rest =>
    if c = charEquals ∧ d = charQuestion then do
      let (charset, rest) ← untilQuestion rest
      match rest with
      | encoding :: e :: rest =>
        if isEncoding encoding ∧ e = charQuestion then do
          let (text, rest) ← untilQuestion rest
          if rest.head? = some charEquals then some (charset.length + text.length + 7) else none
        else none
      | _ => none
    else none
  | _ => none

/-- `split` at encoded words, which are kept. The first `skip` characters belong to the word
that has just been found. -/
def componentsFrom : (skip : Nat) → (plain : JsString) → JsString → List JsString
  | _, plain, [] => [plain]
  | skip + 1, plain, _ :: rest => componentsFrom skip plain rest
  | 0, plain, c :: rest =>
    match wordLength? (c :: rest) with
    | some length => plain :: (c :: rest).take length :: componentsFrom (length - 1) [] rest
    | none => componentsFrom 0 (plain ++ [c]) rest

/-- The number of characters of `[ \t]*(\r\n|[\r\n]|$)`. -/
def softBreakLength? : JsString → Option Nat
  | [] => some 0
  | c :: rest =>
    if c = 0x20 ∨ c = 0x09 then (softBreakLength? rest).map (· + 1)
    else if c = 0x0D then some (if rest.head? = some 0x0A then 2 else 1)
    else if c = 0x0A then some 1
    else none

/-- What an `=` and the characters behind it stand for, and the number of these characters. -/
def qpEscape? : JsString → Option (JsString × Nat)
  | high :: low :: rest =>
    match hexDigitValue? high, hexDigitValue? low with
    | some a, some b => some ([UInt16.ofNat (a * 16 + b)], 2)
    | _, _ => (softBreakLength? (high :: low :: rest)).map fun length => ([], length)
  | rest => (softBreakLength? rest).map fun length => ([], length)

def decodeQpFrom : (skip : Nat) → JsString → JsString
  | _, [] => []
  | skip + 1, _ :: rest => decodeQpFrom skip rest
  | 0, c :: rest =>
    if c = charEquals then
      match qpEscape? rest with
      | some (decoded, length) => decoded ++ decodeQpFrom length rest
      | none => c :: decodeQpFrom 0 rest
    else c :: decodeQpFrom 0 rest

/-- `/[A-Za-z0-9+\/= ]/` -/
def isBase64Char (c : UInt16) : Bool :=
  c < 0x80 && ((base64Value? c.toUInt8).isSome || c = charEquals || c = 0x20)

/-- The binary string that the text of a word stands for. The outer `none`: `atob` throws;
the inner one: the word is not valid. -/
def wordBuffer (encoding text : JsString) : Option (Option JsString) :=
  if encoding = js "B" ∨ encoding = js "b" then
    if text.all isBase64Char then
      (decodeBase64 (text.map UInt16.toUInt8) false).map fun decoded =>
        some (decoded.1.map UInt8.toUInt16)
    else some none
  else if encoding = js "Q" ∨ encoding = js "q" then
    some (some (decodeQpFrom 0 (text.map fun c => if c = charUnderscore then 0x20 else c)))
  else some none

/-- `toUpperCase`, as far as it tells whether the result is a given ASCII string. -/
def upperCase (text : JsString) : JsString :=
  text.map fun c =>
    if 0x61 ≤ c ∧ c ≤ 0x7A then c - 0x20
    else if c = 0x131 then 0x49
    else if c = 0x17F then 0x53
    else c

/-- The text goes back to the ASCII state of ISO-2022-JP. -/
def returnsToAscii (charset buffer : JsString) : Bool :=
  upperCase charset = js "ISO-2022-JP" ∧ [0x1B, 0x28, 0x42] <:+ buffer

/-- `lastCharset` and `currentDecoder`. -/
structure WordState (σ : Type) where
  lastCharset : JsString := []
  currentDecoder : Option (MimeTextDecoder σ) := none

section
variable {σ : Type} (others : OtherDecoders σ)

/-- `currentDecoder.decode()`, or nothing if there is no decoder. -/
def WordState.flush (state : WordState σ) : JsString :=
  state.currentDecoder.elim [] fun decoder => (decoder.decode others none false).1

/-- `decode2047Token` of a word with a charset and a buffer. -/
def decodeBuffer (state : WordState σ) (charset buffer : JsString) (isLastToken : Bool) :
    Option JsString × WordState σ :=
  let other := charset ≠ state.lastCharset
  let output := if other then state.flush others else []
  let kept := if other then none else state.currentDecoder
  match kept.or (MimeTextDecoder.construct others charset) with
  | none => (none, { lastCharset := charset, currentDecoder := none })
  | some decoder =>
    let (text, next) := decoder.decode others (some (buffer.map UInt16.toUInt8))
      (!(isLastToken || returnsToAscii charset buffer))
    (some (output ++ text), { lastCharset := charset, currentDecoder := some next })

/-- `decode2047Token`: the inner `none` stands for `false`, the outer one for an exception. -/
def decode2047Token (state : WordState σ) (token : JsString) (isLastToken : Bool) :
    Option (Option JsString × WordState σ) :=
  match splitAtChar charQuestion token with
  | [_, charset, encoding, text, behind] =>
    if behind = [charEquals] then do
      match ← wordBuffer encoding text with
      | some buffer =>
        return decodeBuffer others state (charset.takeWhile (· != charStar)) buffer isLastToken
      | none => return (none, state)
    else some (none, state)
  | _ => some (none, state)

def startsLikeWord (component : JsString) : Bool := component.take 2 = [charEquals, charQuestion]

def isBlank (component : JsString) : Bool := component.all (js " \t\r\n").contains

/-- The loop over the components; a word is the last one if no later component starts like
a word. -/
def decodeComponents (state : WordState σ) : List JsString → Option JsString
  | [] => some []
  | component :: later => do
    let kept : Option JsString × WordState σ ←
      if startsLikeWord component then
        decode2047Token others state component (!later.any startsLikeWord)
      else if isBlank component then some (some [], state)
      else some (none, state)
    match kept with
    | (some decoded, next) => return decoded ++ (← decodeComponents next later)
    | (none, next) => return next.flush others ++ component ++ (← decodeComponents {} later)

def decodeRFC2047Words (headerValue : JsString) : Option JsString :=
  decodeComponents others {} (componentsFrom 0 [] headerValue)

end

end CommCentral.Jsmime
