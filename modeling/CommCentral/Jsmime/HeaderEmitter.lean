import CommCentral.Jsmime.JsString
import CommCentral.Lib.Attempt

/-! The header emitter of `jsmime.js`: the line being built, its margins and breakpoints,
and the text, phrases and encoded words put on it. -/
namespace CommCentral.Jsmime

open Lib

/-- The option or its default, within the bounds. -/
def clamp (value : Option Int) (min max default : Int) : Int :=
  match value with
  | none => default
  | some value => if value < min then min else if value > max then max else value

structure EmitterOptions where
  softMargin : Option Int := none
  hardMargin : Option Int := none
  useASCII : Option Bool := none
  sanitizeDate : Option Bool := none

/-- What the constructor makes of the options. The default of the hard margin is not
raised to the soft margin. -/
structure Settings where
  useASCII : Bool
  sanitizeDate : Bool
  softMargin : Nat
  hardMargin : Nat
  softMargin_ge : 30 ≤ softMargin
  hardMargin_ge : 30 ≤ hardMargin

lemma le_clamp {value : Option Int} {min max default bound : Int} (least : bound ≤ min)
    (most : bound ≤ max) (usual : bound ≤ default) : bound ≤ clamp value min max default := by
  cases value with
  | none => exact usual
  | some value =>
    rw [clamp]
    split
    · exact least
    · split <;> omega

def EmitterOptions.settings (options : EmitterOptions) : Settings :=
  let softMargin := clamp options.softMargin 30 900 78
  { useASCII := options.useASCII.getD true
    sanitizeDate := options.sanitizeDate.getD false
    softMargin := softMargin.toNat
    hardMargin := (clamp options.hardMargin softMargin 998 332).toNat
    softMargin_ge := by
      have least : 30 ≤ softMargin := le_clamp (by decide) (by decide) (by decide)
      omega
    hardMargin_ge := by
      have least : 30 ≤ softMargin := le_clamp (by decide) (by decide) (by decide)
      have bound : 30 ≤ clamp options.hardMargin softMargin 998 332 :=
        le_clamp least (by decide) (by decide)
      omega }

/-- A call of `_reserveTokenSpace`: the line it finds and the space it asks for. -/
structure Reservation where
  currentLine : JsString
  preferredBreakpoint : Nat
  length : Nat

/-- The emitter with what its handler received, each line without its CRLF. The
reservations are no part of the program: they are kept to speak about its runs. -/
structure Emitter where
  currentLine : JsString := []
  preferredBreakpoint : Nat := 0
  delivered : List JsString := []
  reservations : List Reservation := []

/-- The handler's `value`. -/
def Emitter.value (emitter : Emitter) : JsString :=
  (emitter.delivered.map fun line => line ++ crlf).flatten

inductive EmitError
  /-- "Cannot encode " + text + " due to length." -/
  | dueToLength (text : JsString)
  /-- "Cannot encode an invalid date" -/
  | invalidDate
  /-- "Date year is out of encodable range" -/
  | yearOutOfRange
  /-- "Unknown header " + name -/
  | unknownHeader (name : JsString)
  /-- A value of another type than the encoder expects. -/
  | typeError
  deriving DecidableEq

abbrev EmitM (α : Type) := Attempt Emitter EmitError α

/-- `_commitLine` with a count: a continuation follows. -/
def Emitter.commitLine (emitter : Emitter) (count : Nat) : Emitter :=
  { emitter with
    delivered := emitter.delivered ++ [trimRight (emitter.currentLine.take count)]
    currentLine := 0x20 :: trimLeft (emitter.currentLine.drop count)
    preferredBreakpoint := 0 }

/-- `_commitLine` without a count: the header value is done. -/
def Emitter.commitLast (emitter : Emitter) : Emitter :=
  { emitter with
    delivered := emitter.delivered ++ [trimRight emitter.currentLine]
    currentLine := []
    preferredBreakpoint := 0 }

section

variable (settings : Settings)

def Emitter.breakPreferred (emitter : Emitter) : Emitter :=
  if 0 < emitter.preferredBreakpoint then emitter.commitLine emitter.preferredBreakpoint
  else emitter

/-- The commit of the whole line, the last emergency breakpoint. -/
def Emitter.breakEmergency (emitter : Emitter) : Emitter :=
  if 0 < emitter.currentLine.length then emitter.commitLine emitter.currentLine.length
  else emitter

/-- What `_reserveTokenSpace` does to the lines, and its result. -/
def Emitter.reserve (emitter : Emitter) (length : Nat) : Bool × Emitter :=
  if emitter.currentLine.length + length ≤ settings.softMargin then (true, emitter)
  else
    let broken := emitter.breakPreferred
    if 0 < emitter.preferredBreakpoint ∧
        broken.currentLine.length + length ≤ settings.softMargin then (true, broken)
    else if broken.currentLine.length + length ≤ settings.hardMargin then (true, broken)
    else
      let broken := broken.breakEmergency
      (broken.currentLine.length + length ≤ settings.hardMargin, broken)

def Emitter.reservation (emitter : Emitter) (length : Nat) : Reservation :=
  ⟨emitter.currentLine, emitter.preferredBreakpoint, length⟩

def reserveTokenSpace (length : Nat) : EmitM Bool := fun emitter =>
  let (enough, reserved) := emitter.reserve settings length
  (.ok enough,
    { reserved with reservations := emitter.reservations ++ [emitter.reservation length] })

def Emitter.append (emitter : Emitter) (text : JsString) (mayBreakAfter : Bool) : Emitter :=
  let line := emitter.currentLine ++ text
  if mayBreakAfter then
    { emitter with
      preferredBreakpoint := line.length
      -- The last character of the empty text is `undefined`, which is no space.
      currentLine := if text.getLast? = some 0x20 then line else line ++ js " " }
  else { emitter with currentLine := line }

def addText (text : JsString) (mayBreakAfter : Bool) : EmitM Unit := do
  let enough ← reserveTokenSpace settings text.length
  if enough then Attempt.update fun emitter => emitter.append text mayBreakAfter
  else Attempt.throw (.dueToLength text)

def quoteChar : UInt16 := 0x22

/-- The text in double quotes, with the quotes and backslashes in it escaped. -/
def quoted (text : JsString) : JsString :=
  quoteChar :: (text.flatMap fun c => if c = quoteChar ∨ c = 0x5C then [0x5C, c] else [c]) ++
    [quoteChar]

/-- Text that is quoted already is left as it is. -/
def needsQuote (text qchars : JsString) : Bool :=
  !(text.head? == some quoteChar && text.getLast? == some quoteChar) &&
    text.any fun c => qchars.contains c

def addQuotable (text qchars : JsString) (mayBreakAfter : Bool) : EmitM Unit :=
  if text = [] then pure ()
  else addText settings (if needsQuote text qchars then quoted text else text) mayBreakAfter

end

/-! ### The structured values

Phrases, encoded words, addresses, unstructured text and dates. -/

def utf8Octets (codePoint : Nat) : List UInt8 :=
  let continuation (value : Nat) : UInt8 := UInt8.ofNat (0x80 + value % 0x40)
  if codePoint < 0x80 then [UInt8.ofNat codePoint]
  else if codePoint < 0x800 then
    [UInt8.ofNat (0xC0 + codePoint / 0x40), continuation codePoint]
  else if codePoint < 0x10000 then
    [UInt8.ofNat (0xE0 + codePoint / 0x1000), continuation (codePoint / 0x40),
      continuation codePoint]
  else
    [UInt8.ofNat (0xF0 + codePoint / 0x40000), continuation (codePoint / 0x1000),
      continuation (codePoint / 0x40), continuation codePoint]

/-- The characters of the text: surrogates are paired, and a lone one counts as U+FFFD. -/
def codePoints : JsString → List Nat
  | [] => []
  | [c] => [if 0xD800 ≤ c ∧ c ≤ 0xDFFF then 0xFFFD else c.toNat]
  | c :: d :: rest =>
    if 0xD800 ≤ c ∧ c ≤ 0xDBFF ∧ 0xDC00 ≤ d ∧ d ≤ 0xDFFF then
      (0x10000 + (c.toNat - 0xD800) * 0x400 + (d.toNat - 0xDC00)) :: codePoints rest
    else (if 0xD800 ≤ c ∧ c ≤ 0xDFFF then 0xFFFD else c.toNat) :: codePoints (d :: rest)

/-- `new TextEncoder("UTF-8").encode(text)`. -/
def utf8Encode (text : JsString) : List UInt8 := (codePoints text).flatMap utf8Octets

def base64Digits : JsString := js "ABCDEFGHIJKLMNOPQRSTUVWXYZabcdefghijklmnopqrstuvwxyz0123456789+/"

def base64Digit (value : Nat) : UInt16 := base64Digits.getD (value % 64) 0

def btoa : List UInt8 → JsString
  | [] => []
  | [a] => [base64Digit (a.toNat / 4), base64Digit (a.toNat * 16)] ++ js "=="
  | [a, b] =>
    [base64Digit (a.toNat / 4), base64Digit (a.toNat * 16 + b.toNat / 16),
      base64Digit (b.toNat * 4)] ++ js "="
  | a :: b :: c :: rest =>
    [base64Digit (a.toNat / 4), base64Digit (a.toNat * 16 + b.toNat / 16),
      base64Digit (b.toNat * 4 + c.toNat / 64), base64Digit c.toNat] ++ btoa rest

def b64Prelude : JsString := js "=?UTF-8?B?"

def qpPrelude : JsString := js "=?UTF-8?Q?"

def qpForbidden : JsString := js "\"#$%&'(),.:;<=>?@[\\]^_`\x7b|\x7d~"

def hexString : JsString := js "0123456789abcdef"

/-- The octet is written as three characters in a quoted-printable word. -/
def qpEncoded (octet : UInt8) : Bool :=
  octet < 0x20 || 0x7F ≤ octet || qpForbidden.contains octet.toUInt16

def qpOctet (octet : UInt8) : JsString :=
  if qpEncoded octet then
    [0x3D, hexString.getD (octet.toNat / 16) 0, hexString.getD (octet.toNat % 16) 0]
  else if octet = 0x20 then js "_"
  else [octet.toUInt16]

def rfc2047Word (encodedText : List UInt8) (useQP : Bool) : JsString :=
  (if useQP then qpPrelude ++ encodedText.flatMap qpOctet else b64Prelude ++ btoa encodedText) ++
    js "?="

def isContinuation (octet : UInt8) : Bool := octet &&& 0xC0 = 0x80

/-- The index, or the next one before it at which a character starts. -/
def characterStart (encodedText : List UInt8) : Nat → Nat
  | 0 => 0
  | index + 1 =>
    if isContinuation (encodedText.getD (index + 1) 0) then characterStart encodedText index
    else index + 1

/-- Runs of blanks and line breaks become one space. -/
def collapseSpace : JsString → JsString
  | [] => []
  | c :: rest =>
    if c ∈ js " \t\r\n" then
      match rest with
      | [] => [0x20]
      | d :: _ => if d ∈ js " \t\r\n" then collapseSpace rest else 0x20 :: collapseSpace rest
    else c :: collapseSpace rest

def isNonAscii (c : UInt16) : Bool := c < 0x20 || 0x7E < c

section

variable (settings : Settings)

def addRFC2047Word (encodedText : List UInt8) (useQP mayBreakAfter : Bool) : EmitM Unit :=
  addText settings (rfc2047Word encodedText useQP) mayBreakAfter

/-- The loop of `encodeRFC2047Phrase` from the octet `i` on, for a word from `start` on. -/
def encodeLoop (encodedText : List UInt8) (mayBreakAfter : Bool) :
    (fuel : Nat) → (i start b64Len qpLen : Nat) → (maxChars : Int) → EmitM Unit
  | 0, _, _, _, _, _ => pure ()
  | fuel + 1, i, start, b64Len, qpLen, maxChars =>
    match encodedText[i]? with
    | none => addRFC2047Word settings (encodedText.drop start) (qpLen ≤ b64Len) mayBreakAfter
    | some octet =>
      let b64Inc : Nat := if (i - start) % 3 = 0 then 4 else 0
      let qpInc : Nat := if qpEncoded octet then 3 else 1
      if maxChars < b64Len + b64Inc ∧ maxChars < qpLen + qpInc then do
        let i := characterStart encodedText i
        addRFC2047Word settings ((encodedText.take i).drop start) (qpLen ≤ b64Len) true
        encodeLoop encodedText mayBreakAfter fuel i i 0 0
          (settings.softMargin - b64Prelude.length - 3)
      else
        encodeLoop encodedText mayBreakAfter fuel (i + 1) start (b64Len + b64Inc) (qpLen + qpInc)
          maxChars

/-- The steps the loop needs at most: a later word takes at least nine of its octets. -/
def encodeFuel (encodedText : List UInt8) : Nat := 2 * encodedText.length + 8

def commitWholeLine : EmitM Unit :=
  Attempt.update fun emitter => emitter.commitLine emitter.currentLine.length

def encodeRFC2047Phrase (text : JsString) (mayBreakAfter : Bool) : EmitM Unit := do
  let encodedText := utf8Encode text
  let enough ← reserveTokenSpace settings (b64Prelude.length + 10)
  if enough then pure () else commitWholeLine
  let length ← Attempt.read fun emitter : Emitter => emitter.currentLine.length
  encodeLoop settings encodedText mayBreakAfter (encodeFuel encodedText) 0 0 0 0
    (settings.softMargin - length - (b64Prelude.length + 2))

/-- The whole phrase put on the line at once. -/
def addWholePhrase (text qchars : JsString) (mayBreakAfter : Bool) : EmitM Unit := do
  addQuotable settings text qchars mayBreakAfter
  Attempt.update fun emitter =>
    if emitter.preferredBreakpoint = 0 ∧ 0x20 ∈ text ∧
        emitter.currentLine.getLast? ≠ some quoteChar then
      { emitter with
        preferredBreakpoint := (lastIndexOf? 0x20 emitter.currentLine).getD 0 }
    else emitter

def addWords (qchars : JsString) (mayBreakAfter : Bool) : List JsString → EmitM Unit
  | [] => pure ()
  | [word] => addQuotable settings word qchars mayBreakAfter
  | word :: next :: words => do
    addQuotable settings word qchars true
    addWords qchars mayBreakAfter (next :: words)

def addPhrase (text qchars : JsString) (mayBreakAfter : Bool) : EmitM Unit := do
  let text := collapseSpace text
  if settings.useASCII ∧ text.any isNonAscii then
    encodeRFC2047Phrase settings text mayBreakAfter
  else do
    let length ← Attempt.read fun emitter : Emitter => emitter.currentLine.length
    let words := addWords settings qchars mayBreakAfter (splitAtChar 0x20 text)
    if length + text.length < settings.softMargin then
      (addWholePhrase settings text qchars mayBreakAfter).tryCatch fun _ => words
    else words

/-- An element of an address list. -/
inductive Address
  | mailbox (name email : JsString)
  | group (name : JsString) (members : List Address)

def nameQchars : JsString := js ",()<>[]:;@.\""

def localPartQchars : JsString := js "()<>[]:;@\\,\" !"

/-- The email address, its local part quoted on its own. -/
def addEmail (name email : JsString) : EmitM Unit :=
  let at? := lastIndexOf? 0x40 email
  let localPart := match at? with
    | none => email
    | some index => email.take index
  let domain := match at? with
    | none => []
    | some index => email.drop index
  do
    addQuotable settings localPart localPartQchars false
    addText settings (domain ++ if name = [] then [] else js ">") false

def addAddress (name email : JsString) : EmitM Unit :=
  if name = [] then addEmail settings name email
  else do
    let _ ← reserveTokenSpace settings (name.length + email.length + 3)
    addPhrase settings name nameQchars true
    if email = [] then pure ()
    else do
      addText settings (js "<") false
      addEmail settings name email

def addComma (needsComma : Bool) : EmitM Unit :=
  if needsComma then addText settings (js ", ") true else pure ()

mutual

def addEntry : Address → EmitM Unit
  | .mailbox name email => addAddress settings name email
  | .group name members => do
    addPhrase settings name nameQchars false
    addText settings (js ":") true
    addEntries false members
    addText settings (js ";") true

def addEntries : (needsComma : Bool) → List Address → EmitM Unit
  | _, [] => pure ()
  | needsComma, entry :: rest => do
    addComma settings needsComma
    addEntry entry
    addEntries true rest

end

def addAddresses (addresses : List Address) : EmitM Unit := addEntries settings false addresses

def addUnstructured (text : JsString) : EmitM Unit :=
  if text = [] then pure () else addPhrase settings text [] false

/-- A `Date` in one time zone. -/
structure DateParts where
  fullYear : Int
  month : Fin 12
  dayOfMonth : Nat
  dayOfWeek : Fin 7
  hours : Nat
  minutes : Nat
  seconds : Nat
  tzOffset : Int

/-- A `Date`: with the time value NaN, or in local time and in UTC. -/
inductive JsDate
  | invalid
  | valid (localTime utc : DateParts)

def kDaysOfWeek (day : Fin 7) : JsString :=
  js (["Sun", "Mon", "Tue", "Wed", "Thu", "Fri", "Sat"].get day)

def kMonthNames (month : Fin 12) : JsString :=
  js (["Jan", "Feb", "Mar", "Apr", "May", "Jun", "Jul", "Aug", "Sep", "Oct", "Nov",
    "Dec"].get month)

def decimal (number : Nat) : JsString := (Nat.toDigits 10 number).map fun c => UInt16.ofNat c.toNat

def padTo2Digits (number : Nat) : JsString :=
  if number < 10 then js "0" ++ decimal number else decimal number

def dayTime (parts : DateParts) : JsString :=
  kDaysOfWeek parts.dayOfWeek ++ js ", " ++ decimal parts.dayOfMonth ++ js " " ++
    kMonthNames parts.month ++ js " " ++ decimal parts.fullYear.toNat ++ js " " ++
    padTo2Digits parts.hours ++ js ":" ++ padTo2Digits parts.minutes ++ js ":" ++
    padTo2Digits parts.seconds ++ js " " ++ (if 0 < parts.tzOffset then js "-" else js "+") ++
    padTo2Digits (parts.tzOffset.natAbs / 60) ++ padTo2Digits (parts.tzOffset.natAbs % 60)

def addDate (date : JsDate) : EmitM Unit :=
  match date with
  | .invalid => Attempt.throw .invalidDate
  | .valid localTime utc =>
    let parts := if settings.sanitizeDate then { utc with seconds := 0, tzOffset := 0 }
      else localTime
    if parts.fullYear < 1900 ∨ 9999 < parts.fullYear then Attempt.throw .yearOutOfRange
    else addText settings (dayTime parts) false

end

end CommCentral.Jsmime
