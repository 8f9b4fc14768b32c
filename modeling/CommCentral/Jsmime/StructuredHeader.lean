import CommCentral.Jsmime.HeaderEmitter

/-! Structured headers of `jsmime.js`: the encoders and the output of one header. -/
namespace CommCentral.Jsmime

open Lib

inductive StructuredEncoder
  | writeAddress
  | writeUnstructured
  | writeDate
  deriving DecidableEq

/-- A value that is handed to an encoder. -/
inductive StructuredValue
  | addresses (list : List Address)
  | address (entry : Address)
  | text (text : JsString)
  | date (date : JsDate)

def addressHeaders : List String :=
  ["Bcc", "Cc", "From", "Reply-To", "Resent-Bcc", "Resent-Cc", "Resent-From",
    "Resent-Reply-To", "Resent-Sender", "Resent-To", "Sender", "To", "Approved",
    "Disposition-Notification-To", "Delivered-To", "Return-Receipt-To", "Mail-Reply-To",
    "Mail-Followup-To"]

def unstructuredHeaders : List String :=
  ["Comments", "Keywords", "Subject", "MIME-Version", "Content-Description", "User-Agent",
    "Message-ID", "Resent-Message-ID", "Content-Transfer-Encoding"]

def dateHeaders : List String :=
  ["Date", "Resent-Date", "Expires", "Injection-Date", "NNTP-Posting-Date"]

/-- The preferred spellings with their encoders. -/
def structuredEncoders : List (JsString × StructuredEncoder) :=
  (addressHeaders.map fun name => (js name, .writeAddress)) ++
    (unstructuredHeaders.map fun name => (js name, .writeUnstructured)) ++
    dateHeaders.map fun name => (js name, .writeDate)

/-- `toLowerCase` as far as it can give an ASCII letter: U+212A is the Kelvin sign. -/
def lowerUnit (c : UInt16) : UInt16 :=
  if 0x41 ≤ c ∧ c ≤ 0x5A then c + 0x20 else if c = 0x212A then 0x6B else c

def findEncoder (name : JsString) : Option (JsString × StructuredEncoder) :=
  structuredEncoders.find? fun entry => entry.1.map lowerUnit == name.map lowerUnit

/-- Lower-case letters at the start and after a hyphen become upper-case. -/
def capitalizeName (afterHyphen : Bool) : JsString → JsString
  | [] => []
  | c :: rest =>
    (if afterHyphen ∧ 0x61 ≤ c ∧ c ≤ 0x7A then c - 0x20 else c) ::
      capitalizeName (c = 0x2D) rest

section

variable (settings : Settings)

def addHeaderName (name : JsString) : EmitM Unit := do
  Attempt.update fun emitter =>
    let trimmed := { emitter with currentLine := trimRight emitter.currentLine }
    if 0 < trimmed.currentLine.length then trimmed.commitLast else trimmed
  addText settings (name ++ js ": ") false

def encodeValue : StructuredEncoder → StructuredValue → EmitM Unit
  | .writeAddress, .addresses list => addAddresses settings list
  | .writeAddress, .address entry => addAddresses settings [entry]
  | .writeUnstructured, .text text => addUnstructured settings text
  | .writeDate, .date date => addDate settings date
  | _, _ => Attempt.throw .typeError

def addStructuredHeader (name : JsString) (value : StructuredValue) : EmitM Unit :=
  match findEncoder name with
  | some (spelling, encoder) => do
    addHeaderName settings spelling
    encodeValue settings encoder value
  | none =>
    match value with
    | .text text => do
      addHeaderName settings (capitalizeName true name)
      addUnstructured settings text
    | _ => Attempt.throw (.unknownHeader name)

end

/-- The emitter after the header and `finish`, unless the emission throws. -/
def emitHeader (name : JsString) (value : StructuredValue) (options : EmitterOptions) :
    Except EmitError Emitter :=
  match addStructuredHeader options.settings name value {} with
  | (.ok _, emitter) => .ok emitter.commitLast
  | (.error error, _) => .error error

def emitStructuredHeader (name : JsString) (value : StructuredValue)
    (options : EmitterOptions) : Except EmitError JsString :=
  (emitHeader name value options).map Emitter.value

end CommCentral.Jsmime
