import CommCentral.Jsmime.ContentDecoders
import CommCentral.Jsmime.HeaderEmitter

/-! The MIME parser: a chain of parsers, each of which hands its body to the next. -/
namespace CommCentral.Jsmime

open Lib

/-- The text after a line end at the front. -/
def afterLineEnd : BinaryString → Option BinaryString
  | [] => none
  | c :: rest =>
    if c = octetCR then some (if rest.head? = some octetLF then rest.tail else rest)
    else if c = octetLF then some rest
    else none

/-- The text after a line end that is there twice: `(\r\n|[\r\n])\1`. -/
def afterDoubled : BinaryString → Option BinaryString
  | c :: d :: rest =>
    if c = octetCR ∧ d = octetLF then
      if [octetCR, octetLF].isPrefixOf rest then some (rest.drop 2) else none
    else if (c = octetCR ∨ c = octetLF) ∧ c = d then some rest
    else none
  | _ => none

def findDoubled : BinaryString → Option (BinaryString × BinaryString)
  | [] => none
  | c :: rest =>
    match afterDoubled (c :: rest) with
    | some body => some ([], body)
    | none => (findDoubled rest).map fun (headers, body) => (c :: headers, body)

/-- The header block and the text after its end:
`/(?:^(?:\r\n|[\r\n]))|(\r\n|[\r\n])\1/`. -/
def splitAtHeaderEnd (text : BinaryString) : Option (BinaryString × BinaryString) :=
  match afterLineEnd text with
  | some body => some ([], body)
  | none => findDoubled text

def afterLiteral : JsString → BinaryString → Option BinaryString
  | [], text => some text
  | _ :: _, [] => none
  | c :: literal, d :: text => if c = d.toUInt16 then afterLiteral literal text else none

def dashes : JsString := js "--"

/-- A match of the expression that finds the boundaries of a multipart body. -/
structure BoundaryMatch where
  before : BinaryString
  /-- `lastResult[1] === ""` -/
  startsBuffer : Bool
  /-- `lastResult[2] != undefined` -/
  terminator : Bool
  after : BinaryString

/-- The rest of a boundary line: white space and a line end or the end of the buffer. -/
def afterBoundaryLine (text : BinaryString) : Option BinaryString :=
  let text := text.dropWhile fun c => c == 0x20 || c == 0x09
  if text = [] then some [] else afterLineEnd text

def boundaryLine? (boundary : JsString) (startsBuffer : Bool) (text : BinaryString) :
    Option BoundaryMatch := do
  let text ← afterLiteral (dashes ++ boundary) text
  match afterLiteral dashes text with
  | some rest => return ⟨[], startsBuffer, true, ← afterBoundaryLine rest⟩
  | none => return ⟨[], startsBuffer, false, ← afterBoundaryLine text⟩

/-- A match at the front: a boundary after a line end, or at the start of the buffer. -/
def boundaryHere? (boundary : JsString) (atStart : Bool) (text : BinaryString) :
    Option BoundaryMatch :=
  match afterLineEnd text with
  | some line => boundaryLine? boundary false line
  | none => if atStart then boundaryLine? boundary true text else none

/-- `_splitRegex.exec` -/
def findBoundary (boundary : JsString) : (atStart : Bool) → BinaryString → Option BoundaryMatch
  | _, [] => none
  | atStart, c :: rest =>
    match boundaryHere? boundary atStart (c :: rest) with
    | some found => some found
    | none =>
      (findBoundary boundary false rest).map fun found => { found with before := c :: found.before }

inductive BodyFormat
  | none
  | raw
  | nodecode
  | decode
  deriving DecidableEq

inductive ParserState
  | parsingHeaders
  | sendToBlackHole
  | sendToEmitter
  | sendToSubparser
  deriving DecidableEq

/-- The fields of one parser of the chain. -/
structure Frame where
  state : ParserState := .parsingHeaders
  headerData : BinaryString := []
  /-- The boundary in `_splitRegex`. -/
  boundary : Option JsString := none
  subPartNum : Option JsString := none
  count : Nat := 0
  /-- `none` is undefined. -/
  savedBuffer : Option BinaryString := some []
  convertData : Option Conversion := none
  defaultContentType : Option JsString := none
  deriving DecidableEq

/-- A parser and the subparsers below it. -/
abbrev Parser := List Frame

/-- What the emitter is told. The headers of a part are a function of the header text and the
default content type. -/
inductive Event
  | startMessage
  | startPart (partNum : JsString) (headerText : BinaryString)
    (defaultContentType : Option JsString)
  | deliverPartData (partNum : JsString) (data : BinaryString)
  | endPart (partNum : JsString)
  | endMessage
  deriving DecidableEq

structure ConvertCall where
  conversion : Conversion
  buffer : BinaryString
  deriving DecidableEq

/-- The events so far. The calls of the conversions are kept to speak about runs. -/
structure Log where
  events : List Event := []
  calls : List ConvertCall := []

/-- How the parser ends other than by returning. -/
inductive Halt
  /-- A conversion throws. -/
  | thrown
  /-- More calls within calls than were allowed for. -/
  | exhausted
  deriving DecidableEq

abbrev MimeM (α : Type) := Attempt Log Halt α

def callEmitter (event : Event) : MimeM Unit :=
  Attempt.update fun log => { log with events := log.events ++ [event] }

def convertData (conversion : Conversion) (buffer : BinaryString) (more : Bool) :
    MimeM Converted := fun log =>
  let log := { log with calls := log.calls ++ [⟨conversion, buffer⟩] }
  match conversion.convert buffer more with
  | some converted => (.ok converted, log)
  | none => (.error .thrown, log)

/-- `_savedBuffer` as the first part of a string. -/
def savedText : Option BinaryString → BinaryString
  | some text => text
  | none => [0x75, 0x6E, 0x64, 0x65, 0x66, 0x69, 0x6E, 0x65, 0x64]

def applyDataConversion (frame : Frame) (buffer : BinaryString) : MimeM (Frame × BinaryString) :=
  match frame.convertData with
  | none => pure (frame, buffer)
  | some conversion => do
    let converted ← convertData conversion (savedText frame.savedBuffer ++ buffer) true
    pure ({ frame with savedBuffer := converted.saved }, converted.text)

/-- The types of the parts that have a message in them. -/
def messageTypes : List JsString := [js "message/rfc822", js "message/global", js "message/news"]

def startBody (bodyFormat : BodyFormat) (frame : Frame) (partNum : JsString)
    (headers : PartHeaders) : Parser :=
  let contentType := headers.contentType
  let decoder := (contentDecoder? headers.transferEncoding).map Conversion.decoder
  if bodyFormat = .raw ∧ partNum = [] then [{ frame with state := .sendToEmitter }]
  else if contentType.mediatype = js "multipart" then
    match contentType.get? (js "boundary") with
    | none => [{ frame with state := .sendToBlackHole }]
    | some boundary =>
      [{ frame with
          state := .sendToBlackHole
          boundary := some boundary
          convertData := some .holdLine },
        { defaultContentType :=
            if contentType.subtype = js "digest" then some (js "message/rfc822") else none }]
  else if contentType.type ∈ messageTypes then
    [{ frame with
        state := .sendToSubparser
        subPartNum := some (partNum ++ js "$")
        convertData := decoder }, {}]
  else if bodyFormat = .decode then
    [{ frame with state := .sendToEmitter, convertData := decoder }]
  else [{ frame with state := .sendToEmitter }]

/-- The two internal methods that data and its end pass down the chain with. -/
structure Dispatcher where
  dispatchData : Parser → (partNum : JsString) → (buffer : BinaryString) → (checkSplit : Bool) →
    MimeM Parser
  dispatchEOF : Parser → (partNum : JsString) → MimeM Unit

section

variable (decoder : TextDecoder) (bodyFormat : BodyFormat) (inner : Dispatcher)

/-- The saved line goes to the subpart, without its line end if the boundary brought none. -/
def lastLine (savedBuffer : BinaryString) (startsBuffer : Bool) : BinaryString :=
  if savedBuffer ≠ [] ∧ startsBuffer then savedBuffer.take (beforeLineEnd savedBuffer)
  else savedBuffer

/-- A part of a multipart body ends at the boundary. -/
def endSubpart (rest : Parser) (subPartNum : JsString) (savedBuffer : BinaryString) :
    MimeM Unit :=
  if savedBuffer ≠ [] then do
    let rest ← inner.dispatchData rest subPartNum savedBuffer true
    inner.dispatchEOF rest subPartNum
  else inner.dispatchEOF rest subPartNum

/-- The number of the multipart as the front of the numbers of its parts. -/
def partPrefix (partNum : JsString) : JsString :=
  if partNum ≠ [] then partNum ++ js "." else partNum

/-- What `_whenMultipart` leaves: the next part, or nothing after the terminator. -/
def nextSubpart (frame : Frame) (rest : Parser) (partNum : JsString) (count : Nat)
    (terminator : Bool) : Parser :=
  if terminator then
    [{ frame with
        savedBuffer := some []
        count := count
        boundary := none
        state := .sendToBlackHole }]
  else
    [{ frame with
        savedBuffer := some []
        state := .sendToSubparser
        subPartNum := some (partPrefix partNum ++ decimal count)
        count := count + 1 },
      { defaultContentType := rest.head?.bind Frame.defaultContentType }]

def whenMultipart (frame : Frame) (rest : Parser) (partNum : JsString) (found : BoundaryMatch) :
    MimeM Parser :=
  match frame.subPartNum with
  | none => pure (nextSubpart frame rest partNum 1 found.terminator)
  | some subPartNum => do
    endSubpart inner rest subPartNum (lastLine (savedText frame.savedBuffer) found.startsBuffer)
    pure (nextSubpart frame rest partNum frame.count found.terminator)

/-- The data goes where the state says. -/
def sendData (frame : Frame) (rest : Parser) (partNum : JsString) (buffer : BinaryString) :
    MimeM Parser :=
  match frame.state with
  | .parsingHeaders => pure (frame :: rest)
  | .sendToBlackHole => pure (frame :: rest)
  | .sendToEmitter =>
    if bodyFormat = .none then pure (frame :: rest)
    else do
      let (frame, data) ← applyDataConversion frame buffer
      if data ≠ [] then do
        callEmitter (.deliverPartData partNum data)
        pure (frame :: rest)
      else pure (frame :: rest)
  | .sendToSubparser => do
    let (frame, data) ← applyDataConversion frame buffer
    if data ≠ [] then do
      let rest ← inner.dispatchData rest (frame.subPartNum.getD []) data true
      pure (frame :: rest)
    else pure (frame :: rest)

/-- The text before a boundary goes through the current state. -/
def sendBefore (parser : Parser) (partNum : JsString) (before : BinaryString) : MimeM Parser :=
  if before ≠ [] then inner.dispatchData parser partNum before false else pure parser

/-- The text after a boundary is parsed anew. -/
def sendAfter (parser : Parser) (partNum : JsString) (after : BinaryString) : MimeM Parser :=
  if after ≠ [] then inner.dispatchData parser partNum after true else pure parser

def dispatchBody (parser : Parser) (partNum : JsString) (buffer : BinaryString)
    (checkSplit : Bool) : MimeM Parser :=
  match parser with
  | [] => pure []
  | frame :: rest =>
    match if checkSplit then frame.boundary.bind fun boundary => findBoundary boundary true buffer
      else none with
    | some found => do
      let parser ← sendBefore inner (frame :: rest) partNum found.before
      let parser ← splitAt inner parser partNum found
      sendAfter inner parser partNum found.after
    | none => sendData bodyFormat inner frame rest partNum buffer
where
  /-- `_handleSplit` -/
  splitAt (inner : Dispatcher) (parser : Parser) (partNum : JsString) (found : BoundaryMatch) :
      MimeM Parser :=
    match parser with
    | [] => pure []
    | frame :: rest => whenMultipart inner frame rest partNum found

def dispatchData (parser : Parser) (partNum : JsString) (buffer : BinaryString)
    (checkSplit : Bool) : MimeM Parser :=
  match parser with
  | [] => pure []
  | frame :: rest =>
    if frame.state = .parsingHeaders then
      match splitAtHeaderEnd (frame.headerData ++ buffer) with
      | none => pure ({ frame with headerData := frame.headerData ++ buffer } :: rest)
      | some (headerText, body) => do
        callEmitter (.startPart partNum headerText frame.defaultContentType)
        let headers := parseHeaders decoder frame.defaultContentType headerText
        let frame := { frame with headerData := headerText }
        dispatchBody bodyFormat inner (startBody bodyFormat frame partNum headers) partNum body
          checkSplit
    else dispatchBody bodyFormat inner (frame :: rest) partNum buffer checkSplit

/-- The data that was saved for more to come is converted without it. -/
def flushSaved (frame : Frame) : MimeM BinaryString :=
  match frame.convertData, frame.savedBuffer with
  | some conversion, some (c :: saved) => do
    let converted ← convertData conversion (c :: saved) false
    pure converted.text
  | _, _ => pure []

/-- The end of a subparser after its last data. -/
def endSubparser (frame : Frame) (rest : Parser) : MimeM Unit := do
  let subPartNum := frame.subPartNum.getD []
  match frame.convertData, frame.savedBuffer with
  | some conversion, some (c :: saved) => do
    let converted ← convertData conversion (c :: saved) false
    let rest ← inner.dispatchData rest subPartNum converted.text true
    inner.dispatchEOF rest subPartNum
  | _, _ => inner.dispatchEOF rest subPartNum

/-- `_dispatchEOF` up to the end of the part. -/
def finishBody (frame : Frame) (rest : Parser) (partNum : JsString) : MimeM Unit :=
  match frame.state with
  | .parsingHeaders => callEmitter (.startPart partNum frame.headerData frame.defaultContentType)
  | .sendToSubparser => endSubparser inner frame rest
  | _ => do
    let data ← flushSaved frame
    if data ≠ [] then callEmitter (.deliverPartData partNum data) else pure ()

def dispatchEOF (parser : Parser) (partNum : JsString) : MimeM Unit :=
  match parser with
  | [] => pure ()
  | frame :: rest => do
    finishBody inner frame rest partNum
    callEmitter (.endPart partNum)

end

def exhaustedDispatcher : Dispatcher where
  dispatchData _ _ _ _ := Attempt.throw .exhausted
  dispatchEOF _ _ := Attempt.throw .exhausted

/-- The methods with calls of each other within each other up to a depth. -/
def dispatcher (decoder : TextDecoder) (bodyFormat : BodyFormat) : (depth : Nat) → Dispatcher
  | 0 => exhaustedDispatcher
  | depth + 1 =>
    let inner := dispatcher decoder bodyFormat depth
    { dispatchData := dispatchData decoder bodyFormat inner
      dispatchEOF := dispatchEOF inner }

/-- The fields of the parser of a whole message. -/
structure MimeParser where
  holdData : BinaryString := []
  triggeredCall : Bool := false
  parser : Parser := [{}]

def triggerCall (mimeParser : MimeParser) : MimeM MimeParser :=
  if mimeParser.triggeredCall then pure mimeParser
  else do
    callEmitter .startMessage
    pure { mimeParser with triggeredCall := true }

section

variable (decoder : TextDecoder) (bodyFormat : BodyFormat) (depth : Nat)

def deliverData (mimeParser : MimeParser) (buffer : BinaryString) : MimeM MimeParser :=
  let (buffer, holdData) := conditionToEndOnCRLF (mimeParser.holdData ++ buffer)
  let mimeParser := { mimeParser with holdData := holdData }
  if buffer = [] then pure mimeParser
  else do
    let mimeParser ← triggerCall mimeParser
    let parser ← (dispatcher decoder bodyFormat depth).dispatchData mimeParser.parser [] buffer true
    pure { mimeParser with parser := parser }

/-- The data held at the end of the message. -/
def flushHeld (mimeParser : MimeParser) : MimeM Parser :=
  if mimeParser.holdData ≠ [] then
    (dispatcher decoder bodyFormat depth).dispatchData mimeParser.parser [] mimeParser.holdData true
  else pure mimeParser.parser

def deliverEOF (mimeParser : MimeParser) : MimeM Unit := do
  let mimeParser ← triggerCall mimeParser
  let parser ← flushHeld decoder bodyFormat depth mimeParser
  (dispatcher decoder bodyFormat depth).dispatchEOF parser []
  callEmitter .endMessage

def deliverAll (mimeParser : MimeParser) : (packets : List BinaryString) → MimeM MimeParser
  | [] => pure mimeParser
  | packet :: packets => do
    let mimeParser ← deliverData decoder bodyFormat depth mimeParser packet
    deliverAll mimeParser packets

/-- A message in packets, and its end. An exception goes to the caller, and the run ends. -/
def parse (packets : List BinaryString) : MimeM Unit := do
  let mimeParser ← deliverAll decoder bodyFormat depth {} packets
  deliverEOF decoder bodyFormat depth mimeParser

end

end CommCentral.Jsmime
