import CommCentral.Jsmime.JsString

/-! The tokens of a header with parameters, and the content type that they make up. -/
namespace CommCentral.Jsmime

def charQuote : UInt16 := 0x22
def charSlash : UInt16 := 0x2F
def charColon : UInt16 := 0x3A
def charSemicolon : UInt16 := 0x3B
def charEquals : UInt16 := 0x3D
def charStar : UInt16 := 0x2A
def charBackslash : UInt16 := 0x5C

/-- White space as defined by RFC 5322. -/
def isWsp (c : UInt16) : Bool := c == 0x20 || c == 0x09 || c == 0x0D || c == 0x0A

def trim (text : JsString) : JsString := trimRight (trimLeft text)

/-- The lower case of an ASCII letter. Other letters have no part in the names that the
parser compares. -/
def lowerChar (c : UInt16) : UInt16 := if 0x41 ≤ c ∧ c ≤ 0x5A then c + 0x20 else c

def toLowerCase (text : JsString) : JsString := text.map lowerChar

inductive HeaderToken
  | delimiter (c : UInt16)
  | text (token : JsString)
  deriving DecidableEq

/-- Quoted pairs lose the backslash, as does the end of the text. -/
def unescape : JsString → JsString
  | [] => []
  | c :: rest =>
    if c = charBackslash then
      match rest with
      | [] => []
      | next :: rest => next :: unescape rest
    else c :: unescape rest

/-- What the scan of a header value is in the middle of, with the text since its start. -/
inductive TokenStart
  | none
  | atom (text : JsString)
  | quoted (text : JsString)

def TokenStart.push (start : TokenStart) (text : JsString) : TokenStart :=
  match start with
  | .none => .none
  | .atom before => .atom (before ++ text)
  | .quoted before => .quoted (before ++ text)

/-- The token that ends here, if one is open. -/
def TokenStart.close : TokenStart → List HeaderToken
  | .none => []
  | .atom text => [.text (unescape text)]
  | .quoted text => [.text (unescape text)]

/-- The loop of `getHeaderTokens` with quoted strings and without domain literals, comments
and encoded words. -/
def scanTokens (delimiters : JsString) : TokenStart → JsString → List HeaderToken
  | start, [] => start.close
  | start, c :: rest =>
    if c = charBackslash then
      match rest with
      | [] => (start.push [c]).close
      | next :: rest => scanTokens delimiters (start.push [c, next]) rest
    else
      match start with
      | .quoted text =>
        if c = charQuote then (TokenStart.quoted text).close ++ scanTokens delimiters .none rest
        else scanTokens delimiters (.quoted (text ++ [c])) rest
      | .atom text =>
        if isWsp c then (TokenStart.atom text).close ++ scanTokens delimiters .none rest
        else if c ∈ delimiters then
          (TokenStart.atom text).close ++ .delimiter c :: scanTokens delimiters .none rest
        else if c = charQuote then
          (TokenStart.atom text).close ++ scanTokens delimiters (.quoted []) rest
        else scanTokens delimiters (.atom (text ++ [c])) rest
      | .none =>
        if isWsp c then scanTokens delimiters .none rest
        else if c ∈ delimiters then .delimiter c :: scanTokens delimiters .none rest
        else if c = charQuote then scanTokens delimiters (.quoted []) rest
        else scanTokens delimiters (.atom [c]) rest
termination_by _ text => text.length

def getHeaderTokens (value delimiters : JsString) : List HeaderToken :=
  scanTokens delimiters .none value

/-- The locals of the loop of `parseParameterHeader`. -/
structure ParameterLoop where
  name : JsString := []
  inName : Bool := true
  pairs : List (JsString × JsString) := []

/-- A name without a value gets an empty one. -/
def ParameterLoop.finish (loop : ParameterLoop) : List (JsString × JsString) :=
  if loop.name ≠ [] ∧ !loop.inName then loop.pairs ++ [(loop.name, [])] else loop.pairs

def ParameterLoop.next (loop : ParameterLoop) : HeaderToken → ParameterLoop
  | .delimiter c =>
    if c = charSemicolon then { pairs := loop.finish }
    else { loop with inName := false }
  | .text token =>
    if loop.inName then
      if loop.name = [] then { loop with name := token } else { loop with name := [] }
    else if loop.name ≠ [] then
      { loop with name := [], pairs := loop.pairs ++ [(loop.name, token)] }
    else loop

/-- The first pair of each name. -/
def firstValues : List (JsString × JsString) → List (JsString × JsString)
  | [] => []
  | pair :: rest => pair :: (firstValues rest).filter fun other => other.1 ≠ pair.1

/-- A header value split into what precedes the first semicolon and its parameters. -/
structure Parameters where
  preSemi : JsString
  values : List (JsString × JsString)
  deriving DecidableEq

/-- `parseParameterHeader` without RFC 2047 and RFC 2231: the parameters with a star in
their names have no effect. -/
def parseParameterHeader (headerValue : JsString) : Parameters :=
  let start := headerValue.takeWhile (· != charSemicolon)
  let rest := headerValue.dropWhile (· != charSemicolon)
  let tokens := getHeaderTokens rest [charSemicolon, charEquals]
  let pairs := (tokens.foldl ParameterLoop.next {}).finish
  { preSemi := (trim start).takeWhile fun c => !isWsp c
    values := firstValues (pairs.filter fun pair => charStar ∉ pair.1) }

/-- The structured form of a `Content-Type` header. -/
structure ContentType where
  mediatype : JsString
  subtype : JsString
  values : List (JsString × JsString)
  deriving DecidableEq

def ContentType.type (contentType : ContentType) : JsString :=
  contentType.mediatype ++ charSlash :: contentType.subtype

/-- `get` of the map, whose names are in lower case. The last of the names wins. -/
def ContentType.get? (contentType : ContentType) (name : JsString) : Option JsString :=
  (contentType.values.reverse.find? fun pair => toLowerCase pair.1 == name).map Prod.snd

def parseContentType (value : JsString) : ContentType :=
  let params := parseParameterHeader value
  match splitAtChar charSlash params.preSemi with
  | [mediatype, subtype] => ⟨toLowerCase mediatype, toLowerCase subtype, params.values⟩
  | _ => ⟨js "text", js "plain", []⟩

example : parseContentType (js "Multipart/mixed; a=1; boundary=\"x y\"") =
    ⟨js "multipart", js "mixed", [(js "a", js "1"), (js "boundary", js "x y")]⟩ := by
  decide +kernel

/-- A string whose characters are octets. -/
abbrev BinaryString := List UInt8

def octetCR : UInt8 := 0x0D
def octetLF : UInt8 := 0x0A

def BinaryString.toJs (text : BinaryString) : JsString := text.map UInt8.toUInt16

/-- `MimeTextDecoder`: the text that octets stand for in a charset, `none` if the charset is
not known or, where that is fatal, the octets are not valid in it. -/
structure TextDecoder where
  decode : (charset : JsString) → (fatal : Bool) → JsString → Option JsString

/-- `convert8BitHeader` -/
def convert8BitHeader (decoder : TextDecoder) (headerValue fallbackCharset : JsString) :
    JsString :=
  if headerValue.any (0x80 ≤ ·) then
    let hasFallback := fallbackCharset ≠ [] ∧ !(js "utf").isPrefixOf (toLowerCase fallbackCharset)
    match decoder.decode (js "utf-8") hasFallback headerValue with
    | some text => text
    | none => (decoder.decode fallbackCharset false headerValue).getD headerValue
  else headerValue

/-- The pieces of a header block at line ends that no continuation follows:
`split(/(?:\r\n|\n)(?![ \t])|\r(?![ \t\n])/)`. -/
def splitHeaders : JsString → List JsString
  | [] => [[]]
  | c :: rest =>
    let continued := rest.head?.any fun next => next == 0x20 || next == 0x09
    if c = 0x0D ∧ rest.head? = some 0x0A then
      if rest.tail.head?.any fun next => next == 0x20 || next == 0x09 then
        (splitHeaders rest.tail).modifyHead fun piece => c :: 0x0A :: piece
      else [] :: splitHeaders rest.tail
    else if (c = 0x0D ∨ c = 0x0A) ∧ !continued then [] :: splitHeaders rest
    else (splitHeaders rest).modifyHead (c :: ·)
termination_by text => text.length
decreasing_by all_goals (simp only [List.length_cons, List.length_tail]; omega)

/-- A header line as a name in lower case and a value without line breaks. -/
def readHeader (line : JsString) : JsString × JsString :=
  if charColon ∈ line then
    (toLowerCase (trim (line.takeWhile (· != charColon))),
      (trim (line.dropWhile (· != charColon)).tail).filter fun c => c != 0x0D && c != 0x0A)
  else (toLowerCase (trim line), [])

/-- The headers of a block. A line that begins a mailbox message is left out. -/
def readHeaders (rawHeaderText : JsString) : List (JsString × JsString) :=
  let lines := splitHeaders rawHeaderText
  let lines := if lines.head?.any (js "From ").isPrefixOf then lines.tail else lines
  (lines.map readHeader).filter fun header => header.1 ≠ []

/-- The first value of a header. -/
def rawHeader? (rawHeaderText name : JsString) : Option JsString :=
  ((readHeaders rawHeaderText).find? fun header => header.1 == name).map Prod.snd

def headerContentType : JsString := js "content-type"
def headerTransferEncoding : JsString := js "content-transfer-encoding"

def readContentType (decoder : TextDecoder) (charset : JsString)
    (defaultContentType : Option JsString) (headerText : BinaryString) : ContentType :=
  match rawHeader? headerText.toJs headerContentType with
  | some value => parseContentType (convert8BitHeader decoder value charset)
  | none => parseContentType (defaultContentType.getD (js "text/plain"))

/-- `_extractHeader` of the transfer encoding, which is not set by default. -/
def readTransferEncoding (decoder : TextDecoder) (charset : JsString)
    (headerText : BinaryString) : JsString :=
  match rawHeader? headerText.toJs headerTransferEncoding with
  | some value => toLowerCase (convert8BitHeader decoder value charset)
  | none => []

lemma readTransferEncoding_nil (decoder) (charset) :
    readTransferEncoding decoder charset [] = [] := by
  have lines : splitHeaders (BinaryString.toJs []) = [[]] := by
    change splitHeaders [] = _
    rw [splitHeaders]
  have missing : rawHeader? (BinaryString.toJs []) headerTransferEncoding = none := by
    rw [rawHeader?, readHeaders, lines]
    rfl
  rw [readTransferEncoding, missing]

/-- What the parser reads of the headers of a part. -/
structure PartHeaders where
  contentType : ContentType
  transferEncoding : JsString
  deriving DecidableEq

/-- `_parseHeaders`. The charset comes from the content type read without one, and it is the
fallback for the headers from then on. -/
def parseHeaders (decoder : TextDecoder) (defaultContentType : Option JsString)
    (headerText : BinaryString) : PartHeaders :=
  let contentType := readContentType decoder [] defaultContentType headerText
  let charset := (contentType.get? (js "charset")).getD []
  ⟨readContentType decoder charset defaultContentType headerText,
    readTransferEncoding decoder charset headerText⟩

end CommCentral.Jsmime
