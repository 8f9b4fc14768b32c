import CommCentral.Jsmime.JsString
import Mathlib.Logic.Function.Iterate

/-! Address books as delimited text: the export, and the reader of its records and fields. -/
namespace CommCentral.AddrBook

open Jsmime

def doubleQuote : UInt16 := 0x22
def comma : UInt16 := 0x2C
def tab : UInt16 := 0x09
def carriageReturn : UInt16 := 0x0D
def lineFeed : UInt16 := 0x0A

/-- The property of each column and the string of its title, 0 where it is not exported as text. -/
def exportAttributes : List (String × Nat) :=
  [("FirstName", 2100), ("LastName", 2101), ("DisplayName", 2102), ("NickName", 2103),
    ("PrimaryEmail", 2104), ("SecondEmail", 2105), ("_AimScreenName", 2136),
    ("PreferMailFormat", 0), ("LastModifiedDate", 0), ("WorkPhone", 2106), ("WorkPhoneType", 0),
    ("HomePhone", 2107), ("HomePhoneType", 0), ("FaxNumber", 2108), ("FaxNumberType", 0),
    ("PagerNumber", 2109), ("PagerNumberType", 0), ("CellularNumber", 2110),
    ("CellularNumberType", 0), ("HomeAddress", 2111), ("HomeAddress2", 2112), ("HomeCity", 2113),
    ("HomeState", 2114), ("HomeZipCode", 2115), ("HomeCountry", 2116), ("WorkAddress", 2117),
    ("WorkAddress2", 2118), ("WorkCity", 2119), ("WorkState", 2120), ("WorkZipCode", 2121),
    ("WorkCountry", 2122), ("JobTitle", 2123), ("Department", 2124), ("Company", 2125),
    ("WebPage1", 2126), ("WebPage2", 2127), ("BirthYear", 2128), ("BirthMonth", 2129),
    ("BirthDay", 2130), ("Custom1", 2131), ("Custom2", 2132), ("Custom3", 2133),
    ("Custom4", 2134), ("Notes", 2135), ("AnniversaryYear", 0), ("AnniversaryMonth", 0),
    ("AnniversaryDay", 0), ("SpouseName", 0), ("FamilyName", 0)]

inductive Platform where
  | win
  | other
  deriving DecidableEq

/-- `LINEBREAK`, and `MSG_LINEBREAK` of the reader. -/
def Platform.lineBreak : Platform → JsString
  | .win => [carriageReturn, lineFeed]
  | .other => [lineFeed]

structure Card where
  isMailList : Bool
  properties : String → Option JsString

def Card.getProperty (card : Card) (name : String) (defaultValue : JsString) : JsString :=
  (card.properties name).getD defaultValue

/-- `value.replace(/"/g, '""')`. -/
def doubleQuotes (value : JsString) : JsString :=
  value.flatMap fun c => if c = doubleQuote then [doubleQuote, doubleQuote] else [c]

def exportValue (value : JsString) : JsString :=
  if value.contains doubleQuote then doubleQuote :: (doubleQuotes value ++ [doubleQuote])
  else if value.any fun c => [comma, tab, carriageReturn, lineFeed].contains c then
    doubleQuote :: (value ++ [doubleQuote])
  else value

/-- The loop over the columns, which the titles and every card go through. -/
def exportRow (delimiter : UInt16) (cell : String × Nat → JsString) : JsString :=
  exportAttributes.zipIdx.flatMap fun (column, i) =>
    if column.2 = 0 then []
    else (if i ≠ 0 then [delimiter] else []) ++ cell column

def exportDirectoryToDelimitedText (platform : Platform) (getStringFromID : Nat → JsString)
    (childCards : List Card) (delimiter : UInt16) : JsString :=
  exportRow delimiter (fun column => getStringFromID column.2) ++ platform.lineBreak ++
    childCards.flatMap fun card =>
      if card.isMailList then []
      else exportRow delimiter (fun column => exportValue (card.getProperty column.1 [])) ++
        platform.lineBreak

/-- A line ends at CR, LF, CRLF, LFCR or at the end of the stream. -/
def isLineEnd (c : UInt16) : Bool := c == carriageReturn || c == lineFeed

def skipLineEnd : JsString → JsString
  | [] => []
  | [_] => []
  | c :: d :: rest =>
    if (c = carriageReturn ∧ d = lineFeed) ∨ (c = lineFeed ∧ d = carriageReturn) then rest
    else d :: rest

/-- `nsIUnicharLineInputStream::ReadLine`: the line and what is left of the stream. There is more
when something is left. -/
def readLine (stream : JsString) : JsString × JsString :=
  (stream.takeWhile (!isLineEnd ·), skipLineEnd (stream.dropWhile (!isLineEnd ·)))

/-- The loop of `ReadRecord`: the record, unless it failed, and what is left of the stream. -/
def readRecordLoop (platform : Platform) :
    Nat → (more : Bool) → (numQuotes : Nat) → (aLine stream : JsString) →
      Option JsString × JsString
  | 0, _, _, _, stream => (none, stream)
  | fuel + 1, more, numQuotes, aLine, stream =>
    if more then
      let (line, stream) := readLine stream
      let aLine := (if aLine.isEmpty then aLine else aLine ++ platform.lineBreak) ++ line
      let numQuotes := numQuotes + line.count doubleQuote
      if numQuotes % 2 ≠ 0 then
        readRecordLoop platform fuel (!stream.isEmpty) numQuotes aLine stream
      else (some aLine, stream)
    else (none, stream)

/-- `nsTextAddress::ReadRecord`. A line more than the stream has characters is never read. -/
def readRecord (platform : Platform) (stream : JsString) : Option JsString × JsString :=
  readRecordLoop platform (stream.length + 2) true 0 [] stream

/-- The loop of `ImportAddresses`: the records up to the end of the stream. -/
def readRecordsLoop (platform : Platform) : Nat → JsString → Option (List JsString)
  | 0, _ => none
  | fuel + 1, stream =>
    match readRecord platform stream with
    | (none, _) => none
    | (some record, stream) =>
      if stream.isEmpty then some [record]
      else (readRecordsLoop platform fuel stream).map (record :: ·)

def readRecords (platform : Platform) (stream : JsString) : Option (List JsString) :=
  readRecordsLoop platform (stream.length + 1) stream

/-- What was passed between quotes, whether a doubled quote was, and the text from there on. -/
structure Scanned where
  passed : JsString := []
  quoted : Bool := false
  rest : JsString

def Scanned.after (scanned : Scanned) (passed : JsString) (quoted : Bool) : Scanned :=
  { scanned with passed := passed ++ scanned.passed, quoted := quoted || scanned.quoted }

/-- The loop from an opening quote on, whose `pos++` has just been made. The character after a
doubled quote is only looked at by the loop's condition. -/
def scanQuoted : JsString → Scanned
  | [] => { rest := [] }
  | [c] => if c = doubleQuote then { rest := [c] } else { passed := [c], rest := [] }
  | c :: d :: rest =>
    if c = doubleQuote ∧ d = doubleQuote then
      match rest with
      | [] => { passed := [c, d], quoted := true, rest := [] }
      | e :: rest =>
        if e = doubleQuote then { passed := [c, d], quoted := true, rest := e :: rest }
        else (scanQuoted rest).after [c, d, e] true
    else if c = doubleQuote then { rest := c :: d :: rest }
    else (scanQuoted (d :: rest)).after [c] false

/-- Spaces and tabs before a field. A tab that is the delimiter is none of them. -/
def skipBlanks (delim : UInt16) (text : JsString) : JsString :=
  text.dropWhile fun c => c == 0x20 || c == (if delim = tab then 0 else tab)

/-- One turn of the loop that skips fields, with no text left where it breaks off. -/
def skipField (delim : UInt16) (text : JsString) : JsString :=
  let text :=
    match skipBlanks delim text with
    | [] => []
    | c :: body => if c = doubleQuote then (scanQuoted body).rest.drop 1 else c :: body
  (text.dropWhile (· != delim)).drop 1

/-- `Trim(" \t\b\r\n")`. -/
def isBlank (c : UInt16) : Bool := [0x20, tab, 0x08, carriageReturn, lineFeed].contains c

def trim (text : JsString) : JsString := (text.dropWhile isBlank).rdropWhile isBlank

/-- One quote of each pair is cut. -/
def cutQuotes : JsString → JsString
  | [] => []
  | [c] => [c]
  | c :: d :: rest =>
    if c = doubleQuote ∧ d = doubleQuote then d :: cutQuotes rest else c :: cutQuotes (d :: rest)

/-- The field at the start of a text that is not empty. -/
def readField (delim : UInt16) (text : JsString) : JsString :=
  match skipBlanks delim text with
  | [] => []
  | c :: body =>
    if c = doubleQuote then
      let scanned := scanQuoted body
      let field := trim scanned.passed
      if scanned.quoted then cutQuotes field else field
    else trim ((c :: body).takeWhile (· != delim))

/-- `nsTextAddress::GetField`: the result and the field. -/
def getField (aLine : JsString) (index : Nat) (delim : UInt16) : Bool × JsString :=
  let text := (skipField delim)^[index] aLine
  if text.isEmpty then (false, []) else (true, readField delim text)

end CommCentral.AddrBook
