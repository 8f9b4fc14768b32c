import CommCentral.Lib.Decision

/-! The import of LDIF files: how the bytes of a file become records, and records lines. -/
namespace CommCentral.AddrBook

abbrev Bytes := List UInt8

def LF : UInt8 := 0x0A
def CR : UInt8 := 0x0D

def continuedLineMarker : UInt8 := 1

def isSpace (c : UInt8) : Bool := c == 0x20 || (0x09 ≤ c && c ≤ 0x0D)

def groupOfNames : Bytes := [0x67, 0x72, 0x6F, 0x75, 0x70, 0x4F, 0x66, 0x4E, 0x61, 0x6D, 0x65, 0x73]

/-- `Find`, as far as whether something is found. -/
def findGroupOfNames (line : Bytes) : Bool := line.tails.any (groupOfNames.isPrefixOf ·)

/-- One call of `str_getline` on a text that has a line: the line, and the text behind it. A line
that begins with white space continues the one before it. -/
def strGetline : Bytes → Bytes × Bytes
  | [] => ([], [])
  | [c] => if c = LF then ([], []) else ([c], [])
  | c :: d :: rest =>
    if c = LF then
      if isSpace d && d != LF then
        let (line, next) := strGetline rest
        (continuedLineMarker :: continuedLineMarker :: line, next)
      else ([], d :: rest)
    else
      let (line, next) := strGetline (d :: rest)
      (c :: line, next)

/-- The lines that the loop over `str_getline` hands to `str_parse_line`. -/
def ldifLines : Nat → Bytes → List Bytes
  | 0, _ => []
  | _ + 1, [] => []
  | fuel + 1, c :: text =>
    if c = LF then []
    else (strGetline (c :: text)).1 :: ldifLines fuel (strGetline (c :: text)).2

/-- The lines of a record, up to a NUL. -/
def recordLines (line : Bytes) : List Bytes := ldifLines line.length (line.takeWhile (· != 0))

/-- `nsAbLDIFService`, as far as it concerns the splitting into records. -/
structure LdifService where
  mLdifLine : Bytes := []
  mLFCount : Nat := 0
  mCRCount : Nat := 0
  deriving DecidableEq

namespace LdifService

/-- The line breaks that have been counted end a record. -/
def recordEnds (service : LdifService) : Bool :=
  1 < service.mLFCount || (2 < service.mCRCount && service.mLFCount != 0) ||
    (service.mLFCount == 0 && 1 < service.mCRCount)

/-- `GetLdifStringRecord`: whether a record was found, and the buffer from `stopPos` on. -/
def getLdifStringRecord (service : LdifService) : Bytes → Bool × LdifService × Bytes
  | [] => (service.recordEnds, service, [])
  | c :: rest =>
    if c = LF then getLdifStringRecord { service with mLFCount := service.mLFCount + 1 } rest
    else if c = CR then getLdifStringRecord { service with mCRCount := service.mCRCount + 1 } rest
    else if service.mLFCount = 0 ∧ service.mCRCount = 0 then
      getLdifStringRecord { service with mLdifLine := service.mLdifLine ++ [c] } rest
    else if service.recordEnds then (true, service, c :: rest)
    else if service.mLFCount = 1 ∨ service.mCRCount = 1 then
      getLdifStringRecord { mLdifLine := service.mLdifLine ++ [LF, c] } rest
    else getLdifStringRecord service rest

def clearLdifRecordBuffer (service : LdifService) : LdifService :=
  if service.mLdifLine.isEmpty then service else {}

end LdifService

/-- The state of an import. `handed` are the lines that went to `str_parse_line`, by the calls of
`AddLdifRowToDatabase` that had a record, each with its `bIsList`. -/
structure Import where
  service : LdifService := {}
  handed : List (Bool × List Bytes) := []
  mailListsAdded : Nat := 0
  savedStartPos : Nat := 0
  /-- `listPosArray` and `listSizeArray`. -/
  lists : List (Nat × Nat) := []

namespace Import

/-- `AddLdifRowToDatabase`. Where `AddMailList` fails the record stays in the buffer. -/
def addLdifRowToDatabase (addMailList : Nat → Bool) (bIsList : Bool) (state : Import) : Import :=
  if state.service.mLdifLine.isEmpty then
    { state with service := { state.service with mLFCount := 0, mCRCount := 0 } }
  else
    let handed := state.handed ++ [(bIsList, recordLines state.service.mLdifLine)]
    if bIsList then
      if addMailList state.mailListsAdded then
        { state with
          handed := handed
          mailListsAdded := state.mailListsAdded + 1
          service := state.service.clearLdifRecordBuffer }
      else { state with handed := handed, mailListsAdded := state.mailListsAdded + 1 }
    else { state with handed := handed, service := state.service.clearLdifRecordBuffer }

/-- What is done with a record that ends at `stop`. -/
def takeRecord (addMailList : Nat → Bool) (stop : Nat) (state : Import) : Import :=
  if findGroupOfNames state.service.mLdifLine then
    { state with
      lists := state.lists ++ [(state.savedStartPos, stop - state.savedStartPos)]
      service := state.service.clearLdifRecordBuffer
      savedStartPos := stop }
  else { state.addLdifRowToDatabase addMailList false with savedStartPos := stop }

end Import

variable (addMailList : Nat → Bool)

/-- The records of one buffer, which ends at `filePos`. -/
def readBuffer (filePos : Nat) : Nat → Import → Bytes → Option Import
  | 0, _, _ => none
  | fuel + 1, state, buf =>
    match state.service.getLdifStringRecord buf with
    | (true, service, rest) =>
      readBuffer filePos fuel
        ({ state with service := service }.takeRecord addMailList (filePos - rest.length)) rest
    | (false, service, _) => some { state with service := service }

/-- The first pass, with what is left of the file. -/
def readFile : Nat → (filePos : Nat) → Import → Bytes → Option Import
  | 0, _, _, _ => none
  | fuel + 1, filePos, state, file =>
    if file.isEmpty then some state
    else
      let buf := file.take 1024
      match readBuffer addMailList (filePos + buf.length) (buf.length + 2) state buf with
      | none => none
      | some state => readFile fuel (filePos + buf.length) state (file.drop 1024)

/-- The records of the buffer that a list is read into, up to the list. -/
def readList : Nat → Import → Bytes → Option Import
  | 0, _, _ => none
  | fuel + 1, state, listBuf =>
    match state.service.getLdifStringRecord listBuf with
    | (true, service, rest) =>
      if findGroupOfNames service.mLdifLine then
        some ({ state with service := service }.addLdifRowToDatabase addMailList true)
      else readList fuel { state with service := service } rest
    | (false, service, _) => some { state with service := service }

/-- The second pass. -/
def readLists (file : Bytes) : Import → List (Nat × Nat) → Option Import
  | state, [] => some state
  | state, (pos, size) :: lists =>
    let listBuf := (file.drop pos).take size
    if listBuf.isEmpty then readLists file state lists
    else
      match readList addMailList (size + 2) state listBuf with
      | none => none
      | some state => readLists file state lists

/-- `ImportLDIFFile`: what is handed to `str_parse_line`. There is no result where the import does
not end. -/
def importLDIFFile (file : Bytes) : Option (List (Bool × List Bytes)) :=
  match readFile addMailList (file.length + 1) 0 {} file with
  | none => none
  | some state =>
    let line := state.service.mLdifLine
    let state :=
      if !line.isEmpty && !findGroupOfNames line then
        state.addLdifRowToDatabase addMailList false
      else state
    let state := { state with service := state.service.clearLdifRecordBuffer }
    (readLists addMailList file state state.lists).map (·.handed)

end CommCentral.AddrBook
