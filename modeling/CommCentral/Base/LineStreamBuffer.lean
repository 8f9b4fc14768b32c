import CommCentral.Lib.Decision
import CommCentral.Lib.FixedBuffer
import Mathlib

/-! The buffer that takes lines out of the bytes a server sends. -/
namespace CommCentral.Base

open Lib

/-- `nsMsgLineStreamBuffer`. The length of `dataBuffer` is `m_dataBufferSize`. -/
structure LineStreamBuffer where
  eatCRLFs : Bool := true
  lineToken : UInt8 := 10
  dataBuffer : List UInt8
  startPos : Nat := 0
  numBytesInBuffer : Nat := 0
  deriving DecidableEq

/-- What an input stream does during one call. `available` is none if `Available` fails, `Read`
copies at most `copied` bytes, and `grown` is in the memory that `PR_REALLOC` adds. -/
structure InputStream where
  nonBlocking : Bool := true
  available : Option Nat
  copied : Nat
  grown : Nat → UInt8 := fun _ => 0

/-- `ReadNextLine` with the bytes that are left in the stream. -/
structure LineResult where
  buffer : LineStreamBuffer
  unread : List UInt8
  line : Option (List UInt8) := none
  numBytesInLine : Nat := 0
  pauseForMoreData : Bool := false

/-- A number as `uint32_t`. -/
def toUInt32 (number : Int) : Nat := (number % 2 ^ 32).toNat

/-- A number as `int64_t`. -/
def toInt64 (number : Int) : Int := Int.bmod number (2 ^ 64)

/-- `PL_strchr` in the memory from a position on. It ends at a NUL. -/
def strchr (token : UInt8) : List UInt8 → (position : Nat) → Option (Option Nat)
  | [], _ => none
  | byte :: rest, position =>
    if byte = token then some (some position)
    else if byte = 0 then some none
    else strchr token rest (position + 1)

def spaceForNull (byte : UInt8) : UInt8 := if byte = 0 then 32 else byte

/-- `MSG_LINEBREAK`, where it is one character. -/
def lineBreak : List UInt8 := [10]

namespace LineStreamBuffer

def create (bufferSize : Nat) : LineStreamBuffer := { dataBuffer := List.replicate bufferSize 0 }

variable (buffer : LineStreamBuffer)

abbrev dataBufferSize : Nat := buffer.dataBuffer.length

def growBuffer (grown : Nat → UInt8) (desiredSize : Nat) : LineStreamBuffer :=
  let added := (List.range (desiredSize - buffer.dataBufferSize)).map grown
  { buffer with dataBuffer := (buffer.dataBuffer ++ added).take desiredSize }

def clearBuffer : LineStreamBuffer := { buffer with startPos := 0, numBytesInBuffer := 0 }

def endOfLineFrom (position : Nat) : Option (Option Nat) :=
  strchr buffer.lineToken (buffer.dataBuffer.drop position) position

def shift : Option LineStreamBuffer := do
  let contents ← fetch buffer.dataBuffer buffer.startPos buffer.numBytesInBuffer
  let dataBuffer ← overwrite buffer.dataBuffer 0 contents
  let dataBuffer ← store dataBuffer buffer.numBytesInBuffer 0
  return { buffer with dataBuffer := dataBuffer, startPos := 0 }

/-- The buffer grows if there is no room for the bytes. The number of free bytes is none if it
would grow above 4 GB. -/
def growRoom (grown : Nat → UInt8) (numFreeBytes numBytesInStream : Nat) :
    LineStreamBuffer × Option Nat :=
  if numFreeBytes ≤ numBytesInStream then
    let growBy := toInt64 ((numBytesInStream - numFreeBytes) * 2 + 1)
    if 2 ^ 32 - 1 < buffer.dataBufferSize + growBy then (buffer, none)
    else
      (buffer.growBuffer grown (toUInt32 (buffer.dataBufferSize + growBy)),
        some (toUInt32 (numFreeBytes + growBy)))
  else (buffer, some numFreeBytes)

/-- The contents are shifted, and then the buffer grows, if there is no room for the bytes. -/
def makeRoom (grown : Nat → UInt8) (numBytesInStream : Nat) :
    Option (LineStreamBuffer × Option Nat) := do
  let numFreeBytes := toUInt32
    (buffer.dataBufferSize - buffer.startPos - buffer.numBytesInBuffer)
  if numFreeBytes ≤ numBytesInStream then
    if buffer.startPos ≠ 0 then
      let buffer ← buffer.shift
      let numFreeBytes := toUInt32 (buffer.dataBufferSize - buffer.numBytesInBuffer)
      return buffer.growRoom grown numFreeBytes numBytesInStream
    else return buffer.growRoom grown numFreeBytes numBytesInStream
  else return (buffer, some numFreeBytes)

/-- New data is put behind the contents, with spaces instead of NULs and a NUL after it. -/
def receive (newData : List UInt8) : Option LineStreamBuffer := do
  let startOfNewData := buffer.startPos + buffer.numBytesInBuffer
  let dataBuffer ← overwrite buffer.dataBuffer startOfNewData newData
  let copied ← fetch dataBuffer startOfNewData newData.length
  let dataBuffer ← overwrite dataBuffer startOfNewData (copied.map spaceForNull)
  let numBytesInBuffer := toUInt32 (buffer.numBytesInBuffer + newData.length)
  let dataBuffer ← store dataBuffer (buffer.startPos + numBytesInBuffer) 0
  return { buffer with dataBuffer := dataBuffer, numBytesInBuffer := numBytesInBuffer }

/-- Bytes are read from the stream, and the first line ending among them is searched. -/
def readMore (stream : InputStream) (unread : List UInt8) (numFreeBytes numBytesInStream : Nat) :
    Option (LineStreamBuffer × List UInt8 × Option Nat) :=
  let numBytesToCopy := min (toUInt32 (numFreeBytes - 1)) numBytesInStream
  if 0 < numBytesToCopy then do
    let newData := unread.take (min numBytesToCopy stream.copied)
    let fuller ← buffer.receive newData
    let endOfLine ← fuller.endOfLineFrom (buffer.startPos + buffer.numBytesInBuffer)
    return (fuller, unread.drop newData.length, endOfLine)
  else some (buffer, unread, none)

/-- `aNumBytesInLine`, without a CR at the end of the line if line endings are eaten. -/
def lineLength (endOfLine : Nat) : Option Nat :=
  let numBytesInLine := toUInt32 (endOfLine - buffer.startPos)
  if buffer.eatCRLFs ∧ 0 < numBytesInLine then
    buffer.dataBuffer[buffer.startPos + numBytesInLine - 1]?.map fun last =>
      if last = 13 then numBytesInLine - 1 else numBytesInLine
  else some numBytesInLine

/-- The line up to its ending is copied and leaves the contents. -/
def takeLine (addLineTerminator : Bool) (unread : List UInt8) (endOfLine : Nat) :
    Option LineResult := do
  let endOfLine := if buffer.eatCRLFs then endOfLine else endOfLine + 1
  let numBytesInLine ← buffer.lineLength endOfLine
  let line ← fetch buffer.dataBuffer buffer.startPos numBytesInLine
  let line := if addLineTerminator then line ++ lineBreak else line
  let endOfLine := if buffer.eatCRLFs then endOfLine + 1 else endOfLine
  let numBytesInBuffer := toUInt32 (buffer.numBytesInBuffer - (endOfLine - buffer.startPos))
  return {
    buffer := { buffer with
      numBytesInBuffer := numBytesInBuffer
      startPos := if numBytesInBuffer = 0 then 0 else endOfLine }
    unread := unread
    line := some line
    numBytesInLine := line.length }

/-- What `ReadNextLine` does when it knows whether there is a line ending. -/
def finishLine (addLineTerminator : Bool) (unread : List UInt8) :
    (endOfLine : Option Nat) → Option LineResult
  | some endOfLine => buffer.takeLine addLineTerminator unread endOfLine
  | none => some { buffer := buffer, unread := unread, pauseForMoreData := true }

/-- The part of `ReadNextLine` that gets more data from the server. It gives up if `Available`
fails or the buffer would be too large. -/
def readFrom (stream : InputStream) (unread : List UInt8) (addLineTerminator : Bool) :
    Option LineResult :=
  match stream.available with
  | none => some { buffer := buffer, unread := unread }
  | some available => do
    let numBytesInStream :=
      if stream.nonBlocking = false ∧ available = 0 then buffer.dataBufferSize / 2 else available
    match ← buffer.makeRoom stream.grown numBytesInStream with
    | (buffer, none) => return { buffer := buffer, unread := unread }
    | (buffer, some numFreeBytes) =>
      let (buffer, unread, endOfLine) ←
        buffer.readMore stream unread numFreeBytes numBytesInStream
      buffer.finishLine addLineTerminator unread endOfLine

def endOfFirstLine : Option (Option Nat) :=
  if 0 < buffer.numBytesInBuffer then buffer.endOfLineFrom buffer.startPos else some none

/-- `ReadNextLine`. There is no result if an access is outside the buffer. -/
def readNextLine (stream : Option InputStream) (unread : List UInt8) (addLineTerminator : Bool) :
    Option LineResult := do
  match ← buffer.endOfFirstLine, stream with
  | none, some stream => buffer.readFrom stream unread addLineTerminator
  | endOfLine, _ => buffer.finishLine addLineTerminator unread endOfLine

def nextLineAvailable : Option Bool := buffer.endOfFirstLine.map Option.isSome

end LineStreamBuffer

end CommCentral.Base
