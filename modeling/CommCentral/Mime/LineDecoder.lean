import CommCentral.Lib.FixedBuffer
import CommCentral.Lib.LineEnds

/-! The loop that `mime_decode_uue_buffer` and `mime_decode_yenc_buffer` share: bytes are
copied to `line_buffer` until there is a complete line, which is then dealt with. The
buffer is a C string: what is copied behind a null is lost at the next copy. A line
is the bytes between the local pointer `line` and `out`, and `offset` is where `line`
points. `write_buffer` succeeds. -/

namespace CommCentral.Mime

open Lib

inductive DecoderState where
  | dsBegin
  | dsBody
  | dsEnd
deriving DecidableEq

/-- The members of `MimeDecoderData` for lines: `ds_state` and the string in
`line_buffer`. -/
structure LineDecoderData where
  dsState : DecoderState
  lineBuffer : List UInt8
deriving DecidableEq

/-- The record is zeroed, and the buffer is empty when it is allocated. -/
def LineDecoderData.init : LineDecoderData where
  dsState := .dsBegin
  lineBuffer := []

/-- The bytes before the first null. -/
def cString (bytes : List UInt8) : List UInt8 := bytes.takeWhile (· ≠ 0)

def isLineEnd (c : UInt8) : Bool := c = CR || c = LF

/-- The inner loop `while (input_length > 0 && out < line_end)`: the bytes up to the end
of a line. `room` is `line_end - line`. -/
def copyBytes (room : Nat) : List UInt8 → List UInt8 → List UInt8 × List UInt8
  | line, [] => (line, [])
  | line, c :: input =>
    if line.length < room then
      if isLineEnd c then
        -- an LF that is waiting behind a CR is grabbed too
        (line ++ [c], if c = CR ∧ input.head? = some LF then input.tail else input)
      else copyBytes room (line ++ [c]) input
    else (line, c :: input)

/-- What was copied: nothing but a line end, the start of a line, or a complete line. -/
inductive Copied where
  | blank
  | waiting
  | complete
deriving DecidableEq

/-- The part of the loop that assembles a line; a line that fills the buffer is
truncated and counts as complete. -/
def fillLine (room : Nat) (line input : List UInt8) : Copied × List UInt8 × List UInt8 :=
  let (line, input) := copyBytes room (cString line) input
  if line.head?.any isLineEnd then (.blank, [], input)
  else
    let line := if line.length = room then line.take (room - 2) ++ [CR] else line
    if line.getLast?.any isLineEnd then (.complete, line, input) else (.waiting, line, input)

/-- What a decoder does with a complete line. -/
inductive LineAction where
  /-- A line before the body. The local pointer moves on by `advance`. -/
  | header (dsState : DecoderState) (advance : Nat)
  /-- The line that ends the body. -/
  | finish
  /-- A line of the body, decoded. -/
  | body (decoded : List UInt8)
  /-- The function returns -1; what the buffer holds then. -/
  | bad (line : List UInt8)

/-- The state of the loop, with the calls of `write_buffer` and `*outSize`. -/
structure LineState where
  dsState : DecoderState
  offset : Nat
  line : List UInt8
  calls : List (List UInt8)
  outSize : Nat

/-- A decoded line is written unless it is empty. -/
def LineState.write (state : LineState) (decoded : List UInt8) : LineState :=
  { state with
    line := []
    calls := if decoded = [] then state.calls else state.calls ++ [decoded]
    outSize := decoded.length }

/-- After a header line the buffer is emptied at its start. -/
def LineState.pass (state : LineState) (dsState : DecoderState) (advance : Nat)
    (line : List UInt8) : LineState :=
  { state with
    dsState := dsState
    offset := state.offset + advance
    line := if state.offset + advance = 0 then [] else line.drop advance }

/-- The loop `while (input_length > 0)`, in a buffer of some size; the result of the
function is second. `action` has no result where it would leave the buffer. -/
def lineDecoderLoop (size : Nat) (action : DecoderState → List UInt8 → Option LineAction) :
    Nat → LineState → List UInt8 → Option (LineState × Int)
  | _, state, [] => some (state, 1)
  | 0, _, _ :: _ => none
  | fuel + 1, state, c :: input =>
    match fillLine (size - 1 - state.offset) state.line (c :: input) with
    | (.blank, _, input) => lineDecoderLoop size action fuel { state with line := [] } input
    | (.waiting, line, _) => some ({ state with line := line }, 1)
    | (.complete, line, input) =>
      (action state.dsState (cString line)).bind fun
        | .header dsState advance =>
          lineDecoderLoop size action fuel (state.pass dsState advance line) input
        | .finish => some ({ state with dsState := .dsEnd, line := [] }, 1)
        | .body decoded => lineDecoderLoop size action fuel (state.write decoded) input
        | .bad line => some ({ state with line := line }, -1)

/-- A call of `MimeDecoderWrite`: the state afterwards, the calls of `write_buffer`,
`*outSize` and the result. The local pointer is lost, and with it what is not at the
start of the buffer. -/
def decodeLines (size : Nat) (action : DecoderState → List UInt8 → Option LineAction)
    (data : LineDecoderData) (buffer : List UInt8) (outSize : Nat) :
    Option (LineDecoderData × List (List UInt8) × Nat × Int) :=
  if data.dsState = .dsEnd then some (data, [], outSize, 0)
  else
    (lineDecoderLoop size action buffer.length
      { dsState := data.dsState, offset := 0, line := data.lineBuffer, calls := [], outSize }
      buffer).map fun (state, result) =>
        ({ dsState := state.dsState, lineBuffer := if state.offset = 0 then state.line else [] },
          state.calls, state.outSize, result)

/-- Several calls, one after the other, up to one that fails. -/
def decodeLinesAll (size : Nat) (action : DecoderState → List UInt8 → Option LineAction) :
    LineDecoderData → List (List UInt8) → Option (LineDecoderData × List (List UInt8))
  | data, [] => some (data, [])
  | data, buffer :: buffers => do
    let (data, calls, _, result) ← decodeLines size action data buffer 0
    if result < 0 then some (data, calls)
    else
      let (data, more) ← decodeLinesAll size action data buffers
      some (data, calls ++ more)

/-! ### `mime_decode_uue_buffer`

A line of the body is decoded in place, four characters to three bytes. An access out of the
buffer, or an assertion that fails, has no result. -/

/-- `line_buffer_size` for uuencode. -/
def uueBufferSize : Nat := 128

/-- `DEC`: six bits. -/
def dec (c : UInt8) : Nat := (c.toNat + 32) % 64

def asciiBytes (text : List Char) : List UInt8 := text.map Char.toUInt8

/-- `*out++ = ch`, when `out` has not passed `in` by `ahead` characters. -/
def putDecoded (memory : List UInt8) (out : Nat) (ch : Nat) (limit : Nat) :
    Option (List UInt8 × Nat) := do
  let memory ← store memory out (UInt8.ofNat ch)
  if out + 1 ≤ limit then some (memory, out + 1) else none

/-- The loop `for (++in; i > 0; in += 4, i -= 3)`, and where `in` and `out` are after it. -/
def uueGroups : Nat → List UInt8 → Nat → Nat → Int → Option (List UInt8 × Nat × Nat)
  | fuel, memory, input, out, i =>
    if i ≤ 0 then some (memory, input, out)
    else
      match fuel with
      | 0 => none
      | fuel + 1 =>
        if out ≤ input then do
          let c0 ← memory[input]?
          let c1 ← memory[input + 1]?
          let (memory, out) ← putDecoded memory out (dec c0 * 4 ||| dec c1 / 16) (input + 1)
          if i ≥ 3 then do
            let c1 ← memory[input + 1]?
            let c2 ← memory[input + 2]?
            let (memory, out) ← putDecoded memory out (dec c1 * 16 ||| dec c2 / 4) (input + 2)
            let c2 ← memory[input + 2]?
            let c3 ← memory[input + 3]?
            let (memory, out) ← putDecoded memory out (dec c2 * 64 ||| dec c3) (input + 3)
            uueGroups fuel memory (input + 4) out (i - 3)
          else if i = 2 then do
            let c1 ← memory[input + 1]?
            let c2 ← memory[input + 2]?
            let (memory, out) ← putDecoded memory out (dec c1 * 16 ||| dec c2 / 4) (input + 2)
            uueGroups fuel memory (input + 4) out (i - 3)
          else uueGroups fuel memory (input + 4) out (i - 3)
        else none

/-- The loop `while (lost > 0)`. -/
def padLost : Nat → List UInt8 → Nat → Option (List UInt8 × Nat)
  | 0, memory, out => some (memory, out)
  | lost + 1, memory, out => (store memory out 0).bind fun memory => padLost lost memory (out + 1)

/-- A line of the body, decoded in the buffer. `lost` counts the bytes that are missing at
the end of a short line. -/
def decodeUueLine (line : List UInt8) : Option (List UInt8) := do
  let memory := line ++ List.replicate (uueBufferSize - line.length) 0
  let first ← memory[0]?
  let count : Int := dec first
  let lost : Int := count - (((line.length : Int) - 2) * 3).tdiv 4
  let i := if lost > 0 then count - lost else count
  let (memory, input, out) ← uueGroups count.toNat memory 1 0 i
  let (memory, out') ← padLost lost.toNat memory out
  -- padding moves `in` behind `out`
  if out' < (if lost > 0 then out' + 1 else input) then some (memory.take out') else none

/-- What is done with a complete line. -/
def uueAction (dsState : DecoderState) (text : List UInt8) : Option LineAction :=
  if dsState = .dsBody ∧ text.take 3 = asciiBytes ['e', 'n', 'd'] ∧ text[3]?.any isLineEnd then
    some .finish
  else if dsState = .dsBegin then
    if text.take 6 = asciiBytes ['b', 'e', 'g', 'i', 'n', ' '] then some (.header .dsBody 0)
    else some (.header .dsBegin 0)
  else (decodeUueLine text).map .body

def decodeUueBuffer (data : LineDecoderData) (buffer : List UInt8) (outSize : Nat) :
    Option (LineDecoderData × List (List UInt8) × Nat × Int) :=
  decodeLines uueBufferSize uueAction data buffer outSize

/-! ### `mime_decode_yenc_buffer`

After a header line, each line is decoded character by character. Parsing the header moves the
local pointer `line` to the name of the file. -/

/-- `line_buffer_size` for yEnc. -/
def yencBufferSize : Nat := 1000

def isDecimal (c : UInt8) : Bool := '0'.toUInt8 ≤ c && c ≤ '9'.toUInt8

/-- The number that digits stand for. -/
def decimalValue (digits : List UInt8) : Nat :=
  digits.foldl (fun value c => value * 10 + (c.toNat - 48)) 0

def ybeginText : List UInt8 :=
  asciiBytes ['=', 'y', 'b', 'e', 'g', 'i', 'n', ' ', 'l', 'i', 'n', 'e', '=']

def sizeText : List UInt8 := asciiBytes [' ', 's', 'i', 'z', 'e', '=']

def nameText : List UInt8 := asciiBytes [' ', 'n', 'a', 'm', 'e', '=']

def yendText : List UInt8 := asciiBytes ['=', 'y', 'e', 'n', 'd', ' ', 's', 'i', 'z', 'e', '=']

/-- A line before the body: `line` moves over what is recognized. A buffer that had to
grow would leave `line` in the freed one, but no size is above 1000 and at most 997. -/
def yencHeader (line : List UInt8) : Option LineAction :=
  if line.take 13 = ybeginText then
    let digits := (line.drop 13).takeWhile isDecimal
    let rest := (line.drop 13).dropWhile isDecimal
    if rest.take 6 = sizeText then
      let rest := (rest.drop 6).dropWhile isDecimal
      if rest.take 6 = nameText then
        if decimalValue digits > yencBufferSize ∧ decimalValue digits ≤ 997 then none
        else some (.header .dsBody (line.length - rest.length))
      else some (.header .dsBegin (line.length - rest.length))
    else some (.header .dsBegin (line.length - rest.length))
  else some (.header .dsBegin 0)

/-- The loop over a line: what is decoded, and that no null comes behind `=`. -/
def decodeYencLine : List UInt8 → List UInt8 × Bool
  | [] => ([], true)
  | c :: line =>
    if isLineEnd c then ([], true)
    else if c = '='.toUInt8 then
      match line with
      | [] => ([], false)
      | d :: line => ((d - 64 - 42) :: (decodeYencLine line).1, (decodeYencLine line).2)
    else ((c - 42) :: (decodeYencLine line).1, (decodeYencLine line).2)

/-- What is done with a complete line, which is decoded in place: `dest` never passes
`src`. The last character cannot be an escape character. -/
def yencAction (dsState : DecoderState) (line : List UInt8) : Option LineAction :=
  if dsState = .dsBegin then yencHeader line
  else if dsState = .dsBody ∧ line.take 11 = yendText then some .finish
  else
    let (decoded, whole) := decodeYencLine line
    if whole then some (.body decoded)
    else some (.bad (decoded ++ line.drop decoded.length))

def decodeYencBuffer (data : LineDecoderData) (buffer : List UInt8) (outSize : Nat) :
    Option (LineDecoderData × List (List UInt8) × Nat × Int) :=
  decodeLines yencBufferSize yencAction data buffer outSize

end CommCentral.Mime
