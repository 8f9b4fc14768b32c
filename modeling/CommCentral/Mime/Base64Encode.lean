import CommCentral.Lib.Blocks
import CommCentral.Lib.FixedBuffer
import CommCentral.Mime.Lines

/-! `Base64Encoder`: bytes are encoded three at a time into lines of 72 characters;
one or two bytes wait in `in_buffer` for the next call. Every access to a buffer
is checked, and `none` is an access out of range. The callback succeeds, and a
call reports what it was given. -/

namespace CommCentral.Mime

open Lib

structure Base64Encoder where
  inBuffer : List UInt8
  inBufferCount : Nat
  mCurrentColumn : Nat

def Base64Encoder.init : Base64Encoder where
  inBuffer := [0, 0, 0]
  inBufferCount := 0
  mCurrentColumn := 0

/-- The character for six bits; more than six would crash. -/
def base64Char (k : Nat) : Option UInt8 :=
  if k < 26 then some (UInt8.ofNat (k + 'A'.toNat))
  else if k < 52 then some (UInt8.ofNat (k - 26 + 'a'.toNat))
  else if k < 62 then some (UInt8.ofNat (k - 52 + '0'.toNat))
  else if k = 62 then some '+'.toUInt8
  else if k = 63 then some '/'.toUInt8
  else none

/-- `Base64Encoder::Base64EncodeBits`. -/
def base64EncodeBits (capacity : Nat) (out : List UInt8) (bits : UInt32) :
    Option (List UInt8) :=
  [18, 12, 6, 0].foldlM
    (fun out (j : UInt32) => do
      let c ← base64Char ((bits >>> j) &&& 0x3F).toNat
      push capacity out c)
    out

/-- The line being written in `out_buffer`, and what the callback was given. -/
structure OutputLine where
  column : Nat
  out : List UInt8
  calls : List (List UInt8)

/-- The end of the body of the loop in `Write`: one triple is encoded, and the
line is flushed before column 76. -/
def encodeTriple (bits : UInt32) (line : OutputLine) : Option OutputLine := do
  let out ← base64EncodeBits 80 line.out bits
  if line.column + 4 ≥ 72 then
    let out ← pushAll 80 out crlf
    some { column := 0, out := [], calls := line.calls ++ [out] }
  else some { line with column := line.column + 4, out := out }

/-- The inner loop `while (i < 3)`, which reads `missing` more bytes. -/
def accumulate : Nat → UInt32 → List UInt8 → Option (UInt32 × List UInt8)
  | 0, bits, rest => some (bits, rest)
  | missing + 1, bits, byte :: rest => accumulate missing ((bits <<< 8) ||| byte.toUInt32) rest
  | _ + 1, _, [] => none

/-- The loop `while (in < end)` over the bytes that are left. -/
def encodeLoop : Nat → Nat → UInt32 → List UInt8 → OutputLine → Option OutputLine
  | _, _, _, [], line => some line
  | 0, _, _, _ :: _, _ => none
  | fuel + 1, i, bits, rest, line => do
    let (bits, rest) ← accumulate (3 - i) bits rest
    let line ← encodeTriple bits line
    encodeLoop fuel 0 bits rest line

/-- A buffer too small for a triple is put behind the bytes that wait. -/
def keepBytes (encoder : Base64Encoder) (buffer : List UInt8) : Option Base64Encoder := do
  let first ← buffer[0]?
  let inBuffer ← store encoder.inBuffer encoder.inBufferCount first
  if buffer.length = 2 then
    let second ← buffer[1]?
    let inBuffer ← store inBuffer (encoder.inBufferCount + 1) second
    some { encoder with inBuffer, inBufferCount := encoder.inBufferCount + 2 }
  else some { encoder with inBuffer, inBufferCount := encoder.inBufferCount + 1 }

/-- The bits of the bytes that were put back last time. -/
def pendingBits (encoder : Base64Encoder) : Option UInt32 := do
  let bits ← if encoder.inBufferCount > 0 then encoder.inBuffer[0]?.map UInt8.toUInt32 else some 0
  if encoder.inBufferCount > 1 then
    let second ← encoder.inBuffer[1]?
    some ((bits <<< 8) + second.toUInt32)
  else some bits

/-- The one or two bytes at the end of the buffer that are put back. -/
def putBack (inBuffer buffer : List UInt8) (excess : Nat) : Option (List UInt8) :=
  if excess = 0 then some inBuffer
  else do
    let first ← buffer[buffer.length - excess]?
    let inBuffer ← store inBuffer 0 first
    if excess > 1 then
      let second ← buffer[buffer.length - excess + 1]?
      store inBuffer 1 second
    else some inBuffer

/-- `Base64Encoder::Write`. -/
def Base64Encoder.write (encoder : Base64Encoder) (buffer : List UInt8) :
    Option (Base64Encoder × List (List UInt8)) :=
  let size := buffer.length
  if size = 0 then some (encoder, [])
  else if size < 3 - encoder.inBufferCount then
    (keepBytes encoder buffer).map fun encoder => (encoder, [])
  else do
    let i := encoder.inBufferCount
    let bits ← pendingBits encoder
    let excess := (size + i) % 3
    let inBuffer ← putBack encoder.inBuffer buffer excess
    let line ← encodeLoop size i bits (buffer.take (size - excess))
      { column := encoder.mCurrentColumn, out := [], calls := [] }
    let calls := if line.out = [] then line.calls else line.calls ++ [line.out]
    some ({ inBuffer, inBufferCount := excess, mCurrentColumn := line.column }, calls)

/-- The bits of the one or two bytes that `Flush` finds. -/
def flushBits (encoder : Base64Encoder) : Option UInt32 := do
  let first ← encoder.inBuffer[0]?
  let bits := first.toUInt32 <<< 16
  if encoder.inBufferCount > 1 then
    let second ← encoder.inBuffer[1]?
    some (bits ||| (second.toUInt32 <<< 8))
  else some bits

/-- `Base64Encoder::Flush`. -/
def Base64Encoder.flush (encoder : Base64Encoder) : Option (List (List UInt8)) :=
  if encoder.inBufferCount = 0 then some []
  else do
    let bits ← flushBits encoder
    let buf ← base64EncodeBits 4 [] bits
    let buf ← if encoder.inBufferCount = 1 then store buf 2 '='.toUInt8 else some buf
    let buf ← store buf 3 '='.toUInt8
    some [buf]

/-- Several calls of `Write`, one after the other. -/
def Base64Encoder.writeAll (encoder : Base64Encoder) :
    List (List UInt8) → Option (Base64Encoder × List (List UInt8))
  | [] => some (encoder, [])
  | buffer :: buffers => do
    let (encoder, calls) ← encoder.write buffer
    let (encoder, more) ← encoder.writeAll buffers
    some (encoder, calls ++ more)

end CommCentral.Mime
