import CommCentral.Base.WordBlock

/-! `nsMsgKeySet`: a set of article numbers as a list of literals and ranges. A literal
is the number itself; a range is a negative word with the length minus one and the word
with the first number. -/
namespace CommCentral.Base

/-- The members of `nsMsgKeySet`; `data` is the block at `m_data` with `m_data_size` words. -/
structure MsgKeySet where
  data : Block
  length : Nat
  cachedValue : Int
  cachedValueIndex : Nat
deriving Repr, DecidableEq

/-- The block of the constructors. -/
def initialSize : Nat := 10

namespace MsgKeySet

variable (junk : Junk)

/-- The chunk at the end of `output` gets `added` more numbers; a literal is converted to
a range first. -/
def lengthen (limit : Nat) (output : Block) (first : Int) (isRange : Bool) (added : Int) : Block :=
  let output := if isRange then output else (output.store (output.size - 1) 0).push limit first
  output.store (output.size - 2) (output.word junk.outside (output.size - 2) - added)

/-- The inner loop: extend the chunk `[from, to]` at the end of `output` by the chunks
that follow it without a gap. -/
def optimizeExtend (inputEnd : Nat) :
    Nat → Block → Nat → Block → Int → Int → Bool → Block × Nat × Block
  | 0, input, inputTail, output, _, _, _ => (input, inputTail, output)
  | fuel + 1, input, inputTail, output, first, last, isRange =>
    if inputTail < inputEnd then
      let input := input.touch inputTail
      let head := input.word junk.outside inputTail
      let input := if head > 0 then input else input.touch (inputTail + 1)
      let start := if head > 0 then head else input.word junk.outside (inputTail + 1)
      if start = add32 last 1 then
        let added := if head > 0 then 1 else -head + 1
        optimizeExtend inputEnd fuel input (if head > 0 then inputTail + 1 else inputTail + 2)
          (lengthen junk (inputEnd + 1) output first isRange added) first (last + added) true
      else (input, inputTail, output)
    else (input, inputTail, output)

/-- The outer loop over the chunks; no output when the output block is full. -/
def optimizeLoop (inputEnd : Nat) : Nat → Block → Nat → Block → Block × Option Block
  | 0, input, _, output => (input, some output)
  | fuel + 1, input, inputTail, output =>
    if inputTail < inputEnd then
      let input := input.touch inputTail
      let head := input.word junk.outside inputTail
      let isRange := decide (head < 0)
      let input := if isRange then input.touch (inputTail + 1) else input
      let first := if isRange then input.word junk.outside (inputTail + 1) else head
      let last := if isRange then first + -head else head
      let output := output.push (inputEnd + 1) head
      let output := if isRange then output.push (inputEnd + 1) first else output
      if output.size ≥ inputEnd + 1 then (input, none)
      else
        let (input, inputTail, output) := optimizeExtend junk inputEnd (inputEnd + 1) input
          (if isRange then inputTail + 2 else inputTail + 1) output first last isRange
        optimizeLoop inputEnd fuel input inputTail output
    else (input, some output)

/-- The last pass turns `[N - N+1]` into `[N, N+1]`. -/
def splitPairs (length : Nat) : Nat → Block → Nat → Block
  | 0, data, _ => data
  | fuel + 1, data, tail =>
    if tail < length then
      let data := data.touch tail
      if data.word junk.outside tail < 0 then
        let data := if data.word junk.outside tail = -1 then
            let data := data.copyWord junk.outside (tail + 1) tail
            data.store (tail + 1) (data.word junk.outside (tail + 1) + 1)
          else data
        splitPairs length fuel data (tail + 2)
      else splitPairs length fuel data (tail + 1)
    else data

/-- `Optimize`; its callers ignore the result. -/
def optimize (set : MsgKeySet) : MsgKeySet :=
  let outputSize := set.length + 1
  let set := { set with cachedValue := -1 }
  match optimizeLoop junk set.length (set.length + 1) set.data 0 ⟨[], true⟩ with
  | (input, none) => { set with data := input }
  | (input, some output) =>
    let data := { (output.finish junk outputSize) with
      inBounds := input.inBounds && output.inBounds }
    { set with
      data := splitPairs junk output.size (output.size + 1) data 0
      length := output.size }

/-- The loop of `IsMember`: the answer and the position it stops at. -/
def isMemberLoop (length : Nat) (number : Int) : Nat → Block → Nat → Block × Bool × Nat
  | 0, data, tail => (data, false, tail)
  | fuel + 1, data, tail =>
    if tail < length then
      let data := data.touch tail
      let head := data.word junk.outside tail
      if head < 0 then
        let data := data.touch (tail + 1)
        let first := data.word junk.outside (tail + 1)
        let last := first + -head
        if first > number then (data, false, tail)
        else if last ≥ number then (data, true, tail)
        else isMemberLoop length number fuel data (tail + 2)
      else if head = number then (data, true, tail)
      else if head > number then (data, false, tail)
      else isMemberLoop length number fuel data (tail + 1)
    else (data, false, tail)

def isMember (set : MsgKeySet) (number : Int) : MsgKeySet × Bool :=
  let tail := if set.cachedValue > 0 ∧ set.cachedValue < number then set.cachedValueIndex else 0
  let (data, value, tail) := isMemberLoop junk set.length number (set.length + 1) set.data tail
  ({ set with data := data, cachedValue := number, cachedValueIndex := tail }, value)

/-- The loop of `Add`: `none` when the number is present, else the position before which
it is to be inserted. -/
def addLoop (length : Nat) (number : Int) : Nat → Block → Nat → Block × Option Nat
  | 0, data, tail => (data, some tail)
  | fuel + 1, data, tail =>
    if tail < length then
      let data := data.touch tail
      let head := data.word junk.outside tail
      if head < 0 then
        let data := data.touch (tail + 1)
        let first := data.word junk.outside (tail + 1)
        let last := first + -head
        if first ≤ number ∧ last ≥ number then (data, none)
        else if last > number then (data, some tail)
        else addLoop length number fuel data (tail + 2)
      else if head = number then (data, none)
      else if head > number then (data, some tail)
      else addLoop length number fuel data (tail + 1)
    else (data, some tail)

def insertLiteral (data : Block) (length mid : Nat) (number : Int) : Block :=
  let data := if data.size ≤ length + 1 then data.grow junk else data
  if mid = length then data.store length number
  else (data.openGap junk.outside 1 length (length - mid)).store mid number

def add (set : MsgKeySet) (number : Int) : MsgKeySet × Int :=
  if number < 0 then (set, 0)
  else
    let set := { set with cachedValue := -1 }
    match addLoop junk set.length number (set.length + 1) set.data 0 with
    | (data, none) => ({ set with data := data }, 0)
    | (data, some mid) =>
      (optimize junk { set with
        data := insertLiteral junk data set.length mid number
        length := set.length + 1 }, 1)

/-- The loop of `Remove` up to the chunk that holds the number: its position, its first
and its last number, equal for a literal. -/
def removeLoop (length : Nat) (number : Int) :
    Nat → Block → Nat → Block × Option (Nat × Bool × Int × Int)
  | 0, data, _ => (data, none)
  | fuel + 1, data, tail =>
    if tail < length then
      let data := data.touch tail
      let head := data.word junk.outside tail
      if head < 0 then
        let data := data.touch (tail + 1)
        let first := data.word junk.outside (tail + 1)
        let last := first + -head
        if number < first ∨ number > last then removeLoop length number fuel data (tail + 2)
        else (data, some (tail, true, first, last))
      else if head ≠ number then removeLoop length number fuel data (tail + 1)
      else (data, some (tail, false, head, head))
    else (data, none)

/-- A range with length zero at `index` is converted to a literal. -/
def dropZeroLength (data : Block) (length index : Nat) : Block × Nat :=
  let data := data.touch index
  if data.word junk.outside index = 0 then
    ((data.copyWord junk.outside (index + 1) index).closeGap junk.outside (index + 1)
      (length - (index + 1)), length - 1)
  else (data, length)

/-- The middle of a range is removed: the range at `mid` becomes two chunks. -/
def removeSplit (set : MsgKeySet) (mid : Nat) (first last number : Int) : MsgKeySet :=
  let data := if set.data.size - set.length ≤ 2 then set.data.grow junk else set.data
  let data := data.openGap junk.outside 2 (set.length + 2) (set.length - mid)
  let data := (((data.store mid (-(number - first - 1))).store (mid + 1) first).store (mid + 2)
    (-(last - number - 1))).store (mid + 3) (number + 1)
  let (data, length) := dropZeroLength junk data (set.length + 2) mid
  let (data, length) := dropZeroLength junk data length (mid + 2)
  { set with data := data, length := length }

/-- The range `[first, last]` at `mid` loses one number. -/
def removeFromRange (set : MsgKeySet) (mid : Nat) (first last number : Int) : MsgKeySet :=
  let data := set.data
  if last = first + 1 then
    { set with
      data := (data.store mid (if number = first then last else first)).closeGap junk.outside
        (mid + 1) (set.length - (mid + 1))
      length := set.length - 1 }
  else if last = first + 2 then
    let data := (data.store mid first).store (mid + 1) last
    { set with
      data := if first = number then data.store mid (first + 1)
        else if last = number then data.store (mid + 1) (last - 1)
        else data }
  else if first = number then
    let data := (data.touch mid).store mid (data.word junk.outside mid + 1)
    { set with
      data := (data.touch (mid + 1)).store (mid + 1) (data.word junk.outside (mid + 1) + 1) }
  else if last = number then
    { set with data := (data.touch mid).store mid (data.word junk.outside mid + 1) }
  else removeSplit junk set mid first last number

def remove (set : MsgKeySet) (number : Int) : MsgKeySet × Int :=
  let set := { set with cachedValue := -1 }
  match removeLoop junk set.length number (set.length + 1) set.data 0 with
  | (data, none) => ({ set with data := data }, 0)
  | (data, some (mid, true, first, last)) =>
    (optimize junk (removeFromRange junk { set with data := data } mid first last number), 1)
  | (data, some (mid, false, _, _)) =>
    (optimize junk { set with
      data := data.closeGap junk.outside mid (set.length - 1 - mid)
      length := set.length - 1 }, 1)

def emitRange (limit : Nat) (first last : Int) (output : Block) : Block :=
  if first = last then output.push limit first
  else (output.push limit (-(last - first))).push limit first

/-- The copy of the chunks after the new range. -/
def copyRest (length limit : Nat) : Nat → Block → Nat → Block → Block × Block
  | 0, data, _, output => (data, output)
  | fuel + 1, data, tail, output =>
    if tail < length then
      copyRest length limit fuel (data.touch tail) (tail + 1)
        (output.push limit (data.word junk.outside tail))
    else (data, output)

/-- The loop of `AddRange` with the code after it; `none` when the range is present. -/
def addRangeLoop (length limit : Nat) :
    Nat → Block → Nat → Block → Int → Int → Block × Option Block
  | 0, data, _, _, _, _ => (data, none)
  | fuel + 1, data, tail, output, start, finish =>
    if tail < length then
      let data := data.touch tail
      let head := data.word junk.outside tail
      let isRange := decide (head < 0)
      let data := if isRange then data.touch (tail + 1) else data
      let first := if isRange then data.word junk.outside (tail + 1) else head
      let last := if isRange then -head + first else head
      let next := if isRange then tail + 2 else tail + 1
      if first ≤ start ∧ last ≥ finish then (data, none)
      else if start > add32 last 1 then
        addRangeLoop length limit fuel data next (emitRange limit first last output) start finish
      else if finish < first - 1 then
        let output := emitRange limit first last (emitRange limit start finish output)
        let (data, output) := copyRest junk length limit length data next output
        (data, some output)
      else
        addRangeLoop length limit fuel data next output (if start < first then start else first)
          (if finish > last then finish else last)
    else (data, some (emitRange limit start finish output))

def addRange (set : MsgKeySet) (start finish : Int) : MsgKeySet × Int :=
  let set := { set with cachedValue := -1 }
  if start > finish then (set, -1)
  else if start = finish then add junk set start
  else
    let limit := set.length + 2
    match addRangeLoop junk set.length limit (set.length + 1) set.data 0 ⟨[], true⟩ start finish with
    | (data, none) => ({ set with data := data }, 0)
    | (data, some output) =>
      ({ set with
        data := { (output.finish junk limit) with inBounds := data.inBounds && output.inBounds }
        length := output.size }, 1)

end MsgKeySet

end CommCentral.Base
