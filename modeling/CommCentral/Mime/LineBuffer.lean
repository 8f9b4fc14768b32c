import CommCentral.Lib.FixedBuffer
import CommCentral.Lib.LineEnds

/-! `mime_LineBuffer`: network packets are collected in a growing buffer and handed to
`per_line_fn` line by line, with the line ends of the platform. Accesses to the buffer
are checked, and `none` is an access out of range or a negative status. -/

namespace CommCentral.Mime

open Lib List Option

/-- `MSG_LINEBREAK`. -/
inductive LineBreak where
  | lf
  | crlf
deriving DecidableEq

/-- `*bufferP` up to `*buffer_fpP`, and `*buffer_sizeP`. -/
structure LineBuffer where
  content : List UInt8
  size : Nat

def LineBuffer.init : LineBuffer where
  content := []
  size := 0

/-- `mime_GrowBuffer`: the new size. -/
def growBuffer (desiredSize quantum size : Nat) : Nat :=
  if size ≤ desiredSize then
    let increment := desiredSize - size
    size + (if increment < quantum then quantum else increment)
  else size

/-- The line with its end converted to the native form. -/
def convertNewlines : LineBreak → List UInt8 → List UInt8
  | .lf, line =>
    if line.length ≥ 2 ∧ line.dropLast.getLast? = some CR ∧ line.getLast? = some LF then
      line.take (line.length - 2) ++ [LF]
    else if line.length > 1 ∧ line.getLast? ≠ some LF then line.dropLast ++ [LF]
    else line
  | .crlf, line =>
    if line.length ≥ 2 ∧ line.dropLast.getLast? ≠ some CR ∨
        line.length ≥ 1 ∧ line.getLast? ≠ some LF then
      line.dropLast ++ [CR, LF]
    else line

/-- `convert_and_send_buffer`: what `per_line_fn` is given. Where a line break has two
characters, a line of a null and an LF is ignored. -/
def convertAndSendBuffer (platform : LineBreak) (convert : Bool) (size : Nat)
    (line : List UInt8) : Option (List (List UInt8)) :=
  if platform = .crlf ∧ line = [0, LF] then some []
  else if line.length = 0 then none
  else if line.getLast? ≠ some CR ∧ line.getLast? ≠ some LF then none
  else
    let line := if convert then convertNewlines platform line else line
    if line.length ≤ size then some [line] else none

/-- The last packet ended with a CR, and the new one does not start with an LF. -/
def LineBuffer.shipOld (platform : LineBreak) (convert : Bool) (buffer : LineBuffer)
    (net : List UInt8) : Option (LineBuffer × List (List UInt8)) :=
  if buffer.content.length > 0 ∧ buffer.content.length < buffer.size ∧
      buffer.content.getLast? = some CR ∧ net.length > 0 ∧ net.head? ≠ some LF then
    (convertAndSendBuffer platform convert buffer.size buffer.content).map fun sent =>
      ({ buffer with content := [] }, sent)
  else some (buffer, [])

/-- Room for some bytes and a null, and the bytes. -/
def LineBuffer.append (buffer : LineBuffer) (bytes : List UInt8) : Option LineBuffer := do
  let desiredSize := bytes.length + buffer.content.length + 1
  let size :=
    if desiredSize ≥ buffer.size then growBuffer desiredSize 1024 buffer.size else buffer.size
  let content ← pushAll size buffer.content bytes
  let _ ← push size content 0
  some { content, size }

/-- The loop `while (net_buffer_size > 0)`. -/
def lineLoop (platform : LineBreak) (convert : Bool) :
    Nat → LineBuffer → List UInt8 → Option (LineBuffer × List (List UInt8))
  | _, buffer, [] => some (buffer, [])
  | 0, _, _ :: _ => none
  | fuel + 1, buffer, c :: net => do
    -- a CR at the very end of the packet is no newline yet
    let newline := lineLength (c :: net)
    let buffer ← buffer.append ((c :: net).take (newline.getD (c :: net).length))
    match newline with
    | none => some (buffer, [])
    | some n => do
      let sent ← convertAndSendBuffer platform convert buffer.size buffer.content
      let (buffer, more) ←
        lineLoop platform convert fuel { buffer with content := [] } ((c :: net).drop n)
      some (buffer, sent ++ more)

/-- `mime_LineBuffer`: the buffer afterwards and what `per_line_fn` was given. -/
def lineBuffer (platform : LineBreak) (convert : Bool) (buffer : LineBuffer)
    (net : List UInt8) : Option (LineBuffer × List (List UInt8)) := do
  let (buffer, old) ← buffer.shipOld platform convert net
  let (buffer, lines) ← lineLoop platform convert net.length buffer net
  some (buffer, old ++ lines)

/-- Several calls, one after the other. -/
def lineBufferAll (platform : LineBreak) (convert : Bool) :
    LineBuffer → List (List UInt8) → Option (LineBuffer × List (List UInt8))
  | buffer, [] => some (buffer, [])
  | buffer, net :: nets => do
    let (buffer, sent) ← lineBuffer platform convert buffer net
    let (buffer, more) ← lineBufferAll platform convert buffer nets
    some (buffer, sent ++ more)

/-- What `per_line_fn` is given for a line of the stream. -/
def handedOut (platform : LineBreak) (convert : Bool) (line : List UInt8) : List (List UInt8) :=
  if platform = .crlf ∧ line = [0, LF] then []
  else [if convert then convertNewlines platform line else line]

variable {platform : LineBreak} {convert : Bool}

/-- A buffer between two calls: bytes that wait have the null behind them. -/
def LineBuffer.Valid (buffer : LineBuffer) : Prop :=
  buffer.content ≠ [] → buffer.content.length < buffer.size

lemma LineBuffer.Valid.empty (size : Nat) : LineBuffer.Valid { content := [], size } :=
  fun nonempty => absurd rfl nonempty

lemma growBuffer_gt (desiredSize size : Nat) : desiredSize ≤ growBuffer desiredSize 1024 size := by
  unfold growBuffer
  split
  · dsimp only
    split <;> omega
  · omega

lemma convertNewlines_length_le (platform) {line : List UInt8} (some : line ≠ []) :
    (convertNewlines platform line).length ≤ line.length + 1 := by
  have positive := length_pos_iff.mpr some
  unfold convertNewlines
  split
  · split_ifs <;> simp
  · split_ifs
    · simp
      omega
    · simp

lemma convertAndSendBuffer_spec {size : Nat} {line : List UInt8}
    (ended : line.getLast? = some LF ∨ line.getLast? = some CR) (room : line.length < size) :
    convertAndSendBuffer platform convert size line = some (handedOut platform convert line) := by
  have nonempty : line ≠ [] := by
    rintro rfl
    cases ended <;> contradiction
  have positive : line.length ≠ 0 := fun zero => nonempty (eq_nil_of_length_eq_zero zero)
  have notOther : ¬ (line.getLast? ≠ some CR ∧ line.getLast? ≠ some LF) := by
    rintro ⟨notCr, notLf⟩
    cases ended with
    | inl isLf => exact notLf isLf
    | inr isCr => exact notCr isCr
  unfold convertAndSendBuffer handedOut
  by_cases ignored : platform = .crlf ∧ line = [0, LF]
  · rw [if_pos ignored, if_pos ignored]
  · rw [if_neg ignored, if_neg ignored, if_neg positive, if_neg notOther]
    have fits : (if convert then convertNewlines platform line else line).length ≤ size := by
      have grown := convertNewlines_length_le platform nonempty
      split <;> omega
    exact if_pos fits

lemma LineBuffer.append_spec (buffer : LineBuffer) (bytes : List UInt8) :
    ∃ size, buffer.append bytes = some { content := buffer.content ++ bytes, size } ∧
      (buffer.content ++ bytes).length < size := by
  have room : ∀ size, bytes.length + buffer.content.length + 1 ≤ size →
      (pushAll size buffer.content bytes).bind (fun content =>
        (push size content 0).bind fun _ => some ({ content, size } : LineBuffer)) =
          some { content := buffer.content ++ bytes, size } ∧
        (buffer.content ++ bytes).length < size := by
    intro size enough
    have inside : (buffer.content ++ bytes).length < size := by
      rw [length_append]
      omega
    rw [pushAll_of_le (by omega), bind_some, push_of_lt inside]
    exact ⟨rfl, inside⟩
  unfold LineBuffer.append
  by_cases grows : bytes.length + buffer.content.length + 1 ≥ buffer.size
  · simp only [if_pos grows]
    exact ⟨_, room _ (growBuffer_gt _ _)⟩
  · simp only [if_neg grows]
    exact ⟨_, room _ (by omega)⟩

lemma lineLoop_spec (fuel : Nat) {net : List UInt8} (enough : net.length ≤ fuel)
    (valid : buffer.Valid)
    (opened : buffer.content.getLast? = some CR → net = [] ∨ net.head? = some LF) :
    ∃ buffer' sent, lineLoop platform convert fuel buffer net = some (buffer', sent) ∧
      buffer'.Valid ∧ buffer'.content = (splitLines buffer.content net).2 ∧
      sent = (splitLines buffer.content net).1.flatMap (handedOut platform convert) := by
  induction fuel generalizing buffer net with
  | zero =>
    have nothing : net = [] := eq_nil_of_length_eq_zero (Nat.le_zero.mp enough)
    subst nothing
    exact ⟨buffer, [], by rw [lineLoop], valid, rfl, rfl⟩
  | succ fuel ih =>
    cases net with
    | nil => exact ⟨buffer, [], by rw [lineLoop], valid, rfl, rfl⟩
    | cons c net =>
      rw [lineLoop]
      cases found : lineLength (c :: net) with
      | none =>
        have notEnded : buffer.content.getLast? = some CR → c :: net = [] := by
          intro ended
          obtain nothing | isLf := opened ended
          · exact nothing
          · cases isLf
            cases found
        obtain ⟨size, appended, room⟩ := buffer.append_spec (c :: net)
        rw [splitLines_none found notEnded]
        refine ⟨{ content := buffer.content ++ c :: net, size }, [], ?_, fun _ => room, rfl, rfl⟩
        simp only [getD_none, take_length, appended, bind_eq_bind,
          bind_some]
      | some n =>
        obtain ⟨size, appended, room⟩ := buffer.append_spec ((c :: net).take n)
        obtain ⟨positive, within⟩ := lineLength_le found
        have last := lineLength_last found
        have some : (c :: net).take n ≠ [] := by
          intro nothing
          rw [nothing] at last
          cases last <;> contradiction
        have ended : (buffer.content ++ (c :: net).take n).getLast? = .some LF ∨
            (buffer.content ++ (c :: net).take n).getLast? = .some CR := by
          rw [getLast?_append_nonempty some]
          exact last
        have shorter : ((c :: net).drop n).length ≤ fuel := by
          rw [length_drop]
          omega
        obtain ⟨buffer', sent, looped, valid', content, sentEq⟩ :=
          @ih { content := [], size } ((c :: net).drop n) shorter (.empty size)
            (fun impossible => by cases impossible)
        rw [splitLines_line found (fun isCr => (opened isCr).resolve_left (by simp))]
        refine ⟨buffer', handedOut platform convert (buffer.content ++ (c :: net).take n) ++ sent,
          ?_, valid', content, by rw [sentEq, flatMap_cons]⟩
        simp only [getD_some, appended, bind_eq_bind, bind_some,
          convertAndSendBuffer_spec ended room, looped]

lemma lineBuffer_spec (valid : buffer.Valid) (net) :
    ∃ buffer' sent, lineBuffer platform convert buffer net = some (buffer', sent) ∧
      buffer'.Valid ∧ buffer'.content = (splitLines buffer.content net).2 ∧
      sent = (splitLines buffer.content net).1.flatMap (handedOut platform convert) := by
  unfold lineBuffer LineBuffer.shipOld
  by_cases ships : buffer.content.length > 0 ∧ buffer.content.length < buffer.size ∧
      buffer.content.getLast? = some CR ∧ net.length > 0 ∧ net.head? ≠ some LF
  · have ⟨_, room, ended, nonempty, other⟩ := ships
    obtain ⟨buffer', sent, looped, valid', content, sentEq⟩ :=
      @lineLoop_spec platform convert { buffer with content := [] } net.length net (Nat.le_refl _)
        (.empty _) (fun impossible => by cases impossible)
    rw [if_pos ships, splitLines_pending ended (length_pos_iff.mp nonempty) other,
      convertAndSendBuffer_spec (.inr ended) room]
    refine ⟨buffer', handedOut platform convert buffer.content ++ sent, ?_, valid', content,
      by rw [sentEq, flatMap_cons]⟩
    simp only [map_some, bind_eq_bind, bind_some, looped]
  · have opened : buffer.content.getLast? = some CR → net = [] ∨ net.head? = some LF := by
      intro ended
      have nonempty : buffer.content ≠ [] := by
        intro nothing
        rw [nothing] at ended
        cases ended
      by_contra neither
      obtain ⟨some, other⟩ := not_or.mp neither
      exact ships ⟨length_pos_iff.mpr nonempty, valid nonempty, ended,
        length_pos_iff.mpr some, other⟩
    obtain ⟨buffer', sent, looped, valid', content, sentEq⟩ :=
      @lineLoop_spec platform convert buffer net.length net (Nat.le_refl _) valid opened
    rw [if_neg ships]
    refine ⟨buffer', sent, ?_, valid', content, sentEq⟩
    simp only [bind_eq_bind, bind_some, looped, nil_append]

/-- Any cut of the stream into calls. -/
theorem lineBufferAll_spec (valid : buffer.Valid) (nets : List (List UInt8)) :
    ∃ buffer' sent, lineBufferAll platform convert buffer nets = some (buffer', sent) ∧
      buffer'.content = (splitLines buffer.content nets.flatten).2 ∧
      sent = (splitLines buffer.content nets.flatten).1.flatMap (handedOut platform convert) := by
  induction nets generalizing buffer with
  | nil => exact ⟨buffer, [], rfl, rfl, rfl⟩
  | cons net nets ih =>
    obtain ⟨next, sent, called, nextValid, content, sentEq⟩ :=
      @lineBuffer_spec platform convert buffer valid net
    obtain ⟨buffer', more, rest, content', moreEq⟩ := ih nextValid
    refine ⟨buffer', sent ++ more, ?_, ?_, ?_⟩
    · simp only [lineBufferAll, called, rest, bind_eq_bind, bind_some]
    · rw [content', content, flatten_cons, splitLines_append]
    · rw [sentEq, moreEq, content, flatten_cons, splitLines_append, flatMap_append]

/-- However a stream is cut into packets, `per_line_fn` is given the lines that a single
call gives it, and the same bytes stay in the buffer. The lines end exactly where a line
of the stream ends; a CR at the end of the stream stays pending. -/
theorem lineBuffer_packets (platform : LineBreak) (convert : Bool) (packets : List (List UInt8)) :
    ∃ buffer single sent lines rest,
      lineBufferAll platform convert LineBuffer.init packets = some (buffer, sent) ∧
      lineBuffer platform convert LineBuffer.init packets.flatten = some (single, sent) ∧
      buffer.content = rest ∧ single.content = rest ∧
      sent = lines.flatMap (handedOut platform convert) ∧
      CutAtLineEnds packets.flatten lines rest := by
  obtain ⟨buffer, sent, calls, content, sentEq⟩ :=
    @lineBufferAll_spec platform convert _ (LineBuffer.Valid.empty 0) packets
  obtain ⟨single, sent', call, -, content', sentEq'⟩ :=
    @lineBuffer_spec platform convert _ (LineBuffer.Valid.empty 0) packets.flatten
  have same : sent' = sent := by rw [sentEq', sentEq]
  rw [same] at call
  exact ⟨buffer, single, sent, _, _, calls, call, content, content', sentEq,
    splitLines_cut packets.flatten⟩

end CommCentral.Mime
