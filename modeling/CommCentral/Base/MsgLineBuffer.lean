import CommCentral.Mime.LineBuffer

/-! The line buffer of mail and news streams, with the memory that its buffer stands in. -/
namespace CommCentral.Base

open Lib List Option
open Mime (LineBreak)

/-- `nsMsgLineBuffer`. The length of `buffer` is `m_bufferSize`. -/
structure MsgLineBuffer where
  convertNewlinesP : Bool
  lookingForCRLF : Bool := true
  buffer : List UInt8 := []
  bufferPos : Nat := 0
  deriving DecidableEq

namespace MsgLineBuffer

/-- `GrowBuffer`; `heap` is what stands in memory that nothing was written to. -/
def growBuffer (heap : Nat → UInt8) (buffer : List UInt8) (desiredSize quantum : Nat) :
    List UInt8 :=
  if buffer.length < desiredSize then
    let increment := desiredSize - buffer.length
    let increment := if increment < quantum then quantum else increment
    buffer ++ (List.range' buffer.length increment).map heap
  else buffer

/-- The place behind the first line end, if the packet has one. A CR at the very end of the
packet is none while the buffer looks for CRLF. -/
def newlineIn (lookingForCRLF : Bool) (net : List UInt8) : Option Nat :=
  if lookingForCRLF then lineLength net
  else (net.findIdx? fun c => c == CR || c == LF).map (· + 1)

/-- The part of `BufferInput` that makes room for a chunk and copies it. -/
def addChunk (heap : Nat → UInt8) (line : MsgLineBuffer) (chunk : List UInt8) :
    Option MsgLineBuffer :=
  let desiredSize := chunk.length + line.bufferPos + 1
  let grown :=
    if desiredSize ≥ line.buffer.length then growBuffer heap line.buffer desiredSize 1024
    else line.buffer
  (overwrite grown line.bufferPos chunk).map fun buffer =>
    { line with buffer := buffer, bufferPos := line.bufferPos + chunk.length }

/-- The line terminator in the native form: the buffer and the new length of the line. -/
def convertLineEnd (platform : LineBreak) (buffer : List UInt8) (length : Nat) :
    Option (List UInt8 × Nat) :=
  match platform with
  | .lf =>
    if 2 ≤ length ∧ buffer[length - 2]? = some CR ∧ buffer[length - 1]? = some LF then
      (store buffer (length - 2) LF).map (·, length - 1)
    else if 1 < length ∧ buffer[length - 1]? ≠ some LF then
      (store buffer (length - 1) LF).map (·, length)
    else some (buffer, length)
  | .crlf =>
    if 2 ≤ length ∧ buffer[length - 2]? ≠ some CR ∨ buffer[length - 1]? ≠ some LF then
      ((store buffer (length - 1) CR).bind (store · length LF)).map (·, length + 1)
    else some (buffer, length)

/-- `ConvertAndSendBuffer`: the buffer afterwards and what `HandleLine` is given. -/
def convertAndSendBuffer (platform : LineBreak) (line : MsgLineBuffer) :
    Option (MsgLineBuffer × List UInt8) :=
  if line.bufferPos = 0 then none
  else if line.buffer[line.bufferPos - 1]? ≠ some CR ∧
      line.buffer[line.bufferPos - 1]? ≠ some LF then none
  else do
    let (buffer, length) ←
      if line.convertNewlinesP then convertLineEnd platform line.buffer line.bufferPos
      else some (line.buffer, line.bufferPos)
    let handled ← fetch buffer 0 length
    some ({ line with buffer := buffer }, handled)

/-- The first step of `BufferInput`: an old CR is shipped when no LF follows. -/
def shipOld (platform : LineBreak) (line : MsgLineBuffer) (net : List UInt8) :
    Option (MsgLineBuffer × List (List UInt8)) :=
  if 0 < line.bufferPos ∧ line.buffer[line.bufferPos - 1]? = some CR ∧ 0 < net.length ∧
      net.head? ≠ some LF then
    if line.buffer.length ≤ line.bufferPos then none
    else (convertAndSendBuffer platform line).map fun (line, handled) =>
      ({ line with bufferPos := 0 }, [handled])
  else some (line, [])

/-- The loop of `BufferInput`, which takes at least a byte per turn. -/
def inputLoop (heap : Nat → UInt8) (platform : LineBreak) :
    Nat → MsgLineBuffer → List UInt8 → Option (MsgLineBuffer × List (List UInt8))
  | _, line, [] => some (line, [])
  | 0, _, _ :: _ => none
  | fuel + 1, line, c :: net => do
    let newline := newlineIn line.lookingForCRLF (c :: net)
    let line ← line.addChunk heap ((c :: net).take (newline.getD (c :: net).length))
    match newline with
    | none => some (line, [])
    | some stop => do
      let (line, handled) ← line.convertAndSendBuffer platform
      let (line, more) ←
        inputLoop heap platform fuel { line with bufferPos := 0 } ((c :: net).drop stop)
      some (line, handled :: more)

/-- `BufferInput` with the lines that `HandleLine` is given. -/
def bufferInput (heap : Nat → UInt8) (platform : LineBreak) (line : MsgLineBuffer)
    (net : List UInt8) : Option (MsgLineBuffer × List (List UInt8)) := do
  let (line, old) ← line.shipOld platform net
  let (line, lines) ← inputLoop heap platform net.length line net
  some (line, old ++ lines)

/-- `FlushLastLine`, which reads from behind the bytes that wait. -/
def flushLastLine (heap : Nat → UInt8) (line : MsgLineBuffer) : List (List UInt8) :=
  let length := line.bufferPos - 1
  if 0 < length then
    [(List.range' line.bufferPos length).map fun place => line.buffer.getD place (heap place)]
  else []

/-- All packets of a stream one after the other. -/
def inputAll (heap : Nat → UInt8) (platform : LineBreak) :
    MsgLineBuffer → List (List UInt8) → Option (MsgLineBuffer × List (List UInt8))
  | line, [] => some (line, [])
  | line, net :: nets => do
    let (line, lines) ← line.bufferInput heap platform net
    let (line, more) ← inputAll heap platform line nets
    some (line, lines ++ more)

/-- Everything that `HandleLine` is given for a stream, its end included. -/
def handled (heap : Nat → UInt8) (platform : LineBreak) (line : MsgLineBuffer)
    (packets : List (List UInt8)) : Option (List (List UInt8)) := do
  let (line, lines) ← inputAll heap platform line packets
  some (lines ++ line.flushLastLine heap)

section Newline

variable {net front text : List UInt8}

def LineEnder (looking : Bool) (last : UInt8) : Prop := last = LF ∨ looking = false ∧ last = CR

instance (looking : Bool) (last : UInt8) : Decidable (LineEnder looking last) :=
  inferInstanceAs (Decidable (_ ∨ _))

lemma lineLength_ends (found : lineLength text = some stop) :
    (text.take stop).getLast? = some LF ∨
      (text.take stop).getLast? = some CR ∧ stop < text.length := by
  induction text generalizing stop with
  | nil => cases found
  | cons c text ih =>
    rw [lineLength] at found
    by_cases isCr : c = CR
    · rw [if_pos isCr] at found
      cases text with
      | nil => cases found
      | cons d text =>
        cases found
        by_cases isLf : d = LF
        · simp [isLf]
        · simp [isLf, isCr]
    · rw [if_neg isCr] at found
      by_cases isLf : c = LF
      · rw [if_pos isLf] at found
        cases found
        simp [isLf]
      · rw [if_neg isLf] at found
        obtain ⟨place, found', rfl⟩ := map_eq_some_iff.mp found
        have inner := ih found'
        obtain ⟨positive, _⟩ := lineLength_le found'
        have some : text.take place ≠ [] := by
          intro nothing
          rw [nothing] at inner
          simp at inner
        rw [take_succ_cons, getLast?_cons_of_ne_nil some]
        simpa using inner

lemma newlineIn_le (found : newlineIn looking net = some stop) :
    0 < stop ∧ stop ≤ net.length := by
  cases looking with
  | true => exact lineLength_le found
  | false =>
    obtain ⟨place, first, rfl⟩ := map_eq_some_iff.mp found
    obtain ⟨inside, _⟩ := findIdx?_eq_some_iff_getElem.mp first
    omega

lemma newlineIn_ends (found : newlineIn looking net = some stop) :
    ∃ last, (net.take stop).getLast? = some last ∧ (last = LF ∨ last = CR) ∧
      (stop = net.length → LineEnder looking last) := by
  cases looking with
  | true =>
    rcases lineLength_ends found with isLf | ⟨isCr, before⟩
    · exact ⟨LF, isLf, .inl rfl, fun _ => .inl rfl⟩
    · exact ⟨CR, isCr, .inr rfl, fun same => by omega⟩
  | false =>
    obtain ⟨place, first, rfl⟩ := map_eq_some_iff.mp found
    obtain ⟨inside, ends, _⟩ := findIdx?_eq_some_iff_getElem.mp first
    refine ⟨net[place], ?_, ?_, ?_⟩
    · rw [take_succ_eq_append_getElem inside, getLast?_append_of_ne_nil _ (by simp)]
      rfl
    · simpa [or_comm] using ends
    · intro _
      simpa [LineEnder, or_comm] using ends

lemma newlineIn_append (frontNone : newlineIn looking front = none)
    (textNone : newlineIn looking text = none)
    (opened : front.getLast? = some CR → text = []) :
    newlineIn looking (front ++ text) = none := by
  cases looking with
  | false =>
    simp only [newlineIn, Bool.false_eq_true, if_false, map_eq_none_iff,
      findIdx?_eq_none_iff] at frontNone textNone ⊢
    intro c mem
    rcases mem_append.mp mem with inFront | inText
    · exact frontNone c inFront
    · exact textNone c inText
  | true =>
    change lineLength (front ++ text) = none
    change lineLength front = none at frontNone
    induction front with
    | nil => exact textNone
    | cons c front ih =>
      rw [lineLength] at frontNone
      rw [cons_append, lineLength]
      by_cases isCr : c = CR
      · rw [if_pos isCr] at frontNone ⊢
        cases front with
        | nil =>
          rw [opened (by rw [isCr]; rfl)]
          rfl
        | cons d front => cases frontNone
      · rw [if_neg isCr] at frontNone ⊢
        by_cases isLf : c = LF
        · rw [if_pos isLf] at frontNone
          cases frontNone
        · rw [if_neg isLf, map_eq_none_iff] at frontNone
          rw [if_neg isLf, ih ?_ frontNone]
          · rfl
          · intro ends
            apply opened
            cases front with
            | nil => cases ends
            | cons d front => simpa using ends

lemma newlineIn_last (missing : newlineIn looking text = none) {last : UInt8}
    (ends : text.getLast? = some last) : ¬ LineEnder looking last := by
  obtain ⟨front, rfl⟩ := getLast?_eq_some_iff.mp ends
  cases looking with
  | false =>
    simp only [newlineIn, Bool.false_eq_true, if_false, map_eq_none_iff,
      findIdx?_eq_none_iff] at missing
    have none := missing last (by simp)
    simpa [LineEnder, or_comm] using none
  | true =>
    rintro (rfl | ⟨impossible, _⟩)
    · change lineLength (front ++ [LF]) = none at missing
      clear ends
      induction front with
      | nil => cases missing
      | cons c front ih =>
        rw [cons_append, lineLength] at missing
        split at missing
        · cases front <;> cases missing
        · split at missing
          · cases missing
          · exact ih (map_eq_none_iff.mp missing)
    · cases impossible

end Newline

section Handled

variable {heap : Nat → UInt8} {line : MsgLineBuffer}

/-- The bytes that wait for the end of their line. -/
def pending (line : MsgLineBuffer) : List UInt8 := line.buffer.take line.bufferPos

/-- A buffer between two steps, which converts nothing and has room for one more byte. -/
structure Ready (looking : Bool) (line : MsgLineBuffer) : Prop where
  plain : line.convertNewlinesP = false
  looks : line.lookingForCRLF = looking
  room : 0 < line.bufferPos → line.bufferPos < line.buffer.length

lemma Ready.within (ready : line.Ready looking) : line.bufferPos ≤ line.buffer.length := by
  rcases Nat.eq_zero_or_pos line.bufferPos with zero | positive
  · omega
  · exact Nat.le_of_lt (ready.room positive)

lemma Ready.length_pending (ready : line.Ready looking) :
    line.pending.length = line.bufferPos :=
  length_take_of_le ready.within

lemma Ready.last_pending (ready : line.Ready looking) (some : 0 < line.bufferPos) :
    line.pending.getLast? = line.buffer[line.bufferPos - 1]? := by
  rw [getLast?_eq_getElem?, ready.length_pending, pending, getElem?_take_of_lt (by omega)]

variable (buffer : List UInt8)

lemma length_growBuffer (desiredSize quantum : Nat) :
    desiredSize ≤ (growBuffer heap buffer desiredSize quantum).length := by
  unfold growBuffer
  dsimp only
  split
  · rw [length_append, length_map, length_range']
    split <;> omega
  · omega

lemma take_growBuffer (desiredSize quantum : Nat) (within : place ≤ buffer.length) :
    (growBuffer heap buffer desiredSize quantum).take place = buffer.take place := by
  unfold growBuffer
  dsimp only
  split
  · exact take_append_of_le_length within
  · rfl

lemma addChunk_spec (heap : Nat → UInt8) (ready : line.Ready looking) (chunk) :
    ∃ next, line.addChunk heap chunk = some next ∧ next.Ready looking ∧
      next.pending = line.pending ++ chunk := by
  have grows : ∃ grown, (if chunk.length + line.bufferPos + 1 ≥ line.buffer.length then
        growBuffer heap line.buffer (chunk.length + line.bufferPos + 1) 1024
      else line.buffer) = grown ∧ chunk.length + line.bufferPos + 1 ≤ grown.length ∧
        grown.take line.bufferPos = line.pending := by
    split
    · exact ⟨_, rfl, length_growBuffer _ _ _, take_growBuffer _ _ _ ready.within⟩
    · exact ⟨_, rfl, by omega, rfl⟩
  obtain ⟨grown, same, room, kept⟩ := grows
  have fits : line.bufferPos + chunk.length ≤ grown.length := by omega
  have written : overwrite grown line.bufferPos chunk =
      some (line.pending ++ chunk ++ grown.drop (line.bufferPos + chunk.length)) := by
    rw [overwrite, if_pos fits, kept]
  have length : (line.pending ++ chunk).length = line.bufferPos + chunk.length := by
    rw [length_append, ready.length_pending]
  refine ⟨{ line with
    buffer := line.pending ++ chunk ++ grown.drop (line.bufferPos + chunk.length)
    bufferPos := line.bufferPos + chunk.length }, ?_, ⟨ready.plain, ready.looks, ?_⟩, ?_⟩
  · simp only [addChunk, same, written, map_some]
  · intro _
    simp only [length_append, length_drop] at length ⊢
    omega
  · exact take_left' length

lemma convertAndSendBuffer_spec (ready : line.Ready looking) {last : UInt8}
    (ends : line.pending.getLast? = some last) (isEnd : last = LF ∨ last = CR) :
    line.convertAndSendBuffer platform = some (line, line.pending) := by
  have positive : line.bufferPos ≠ 0 := by
    intro zero
    rw [pending, zero] at ends
    cases ends
  rw [ready.last_pending (by omega)] at ends
  have notOther : ¬ (line.buffer[line.bufferPos - 1]? ≠ some CR ∧
      line.buffer[line.bufferPos - 1]? ≠ some LF) := by
    rintro ⟨notCr, notLf⟩
    rcases isEnd with rfl | rfl
    · exact notLf ends
    · exact notCr ends
  have read : fetch line.buffer 0 line.bufferPos = some line.pending := by
    rw [fetch, if_pos (by simpa using ready.within)]
    rfl
  rw [convertAndSendBuffer, if_neg positive, if_neg notOther]
  rw [ready.plain]
  simp only [Bool.false_eq_true, if_false, bind_eq_bind, bind_some, read]
  rw [← ready.plain]

/-- After a line was handed over nothing waits. -/
theorem Ready.cleared (ready : line.Ready looking) :
    Ready looking { line with bufferPos := 0 } :=
  ⟨ready.plain, ready.looks, fun positive => absurd positive (Nat.lt_irrefl 0)⟩

/-- What a step does with the waiting bytes and the new ones: it hands over lines, keeps the
rest, and keeps nothing only behind the end of a line. -/
structure Passed (looking : Bool) (before after : MsgLineBuffer) (net : List UInt8)
    (lines : List (List UInt8)) : Prop where
  ready : after.Ready looking
  joined : lines.flatten ++ after.pending = before.pending ++ net
  unfinished : newlineIn looking after.pending = none
  ended : after.pending = [] → ∀ last, net.getLast? = some last → LineEnder looking last
  idle : net = [] → after.pending = before.pending

/-- One turn after the other hands over the lines of a packet. -/
theorem inputLoop_spec (heap : Nat → UInt8) (platform : LineBreak) (fuel : Nat)
    (enough : net.length ≤ fuel) (ready : line.Ready looking)
    (unfinished : newlineIn looking line.pending = none)
    (opened : line.pending.getLast? = some CR → net = [] ∨ net.head? = some LF) :
    ∃ after lines, inputLoop heap platform fuel line net = some (after, lines) ∧
      Passed looking line after net lines := by
  induction fuel generalizing line net with
  | zero =>
    have nothing : net = [] := eq_nil_of_length_eq_zero (Nat.le_zero.mp enough)
    subst nothing
    exact ⟨line, [], by rw [inputLoop], ready, by simp, unfinished, by simp, fun _ => rfl⟩
  | succ fuel ih =>
    cases net with
    | nil => exact ⟨line, [], by rw [inputLoop], ready, by simp, unfinished, by simp, fun _ => rfl⟩
    | cons c net =>
      rw [inputLoop, ready.looks]
      cases found : newlineIn looking (c :: net) with
      | none =>
        obtain ⟨next, added, nextReady, same⟩ := addChunk_spec heap ready (c :: net)
        refine ⟨next, [], ?_, nextReady, by simpa using same, ?_, ?_, nofun⟩
        · simp [added]
        · rw [same]
          apply newlineIn_append unfinished found
          intro ends
          rcases opened ends with nothing | isLf
          · exact nothing
          · cases isLf
            cases looking <;> cases found
        · intro nothing
          rw [same] at nothing
          simp at nothing
      | some stop =>
        obtain ⟨positive, within⟩ := newlineIn_le found
        obtain ⟨last, ends, isEnd, ender⟩ := newlineIn_ends found
        obtain ⟨next, added, nextReady, same⟩ := addChunk_spec heap ready ((c :: net).take stop)
        have nextEnds : next.pending.getLast? = some last := by
          rw [same, getLast?_append, ends]
          rfl
        have shorter : ((c :: net).drop stop).length ≤ fuel := by
          rw [length_drop]
          simp only [length_cons] at enough ⊢
          omega
        have empty : newlineIn looking (pending { next with bufferPos := 0 }) = none := by
          cases looking <;> rfl
        obtain ⟨after, lines, ran, passed⟩ := ih shorter nextReady.cleared empty
          (by simp [pending])
        refine ⟨after, next.pending :: lines, ?_, passed.ready, ?_, passed.unfinished, ?_, nofun⟩
        · simp [added, convertAndSendBuffer_spec nextReady nextEnds isEnd, ran]
        · have joined : lines.flatten ++ after.pending = (c :: net).drop stop := passed.joined
          rw [flatten_cons, append_assoc, joined, same, append_assoc,
            take_append_drop]
        · intro nothing final finalEnds
          by_cases whole : stop = (c :: net).length
          · rw [whole, take_length] at ends
            rw [ends] at finalEnds
            cases finalEnds
            exact ender whole
          · apply passed.ended nothing
            have rest : (c :: net).drop stop ≠ [] := by
              rw [ne_eq, drop_eq_nil_iff]
              omega
            rw [← finalEnds]
            conv_rhs => rw [← take_append_drop stop (c :: net)]
            rw [getLast?_append_of_ne_nil _ rest]

/-- A waiting CR is shipped, or it still waits for its LF. -/
theorem shipOld_spec (platform : LineBreak) (ready : line.Ready looking)
    (unfinished : newlineIn looking line.pending = none) (net : List UInt8) :
    ∃ next old, line.shipOld platform net = some (next, old) ∧ next.Ready looking ∧
      newlineIn looking next.pending = none ∧ old.flatten ++ next.pending = line.pending ∧
      (next.pending.getLast? = some CR → net = [] ∨ net.head? = some LF) ∧
      (net = [] → next = line) := by
  rw [shipOld]
  by_cases ships : 0 < line.bufferPos ∧ line.buffer[line.bufferPos - 1]? = some CR ∧
      0 < net.length ∧ net.head? ≠ some LF
  · have ⟨positive, isCr, filled, _⟩ := ships
    have room : ¬ line.buffer.length ≤ line.bufferPos := by
      have := ready.room positive
      omega
    rw [← ready.last_pending positive] at isCr
    rw [if_pos ships, if_neg room, convertAndSendBuffer_spec ready isCr (.inr rfl)]
    have empty : newlineIn looking (pending { line with bufferPos := 0 }) = none := by
      cases looking <;> rfl
    exact ⟨{ line with bufferPos := 0 }, [line.pending], rfl, ready.cleared, empty,
      by simp [pending], by simp [pending], fun nothing => by simp [nothing] at filled⟩
  · rw [if_neg ships]
    refine ⟨line, [], rfl, ready, unfinished, rfl, ?_, fun _ => rfl⟩
    intro isCr
    by_contra neither
    have positive : 0 < line.bufferPos := by
      rw [← ready.length_pending]
      apply length_pos_iff.mpr
      rintro nothing
      rw [nothing] at isCr
      cases isCr
    rw [ready.last_pending positive] at isCr
    exact ships ⟨positive, isCr, length_pos_iff.mpr fun none => neither (.inl none),
      fun isLf => neither (.inr isLf)⟩

lemma bufferInput_spec (heap : Nat → UInt8) (platform) (ready : line.Ready looking)
    (unfinished : newlineIn looking line.pending = none) (net) :
    ∃ after lines, line.bufferInput heap platform net = some (after, lines) ∧
      Passed looking line after net lines := by
  obtain ⟨next, old, shipped, nextReady, nextUnfinished, kept, opened, waits⟩ :=
    shipOld_spec platform ready unfinished net
  obtain ⟨after, lines, ran, passed⟩ :=
    inputLoop_spec heap platform net.length (Nat.le_refl _) nextReady
      nextUnfinished opened
  refine ⟨after, old ++ lines, ?_, passed.ready, ?_, passed.unfinished, passed.ended,
    fun nothing => waits nothing ▸ passed.idle nothing⟩
  · simp [bufferInput, shipped, ran]
  · rw [flatten_append, append_assoc, passed.joined, ← kept, append_assoc]

/-- A run over all packets does with their bytes what a step does. -/
theorem inputAll_spec (heap : Nat → UInt8) (platform : LineBreak) (packets : List (List UInt8))
    (ready : line.Ready looking)
    (unfinished : newlineIn looking line.pending = none) :
    ∃ after lines, inputAll heap platform line packets = some (after, lines) ∧
      Passed looking line after packets.flatten lines := by
  induction packets generalizing line with
  | nil => exact ⟨line, [], by rw [inputAll], ready, by simp, unfinished, by simp, fun _ => rfl⟩
  | cons net packets ih =>
    obtain ⟨next, lines, stepped, passed⟩ := bufferInput_spec heap platform ready unfinished net
    obtain ⟨after, more, ran, others⟩ := ih passed.ready passed.unfinished
    refine ⟨after, lines ++ more, ?_, others.ready, ?_, others.unfinished, ?_, ?_⟩
    · simp [inputAll, stepped, ran]
    · rw [flatten_append, append_assoc, others.joined, ← append_assoc,
        passed.joined, append_assoc, flatten_cons]
    · intro nothing last ends
      rw [flatten_cons] at ends
      by_cases noMore : packets.flatten = []
      · rw [noMore, append_nil] at ends
        exact passed.ended ((others.idle noMore).symm.trans nothing) last ends
      · rw [getLast?_append_of_ne_nil _ noMore] at ends
        exact others.ended nothing last ends
    · intro none
      obtain ⟨noNet, noMore⟩ := append_eq_nil_iff.mp none
      exact (others.idle noMore).trans (passed.idle noNet)

lemma flushLastLine_length (line : MsgLineBuffer) :
    (line.flushLastLine heap).flatten.length = line.bufferPos - 1 := by
  by_cases several : 0 < line.bufferPos - 1
  · simp [flushLastLine, several]
  · simp [flushLastLine, several]
    omega

/-- Everything is handed over but what waits at the end, which the flush gives the handler
something else for. -/
theorem handled_spec (heap : Nat → UInt8) (platform : LineBreak) (looking : Bool)
    (packets : List (List UInt8)) :
    ∃ after lines,
      handled heap platform { convertNewlinesP := false, lookingForCRLF := looking } packets =
        some (lines ++ after.flushLastLine heap) ∧
      Passed looking { convertNewlinesP := false, lookingForCRLF := looking } after
        packets.flatten lines := by
  have ready : Ready looking { convertNewlinesP := false, lookingForCRLF := looking } :=
    ⟨rfl, rfl, fun positive => absurd positive (Nat.lt_irrefl 0)⟩
  have empty : newlineIn looking [] = none := by
    cases looking <;> rfl
  obtain ⟨after, lines, ran, passed⟩ := inputAll_spec heap platform packets ready empty
  exact ⟨after, lines, by simp [handled, ran], passed⟩

/-- The flush never makes up for bytes that wait. -/
theorem Passed.nothing_waits {after : MsgLineBuffer} {lines : List (List UInt8)}
    (passed : Passed looking { convertNewlinesP := false, lookingForCRLF := looking } after
      net lines) (whole : (lines ++ after.flushLastLine heap).flatten = net) :
    after.pending = [] := by
  have joined : lines.flatten ++ after.pending = net := passed.joined
  have lengths := congrArg List.length (whole.trans joined.symm)
  rw [flatten_append, length_append, length_append, flushLastLine_length,
    ← passed.ready.length_pending] at lengths
  apply eq_nil_of_length_eq_zero
  omega

/-- A stream is handed over whole exactly when nothing waits at its end: the flush reads from
behind the waiting bytes, and one byte too few. -/
theorem handled_whole_iff (heap : Nat → UInt8) (platform : LineBreak) (looking : Bool)
    (packets : List (List UInt8)) :
    (∃ lines, handled heap platform { convertNewlinesP := false, lookingForCRLF := looking }
        packets = some lines ∧ lines.flatten = packets.flatten) ↔
      ∀ last, packets.flatten.getLast? = some last →
        last = LF ∨ looking = false ∧ last = CR := by
  obtain ⟨after, lines, all, passed⟩ := handled_spec heap platform looking packets
  have joined : lines.flatten ++ after.pending = packets.flatten := passed.joined
  rw [all]
  constructor
  · rintro ⟨_, ⟨⟩, whole⟩
    exact passed.ended (passed.nothing_waits whole)
  · intro ends
    have nothing : after.pending = [] := by
      by_contra filled
      have isLast := getLast?_eq_some_getLast filled
      apply newlineIn_last passed.unfinished isLast
      apply ends
      rw [← joined, getLast?_append_of_ne_nil _ filled, isLast]
    have flushed : (after.flushLastLine heap).flatten = [] := by
      apply eq_nil_of_length_eq_zero
      rw [flushLastLine_length, ← passed.ready.length_pending, nothing]
      rfl
    refine ⟨_, rfl, ?_⟩
    rw [flatten_append, flushed, append_nil, ← joined, nothing, append_nil]

/-- A stream of one letter. -/
theorem handled_unterminated :
    ¬ ∀ (heap : Nat → UInt8) (platform : LineBreak) (looking : Bool)
      (packets : List (List UInt8)),
      ∃ lines, handled heap platform { convertNewlinesP := false, lookingForCRLF := looking }
        packets = some lines ∧ lines.flatten = packets.flatten := by
  intro always
  obtain ⟨lines, ran, whole⟩ := always (fun _ => 0) .lf true [[65]]
  obtain ⟨after, sent, all, passed⟩ := handled_spec (fun _ => 0) .lf true [[65]]
  cases all.symm.trans ran
  have ends := passed.ended (passed.nothing_waits whole) 65 rfl
  exact absurd ends (by decide)

end Handled

end MsgLineBuffer

end CommCentral.Base
