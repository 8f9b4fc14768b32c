import CommCentral.Base.LineStreamRun

/-! The retrieval of a message from a POP3 server, which gives its lines to the sink. -/
namespace CommCentral.Pop3
open Base Lib List

/-- A call of the sink. It succeeds. -/
inductive SinkCall where
  | setSenderAuthedFlag
  | incorporateWrite (line : List UInt8)
  | incorporateComplete
  deriving DecidableEq

/-- What the protocol knows while it reads a message. `inLoop` says that the present call of
`RetrResponse` has read a line. -/
structure Pop3Protocol where
  lineStreamBuffer : LineStreamBuffer
  unread : List UInt8 := []
  msgClosure : Bool := true
  senderInfo : List UInt8 := []
  seenFromHeader : Bool := false
  dotFix : Bool := false
  truncatingCurMsg : Bool := false
  assumedEnd : Bool := false
  parsedBytes : Int := 0
  pop3Size : Int := 0
  inLoop : Bool := false
  calls : List SinkCall := []

def dot : UInt8 := 46

/-- `PL_strncasecmp("From: ", line, 6)` finds no difference. -/
def startsWithFrom (line : List UInt8) : Bool :=
  (line.take 6).map (fun c => if 65 ≤ c ∧ c ≤ 90 then c + 32 else c) == [102, 114, 111, 109, 58, 32]

namespace Pop3Protocol

variable (protocol : Pop3Protocol)

def call (sinkCall : SinkCall) : Pop3Protocol :=
  { protocol with calls := protocol.calls ++ [sinkCall] }

/-- The first part of `HandleLine`, about the sender. -/
def checkSender (line : List UInt8) : Pop3Protocol :=
  if protocol.senderInfo ≠ [] ∧ protocol.seenFromHeader = false ∧ 6 < line.length ∧
      startsWithFrom line then
    let seen := { protocol with seenFromHeader := true }
    if line.tails.any protocol.senderInfo.isPrefixOf then seen else seen.call .setSenderAuthedFlag
  else protocol

/-- The rest of `HandleLine`. -/
def storeLine (line : List UInt8) : Pop3Protocol :=
  if line.length = 1 + lineBreak.length ∧ line.head? = some dot then
    let ended := { protocol with assumedEnd := true }
    if protocol.dotFix = false ∨ protocol.truncatingCurMsg ∨
        protocol.pop3Size - 3 ≤ protocol.parsedBytes then
      { ended.call .incorporateComplete with msgClosure := false }
    else ended.call (.incorporateWrite line)
  else if 1 < line.length ∧ line.head? = some dot ∧ line.tail.head? = some dot then
    protocol.call (.incorporateWrite line.tail)
  else protocol.call (.incorporateWrite line)

def handleLine (line : List UInt8) : Pop3Protocol := (protocol.checkSender line).storeLine line

/-- One turn of the loop of `RetrResponse`, or a call that reads no line. The counters of the
progress are left out. -/
def retrTurn (delivery : Delivery) : Option Pop3Protocol :=
  (protocol.lineStreamBuffer.readNextLine (some delivery.stream)
    (protocol.unread ++ delivery.arrived) true).map fun result =>
      let after := { protocol with lineStreamBuffer := result.buffer, unread := result.unread }
      match result.line with
      | some line =>
        if after.msgClosure then
          let handled := after.handleLine line
          { handled with
            parsedBytes := handled.parsedBytes + result.numBytesInLine - lineBreak.length + 2
            inLoop := true }
        else { after with inLoop := true }
      | none =>
        if after.inLoop ∧ result.pauseForMoreData ∧ after.dotFix ∧ after.assumedEnd ∧
            after.msgClosure then
          { after.call .incorporateComplete with msgClosure := false, inLoop := false }
        else { after with inLoop := false }

/-- What the sink has stored. -/
def stored : List SinkCall := protocol.calls.filter (· ≠ .setSenderAuthedFlag)

end Pop3Protocol

/-- A line with a dot in front of its own one. -/
def stuffed (line : List UInt8) : List UInt8 := if line.head? = some dot then dot :: line else line

/-- What the server sends for a message. -/
def sent (lines : List (List UInt8)) : List UInt8 :=
  lines.flatMap (fun line => stuffed line ++ [13, 10]) ++ [dot, 13, 10]

/-- The calls that store a message. -/
def storing (lines : List (List UInt8)) : List SinkCall :=
  lines.map (fun line => .incorporateWrite (line ++ lineBreak)) ++ [.incorporateComplete]

section Terminated

/-- What a call returns that puts a line break behind the line. -/
def terminated (result : LineResult) : LineResult :=
  { result with
    line := result.line.map (· ++ lineBreak)
    numBytesInLine := (result.line.map fun line => (line ++ lineBreak).length).getD
      result.numBytesInLine }

variable (buffer : LineStreamBuffer) (unread : List UInt8)

lemma finishLine_terminated (endOfLine) :
    buffer.finishLine true unread endOfLine =
      (buffer.finishLine false unread endOfLine).map terminated := by
  cases endOfLine with
  | none => rfl
  | some endOfLine =>
    simp only [LineStreamBuffer.finishLine, LineStreamBuffer.takeLine, Option.bind_eq_bind,
      Option.map_bind]
    congr 1
    funext numBytesInLine
    simp only [Function.comp_apply, Option.map_bind]
    congr 1

lemma readFrom_terminated (stream) :
    buffer.readFrom stream unread true = (buffer.readFrom stream unread false).map terminated := by
  unfold LineStreamBuffer.readFrom
  cases stream.available with
  | none => rfl
  | some available =>
    simp only [Option.bind_eq_bind, Option.map_bind]
    congr 1
    funext room
    rcases room with ⟨roomy, _ | free⟩
    · rfl
    · simp only [Function.comp_apply, Option.map_bind]
      congr 1
      funext read
      exact finishLine_terminated _ _ _

lemma readNextLine_terminated (stream) :
    buffer.readNextLine stream unread true =
      (buffer.readNextLine stream unread false).map terminated := by
  unfold LineStreamBuffer.readNextLine
  simp only [Option.bind_eq_bind, Option.map_bind]
  congr 1
  funext endOfLine
  cases endOfLine with
  | none =>
    cases stream with
    | none => rfl
    | some stream => exact readFrom_terminated _ _ _
  | some endOfLine => exact finishLine_terminated _ _ _

end Terminated

section Text

lemma linesOf_stuffed {line : List UInt8} (plain : ∀ c ∈ line, c ≠ 10) (later) :
    linesOf (stuffed line ++ [13, 10] ++ later) = stuffed line :: linesOf later := by
  have noFeed : (10 : UInt8) ∉ stuffed line ++ [13] := by
    intro mem
    rw [stuffed] at mem
    split at mem <;> simp [dot] at mem <;> exact plain 10 mem rfl
  have ended : linesOf _ = LineStreamBuffer.lineText ([] ++ _) :: linesOf later :=
    linesFrom_ended noFeed
  rw [nil_append, LineStreamBuffer.lineText_concat, if_pos rfl] at ended
  rw [← ended, append_assoc, append_assoc]
  rfl

lemma linesOf_sent {lines : List (List UInt8)} (plain : ∀ line ∈ lines, ∀ c ∈ line, c ≠ 10)
    (later) :
    linesOf (sent lines ++ later) = lines.map stuffed ++ [dot] :: linesOf later := by
  induction lines with
  | nil => rfl
  | cons line rest ih =>
    have first := linesOf_stuffed (plain line mem_cons_self) (sent rest ++ later)
    rw [ih fun other mem => plain other (mem_cons_of_mem _ mem)] at first
    rw [map_cons, cons_append, ← first]
    simp only [sent, flatMap_cons, append_assoc]

/-- The calls for the lines that were read. Lines behind the one with the dot are not stored. -/
def storedFor : List (List UInt8) → List SinkCall
  | [] => []
  | line :: rest =>
    if line = [dot] then [.incorporateComplete]
    else .incorporateWrite ((if line.take 2 = [dot, dot] then line.tail else line) ++ lineBreak) ::
      storedFor rest

lemma unstuffed (line) : stuffed line ≠ [dot] ∧
    (if (stuffed line).take 2 = [dot, dot] then (stuffed line).tail else stuffed line) = line := by
  rw [stuffed]
  cases line with
  | nil => simp
  | cons first rest =>
    by_cases isDot : first = dot
    · simp [isDot]
    · simp [isDot]

lemma storedFor_take (lines later) (count : Nat) :
    storedFor ((lines.map stuffed ++ [dot] :: later).take count) = (storing lines).take count := by
  induction lines generalizing count with
  | nil =>
    cases count with
    | zero => rfl
    | succ count =>
      rw [map_nil, nil_append, take_succ_cons, storedFor, if_pos rfl]
      simp [storing]
  | cons line rest ih =>
    cases count with
    | zero => rfl
    | succ count =>
      obtain ⟨other, same⟩ := unstuffed line
      rw [map_cons, cons_append, take_succ_cons, storedFor, if_neg other, same, ih]
      rfl

end Text

/-- The protocol has handled the lines that a reading of its stream has returned. -/
structure Follows (reading : Reading) (protocol : Pop3Protocol) : Prop where
  buffer : reading.buffer = protocol.lineStreamBuffer
  unread : reading.unread = protocol.unread
  dotFix : protocol.dotFix = false
  closure : protocol.msgClosure = true ↔ [dot] ∉ reading.lines.map Prod.fst
  stored : protocol.stored = storedFor (reading.lines.map Prod.fst)

lemma storedFor_concat {lines : List (List UInt8)} (noDot : [dot] ∉ lines) (line) :
    storedFor (lines ++ [line]) = storedFor lines ++ storedFor [line] := by
  induction lines with
  | nil => rfl
  | cons first rest ih =>
    simp only [mem_cons, not_or] at noDot
    rw [cons_append, storedFor, if_neg (Ne.symm noDot.1), storedFor, if_neg (Ne.symm noDot.1),
      ih noDot.2]
    rfl

lemma storedFor_ended {lines : List (List UInt8)} (ended : [dot] ∈ lines) (line) :
    storedFor (lines ++ [line]) = storedFor lines := by
  induction lines with
  | nil => cases ended
  | cons first rest ih =>
    rw [cons_append, storedFor, storedFor]
    split
    · rfl
    · rename_i other
      rw [ih ((mem_cons.mp ended).resolve_left (Ne.symm other))]

lemma Follows.checkSender (follows : Follows reading protocol) (line : List UInt8) :
    Follows reading (protocol.checkSender line) := by
  unfold Pop3Protocol.checkSender
  split
  · dsimp only
    split
    · exact { follows with }
    · refine { follows with stored := ?_ }
      simpa [Pop3Protocol.stored, Pop3Protocol.call] using follows.stored
  · exact follows

lemma storeLine_eq {protocol : Pop3Protocol} (noFix : protocol.dotFix = false) (line) :
    protocol.storeLine (line ++ lineBreak) =
      if line = [dot] then
        { ({ protocol with assumedEnd := true } : Pop3Protocol).call .incorporateComplete with
          msgClosure := false }
      else protocol.call (.incorporateWrite
        ((if line.take 2 = [dot, dot] then line.tail else line) ++ lineBreak)) := by
  unfold Pop3Protocol.storeLine
  match line with
  | [] => rfl
  | [c] =>
    by_cases isDot : c = dot
    · simp [isDot, noFix, lineBreak]
    · simp [isDot, lineBreak]
  | c :: d :: rest =>
    by_cases isDot : c = dot ∧ d = dot
    · simp [isDot, lineBreak]
    · simp [isDot, lineBreak]

lemma Follows.handleLine (follows : Follows reading protocol) (open_ : protocol.msgClosure = true)
    (line : List UInt8) (count : Nat) :
    Follows { reading with lines := reading.lines ++ [(line, count)] }
      (protocol.handleLine (line ++ lineBreak)) := by
  have checked := follows.checkSender (line ++ lineBreak)
  have noDot := follows.closure.mp open_
  have stored := checked.stored
  have stores : storedFor ((reading.lines ++ [(line, count)]).map Prod.fst) =
      storedFor (reading.lines.map Prod.fst) ++ storedFor [line] := by
    rw [map_append]
    exact storedFor_concat noDot line
  rw [Pop3Protocol.handleLine, storeLine_eq checked.dotFix]
  split
  · rename_i isDot
    refine ⟨checked.buffer, checked.unread, checked.dotFix, iff_of_false Bool.false_ne_true ?_, ?_⟩
    · simp [isDot]
    · rw [stores, ← stored, isDot]
      exact filter_append _ _
  · rename_i other
    refine ⟨checked.buffer, checked.unread, checked.dotFix, ?_, ?_⟩
    · exact iff_of_true (checked.closure.mpr noDot) (by simpa [noDot] using Ne.symm other)
    · rw [stores, ← stored, storedFor, if_neg other]
      exact filter_append _ _

/-- A turn of the loop handles the line that the reading returns. -/
theorem Follows.retrTurn (follows : Follows reading protocol) {after : Reading}
    (called : reading.call delivery = some after) :
    ∃ next, protocol.retrTurn delivery = some next ∧ Follows after next := by
  obtain ⟨result, reads, rfl⟩ := Option.map_eq_some_iff.mp called
  rw [follows.buffer, follows.unread] at reads
  rw [Pop3Protocol.retrTurn, readNextLine_terminated, reads]
  refine ⟨_, rfl, ?_⟩
  cases isLine : result.line with
  | none =>
    simp only [terminated, isLine, Option.map_none]
    rw [if_neg fun ended => Bool.false_ne_true (follows.dotFix.symm.trans ended.2.2.1)]
    refine ⟨rfl, rfl, follows.dotFix, ?_, ?_⟩
    · simpa using follows.closure
    · rw [Option.toList_none, append_nil]
      exact follows.stored
  | some line =>
    simp only [terminated, isLine, Option.map_some]
    let later : Pop3Protocol :=
      { protocol with lineStreamBuffer := result.buffer, unread := result.unread }
    have begun : Follows { reading with buffer := result.buffer, unread := result.unread } later :=
      ⟨rfl, rfl, follows.dotFix, follows.closure, follows.stored⟩
    split
    · rename_i open_
      have handled := begun.handleLine open_ line result.numBytesInLine
      exact ⟨handled.buffer, handled.unread, handled.dotFix, handled.closure, handled.stored⟩
    · rename_i closed
      have ended := not_not.mp (mt follows.closure.mpr closed)
      have lines : (reading.lines ++ [(line, result.numBytesInLine)]).map Prod.fst =
          reading.lines.map Prod.fst ++ [line] := map_append
      refine ⟨rfl, rfl, follows.dotFix, iff_of_false closed ?_, ?_⟩
      · simp only [Option.toList_some, lines, not_not]
        exact mem_append_left _ ended
      · simp only [Option.toList_some, lines]
        rw [storedFor_ended ended]
        exact follows.stored

lemma Follows.run {deliveries : List Delivery} (follows : Follows reading protocol)
    {last : Reading} (runs : runSome Reading.call reading deliveries = some last) :
    ∃ final, runSome Pop3Protocol.retrTurn protocol deliveries = some final ∧
      Follows last final := by
  induction deliveries generalizing reading protocol with
  | nil =>
    cases runs
    exact ⟨protocol, rfl, follows⟩
  | cons delivery rest ih =>
    rw [runSome] at runs
    obtain ⟨next, called, runs⟩ := Option.bind_eq_some_iff.mp runs
    obtain ⟨turned, turns, nextFollows⟩ := follows.retrTurn called
    obtain ⟨final, ran, lastFollows⟩ := ih nextFollows runs
    refine ⟨final, ?_, lastFollows⟩
    rw [runSome, turns]
    exact ran

section Stored

variable {lines : List (List UInt8)} (plain : ∀ line ∈ lines, ∀ c ∈ line, c ≠ 0 ∧ c ≠ 10)
include plain

lemma sent_noNull : (sent lines).map spaceForNull = sent lines := by
  have noNull : ∀ c ∈ sent lines, c ≠ 0 := by
    intro c mem
    rcases mem_append.mp mem with inLines | inEnd
    · obtain ⟨line, isLine, inLine⟩ := mem_flatMap.mp inLines
      have others := plain line isLine
      rw [stuffed] at inLine
      split at inLine <;> simp [dot] at inLine <;> grind
    · simp [dot] at inEnd
      grind
  exact (map_congr_left fun c mem => if_neg (noNull c mem)).trans (map_id' _)

lemma Follows.stored_eq {reading : Reading} {coming later : List UInt8}
    (follows : Follows reading protocol) (sound : reading.Sound window)
    (text : reading.received ++ coming = sent lines ++ later) :
    protocol.stored = (storing lines).take reading.lines.length := by
  obtain ⟨consumed, all, taken⟩ := sound.split
  have whole := congrArg (fun text => linesOf (text.map spaceForNull)) text
  simp only [map_append, sent_noNull plain, all, append_assoc, taken,
    linesOf_sent fun line mem c inLine => (plain line mem c inLine).2] at whole
  have first := congrArg (take reading.lines.length) whole
  rw [take_left' (length_map _)] at first
  rw [follows.stored, first]
  exact storedFor_take _ _ _

end Stored

/-- After a successful response, the sink gets the lines of the message as they were before dots
were put in front of them, in order and each once, and then the end, as far as the lines have been
read. Every further line that has arrived is read unless bytes are left in the stream or are too
many for the buffer. -/
theorem retrResponse_stores {lines : List (List UInt8)}
    (plain : ∀ line ∈ lines, ∀ c ∈ line, c ≠ 0 ∧ c ≠ 10) {protocol : Pop3Protocol}
    {before window after : List UInt8}
    (holds : protocol.lineStreamBuffer.Holds before window after)
    (begins : protocol.msgClosure = true ∧ protocol.dotFix = false ∧ protocol.calls = [])
    {deliveries : List Delivery} (allowed : ∀ delivery ∈ deliveries, delivery.NonBlocking)
    {coming later : List UInt8} (arrives : window ++ protocol.unread ++
      deliveries.flatMap Delivery.arrived ++ coming = sent lines ++ later) :
    ∃ last handled, runSome Pop3Protocol.retrTurn protocol deliveries = some last ∧
      last.stored = (storing lines).take handled ∧
      ∀ delivery : Delivery, delivery.NonBlocking → delivery.arrived <+: coming →
        delivery.Whole last.unread → ¬ delivery.TooLarge last.lineStreamBuffer →
        handled < (linesOf ((window ++ protocol.unread ++ deliveries.flatMap Delivery.arrived ++
          delivery.arrived).map spaceForNull)).length →
        ∃ next, last.retrTurn delivery = some next ∧
          next.stored = (storing lines).take (handled + 1) := by
  let start : Reading :=
    { buffer := protocol.lineStreamBuffer
      unread := protocol.unread
      received := window ++ protocol.unread }
  have noNull : window.map spaceForNull = window := by
    refine (map_congr_left fun c mem => if_neg ?_).trans (map_id' _)
    exact fun isNull => holds.noNull (isNull ▸ mem)
  have sound : start.Sound window := by
    refine ⟨⟨before, after, holds⟩, ⟨[], ?_, fun _ => rfl⟩, nofun⟩
    rw [nil_append, map_append, noNull]
  have follows : Follows start protocol := by
    refine ⟨rfl, rfl, begins.2.1, iff_of_true begins.1 not_mem_nil, ?_⟩
    rw [Pop3Protocol.stored, begins.2.2]
    rfl
  obtain ⟨final, window', runs, finalSound, received⟩ := Reading.run_sound sound allowed
  obtain ⟨last, ran, lastFollows⟩ := follows.run runs
  rw [← received] at arrives
  refine ⟨last, final.lines.length, ran, lastFollows.stored_eq plain finalSound arrives, ?_⟩
  rintro delivery nonBlocking ⟨coming', rfl⟩ whole small fewer
  obtain ⟨next, window'', called, nextSound, nextReceived, result⟩ := finalSound.call nonBlocking
  obtain ⟨turned, turns, turnedFollows⟩ := lastFollows.retrTurn called
  have stored := turnedFollows.stored_eq plain nextSound
    (by rw [nextReceived, append_assoc, arrives])
  refine ⟨turned, turns, ?_⟩
  rcases result with ⟨line, rest, -, more⟩ | ⟨-, none⟩
  · rw [stored, more, length_append, length_singleton]
  · rw [← received, finalSound.pending,
      none (lastFollows.unread ▸ whole) (lastFollows.buffer ▸ small)] at fewer
    simp at fewer

/-- The buffer of the protocol is `OUTPUT_BUFFER_SIZE` bytes large. -/
def fresh : Pop3Protocol := { lineStreamBuffer := .create 8192 }

/-- Two lines, of two dots and empty, in packets that cut the line ends. -/
def cutPackets : List Delivery :=
  [wholeChunk [46, 46, 46, 13], wholeChunk [10, 13], wholeChunk [10, 46, 13, 10]]

theorem retrResponse_stores_dots : ∃ last handled,
    runSome Pop3Protocol.retrTurn fresh cutPackets = some last ∧
      last.stored = (storing [[46, 46], []]).take handled := by
  have plain : ∀ line ∈ [[46, 46], []], ∀ c ∈ line, (c : UInt8) ≠ 0 ∧ c ≠ 10 := by
    decide
  have holds : fresh.lineStreamBuffer.Holds [] [] (List.replicate 8192 0) :=
    LineStreamBuffer.create_holds (by decide) (by decide)
  have allowed : ∀ delivery ∈ cutPackets, delivery.NonBlocking := by
    simp only [cutPackets, forall_mem_cons]
    exact ⟨⟨rfl, 4, by decide, rfl⟩, ⟨rfl, 2, by decide, rfl⟩, ⟨rfl, 4, by decide, rfl⟩, nofun⟩
  have arrives : [] ++ fresh.unread ++ cutPackets.flatMap Delivery.arrived ++ [] =
      sent [[46, 46], []] ++ [] := rfl
  obtain ⟨last, handled, runs, stored, -⟩ :=
    retrResponse_stores plain holds ⟨rfl, rfl, rfl⟩ allowed arrives
  exact ⟨last, handled, runs, stored⟩

/-- A message that arrives in one packet of 2³² bytes is left in the stream. -/
theorem retrResponse_leaves_packet : ∃ lines, (∀ line ∈ lines, ∀ c ∈ line, c ≠ 0 ∧ c ≠ 10) ∧
    ∃ last, fresh.retrTurn (wholeChunk (sent lines)) = some last ∧ last.unread = sent lines ∧
      last.stored = [] := by
  have long (length : Nat) : ∃ line : List UInt8, line.length = length ∧ ∀ c ∈ line, c = 65 :=
    ⟨List.replicate length 65, length_replicate, fun c => eq_of_mem_replicate⟩
  obtain ⟨line, length, letters⟩ := long (2 ^ 32 - 5)
  have size : (sent [line]).length = 2 ^ 32 := by
    have noDot : line.head? ≠ some dot := fun isDot =>
      absurd (letters dot (mem_of_mem_head? isDot)) (by decide)
    simp [sent, stuffed, noDot, length]
  refine ⟨[line], ?_, ?_⟩
  · simp only [forall_mem_singleton]
    exact fun c mem => letters c mem ▸ by decide
  have holds : fresh.lineStreamBuffer.Holds [] [] (List.replicate 8192 0) :=
    LineStreamBuffer.create_holds (by decide) (by decide)
  have begins : fresh.dotFix = false ∧ fresh.calls = [] ∧ fresh.unread = [] := ⟨rfl, rfl, rfl⟩
  generalize fresh = protocol at holds begins
  obtain ⟨roomy, before', after', roomyHolds, result⟩ :=
    holds.makeRoom (fun _ => 0) (by decide : 2 ^ 32 < 2 ^ 62)
  have room := roomyHolds.size_eq
  have bound := roomyHolds.small
  have tooMany := (result.resolve_right fun fits => by omega).2
  have reads : protocol.lineStreamBuffer.readNextLine (some (wholeChunk (sent [line])).stream)
      (sent [line]) true = some { buffer := roomy, unread := sent [line] } := by
    have empty : protocol.lineStreamBuffer.endOfFirstLine = some none :=
      if_neg (by simp [holds.count])
    rw [LineStreamBuffer.readNextLine, empty]
    change protocol.lineStreamBuffer.readFrom (wholeChunk (sent [line])).stream _ true = _
    rw [LineStreamBuffer.readFrom, wholeChunk, size]
    dsimp only
    rw [if_neg fun blocking => Bool.noConfusion blocking.1, tooMany]
    rfl
  rw [Pop3Protocol.retrTurn, begins.2.2, nil_append]
  change ∃ last, (protocol.lineStreamBuffer.readNextLine _ (sent [line]) true).map _ = _ ∧ _
  rw [reads]
  refine ⟨_, rfl, ?_⟩
  dsimp only
  rw [if_neg fun ended => Bool.false_ne_true (begins.1.symm.trans ended.2.2.1)]
  exact ⟨rfl, congrArg (filter _) begins.2.1⟩

end CommCentral.Pop3
