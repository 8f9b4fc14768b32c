import CommCentral.Base.LineStreamSpec
import CommCentral.Lib.Run

/-! The lines of a stream are delivered in order, however its bytes arrive. -/
namespace CommCentral.Base

open Lib List
open LineStreamBuffer (lineText Delivers TooMany)

/-- The lines of a text that end with LF, after the start of the first one. -/
def linesFrom (line : List UInt8) : List UInt8 → List (List UInt8)
  | [] => []
  | byte :: rest =>
    if byte = 10 then lineText line :: linesFrom [] rest else linesFrom (line ++ [byte]) rest

/-- The lines of a text that end with LF. What follows the last LF is no line yet. -/
abbrev linesOf (text : List UInt8) : List (List UInt8) := linesFrom [] text

section

variable {text early late line : List UInt8}

lemma linesFrom_ended (first : (10 : UInt8) ∉ early) :
    linesFrom line (early ++ 10 :: late) = lineText (line ++ early) :: linesOf late := by
  induction early generalizing line with
  | nil => exact (if_pos rfl).trans (by rw [append_nil])
  | cons byte rest ih =>
    have other : byte ≠ 10 := fun same => first (same ▸ mem_cons_self)
    rw [cons_append, linesFrom, if_neg other,
      ih fun mem => first (mem_cons_of_mem _ mem), append_assoc]
    rfl

lemma linesFrom_open (missing : (10 : UInt8) ∉ text) : linesFrom line text = [] := by
  induction text generalizing line with
  | nil => rfl
  | cons byte rest ih =>
    have other : byte ≠ 10 := fun same => missing (same ▸ mem_cons_self)
    rw [linesFrom, if_neg other]
    exact ih fun mem => missing (mem_cons_of_mem _ mem)

end

/-- What happens in one call: bytes that arrive before it, and what the stream does with them. -/
structure Delivery where
  arrived : List UInt8
  stream : InputStream

/-- The stream does not block, and fewer than 2⁶² bytes are available at a time. -/
def Delivery.NonBlocking (delivery : Delivery) : Prop :=
  delivery.stream.nonBlocking = true ∧
    ∃ available < 2 ^ 62, delivery.stream.available = some available

/-- All bytes that are in the stream are available and copied if there is room for them. -/
def Delivery.Whole (delivery : Delivery) (unread : List UInt8) : Prop :=
  ∃ available, delivery.stream.available = some available ∧
    (unread ++ delivery.arrived).length ≤ available ∧
    (unread ++ delivery.arrived).length ≤ delivery.stream.copied

/-- The bytes that are available are too many for a buffer of 4 GB. -/
def Delivery.TooLarge (delivery : Delivery) (buffer : LineStreamBuffer) : Prop :=
  ∃ available, delivery.stream.available = some available ∧ buffer.TooMany available

/-- A buffer that reads a stream, with all bytes that arrived so far and the lines returned, each
with the number of its bytes. -/
structure Reading where
  buffer : LineStreamBuffer
  unread : List UInt8 := []
  received : List UInt8 := []
  lines : List (List UInt8 × Nat) := []

namespace Reading

def start (bufferSize : Nat) : Reading := { buffer := LineStreamBuffer.create bufferSize }

def call (reading : Reading) (delivery : Delivery) : Option Reading :=
  (reading.buffer.readNextLine (some delivery.stream) (reading.unread ++ delivery.arrived)
    false).map fun result =>
      { buffer := result.buffer
        unread := result.unread
        received := reading.received ++ delivery.arrived
        lines := reading.lines ++
          (result.line.map fun line => (line, result.numBytesInLine)).toList }

/-- The lines returned are the first ones of the bytes that arrived. The others are in the
buffer and the stream. -/
structure Sound (reading : Reading) (window : List UInt8) : Prop where
  holds : ∃ before after, reading.buffer.Holds before window after
  split : ∃ consumed, reading.received.map spaceForNull =
      consumed ++ (window ++ reading.unread.map spaceForNull) ∧
    ∀ text, linesOf (consumed ++ text) = reading.lines.map Prod.fst ++ linesOf text
  counted : ∀ line ∈ reading.lines, line.2 = line.1.length

variable {reading : Reading}

lemma start_sound (some : 1 ≤ bufferSize) (small : bufferSize < 2 ^ 32) :
    (start bufferSize).Sound [] := by
  refine ⟨⟨[], _, LineStreamBuffer.create_holds some small⟩, ⟨[], rfl, fun _ => rfl⟩, ?_⟩
  intro line mem
  cases mem

lemma Sound.pending (sound : reading.Sound window) (arrived) :
    linesOf ((reading.received ++ arrived).map spaceForNull) = reading.lines.map Prod.fst ++
      linesOf (window ++ (reading.unread ++ arrived).map spaceForNull) := by
  obtain ⟨consumed, received, lines⟩ := sound.split
  rw [map_append, received, append_assoc, lines, append_assoc, ← map_append]

/-- A call returns the first line that has arrived and is not returned yet. It returns none if
there is none, if bytes are left in the stream or if they are too many for the buffer. -/
theorem Sound.call (sound : reading.Sound window) (allowed : delivery.NonBlocking) :
    ∃ after window', reading.call delivery = some after ∧ after.Sound window' ∧
      after.received = reading.received ++ delivery.arrived ∧
      ((∃ line rest, linesOf (window ++ (reading.unread ++ delivery.arrived).map spaceForNull) =
          line :: rest ∧ after.lines = reading.lines ++ [(line, line.length)]) ∨
        after.lines = reading.lines ∧ (delivery.Whole reading.unread →
          ¬ delivery.TooLarge reading.buffer →
            linesOf (window ++ (reading.unread ++ delivery.arrived).map spaceForNull) = [])) := by
  obtain ⟨nonBlocking, available, small, isAvailable⟩ := allowed
  obtain ⟨before, memory, holds⟩ := sound.holds
  obtain ⟨result, window', taken, before', after', reads, delivers, resultHolds, all⟩ :=
    holds.readNextLine delivery.stream (reading.unread ++ delivery.arrived) nonBlocking isAvailable
      small
  obtain ⟨consumed, received, lines⟩ := sound.split
  have unread := delivers.unread_eq
  have arrived : (reading.received ++ delivery.arrived).map spaceForNull =
      consumed ++ (window ++ taken.map spaceForNull ++ result.unread.map spaceForNull) := by
    rw [map_append, received, append_assoc, append_assoc, ← map_append, unread,
      map_append, ← append_assoc window]
  rw [Reading.call, reads, unread, map_append, ← append_assoc]
  rcases delivers.line_eq with ⟨early, ended, first, isLine, count⟩ | ⟨missing, same, noLine⟩
  · rw [ended, append_assoc, cons_append, linesOf, linesFrom_ended first]
    refine ⟨_, window', rfl, ⟨⟨before', after', resultHolds⟩, ?_, ?_⟩, rfl,
      .inl ⟨_, _, rfl, ?_⟩⟩
    · refine ⟨consumed ++ early ++ [10], ?_, ?_⟩
      · change (reading.received ++ delivery.arrived).map spaceForNull = _
        rw [arrived, ended]
        simp only [append_assoc]
        rfl
      · intro text
        change _ = (reading.lines ++ (result.line.map _).toList).map Prod.fst ++ _
        rw [append_assoc, append_assoc, lines, isLine]
        change _ ++ linesFrom [] (early ++ 10 :: text) = _
        rw [linesFrom_ended first, map_append, append_assoc]
        rfl
    · intro line mem
      change line ∈ reading.lines ++ (result.line.map _).toList at mem
      rw [isLine] at mem
      rcases mem_append.mp mem with old | new
      · exact sound.counted line old
      · rw [mem_singleton.mp new]
        exact count
    · change reading.lines ++ (result.line.map _).toList = _
      rw [isLine, count]
      rfl
  · have sameLines : reading.lines ++ (result.line.map fun line =>
        (line, result.numBytesInLine)).toList = reading.lines := by
      rw [noLine]
      exact append_nil _
    refine ⟨_, window', rfl, ⟨⟨before', after', resultHolds⟩, ⟨consumed, ?_, ?_⟩, ?_⟩, rfl,
      .inr ⟨sameLines, ?_⟩⟩
    · change (reading.received ++ delivery.arrived).map spaceForNull = _
      rw [arrived, same]
    · intro text
      change _ = (reading.lines ++ _).map Prod.fst ++ _
      rw [sameLines]
      exact lines text
    · intro line mem
      change line ∈ reading.lines ++ _ at mem
      rw [sameLines] at mem
      exact sound.counted line mem
    · rintro ⟨available', isAvailable', enough, copied⟩ notTooLarge
      cases isAvailable.symm.trans isAvailable'
      rcases all with inWindow | tooMany | whole
      · exact absurd (mem_append_left _ inWindow) missing
      · exact absurd ⟨available, isAvailable, tooMany⟩ notTooLarge
      · rw [take_of_length_le (Nat.le_min.mpr ⟨enough, copied⟩), unread] at whole
        have none : result.unread = [] := self_eq_append_right.mp whole
        rw [none, map_nil, append_nil]
        exact linesFrom_open missing

lemma run_sound (sound : reading.Sound window)
    (allowed : ∀ delivery ∈ deliveries, delivery.NonBlocking) :
    ∃ last window', runSome Reading.call reading deliveries = some last ∧ last.Sound window' ∧
      last.received = reading.received ++ deliveries.flatMap Delivery.arrived := by
  induction deliveries generalizing reading window with
  | nil => exact ⟨reading, window, rfl, sound, (append_nil _).symm⟩
  | cons delivery rest ih =>
    obtain ⟨after, window', called, afterSound, received, -⟩ :=
      sound.call (allowed delivery mem_cons_self)
    obtain ⟨last, window'', runs, lastSound, all⟩ :=
      ih afterSound fun later mem => allowed later (mem_cons_of_mem _ mem)
    rw [runSome, called]
    refine ⟨last, window'', runs, lastSound, ?_⟩
    rw [all, received, append_assoc]
    rfl

end Reading

/-- The lines of a stream are returned in order, each with the number of its bytes, in every run
in which bytes arrive in any way, and all memory accesses are inside the buffer. A further call
returns the next line if it has arrived, unless bytes are left in the stream or are too many for
the buffer. -/
theorem lines_delivered (bufferSize : Nat) (some : 1 ≤ bufferSize) (small : bufferSize < 2 ^ 32)
    {deliveries : List Delivery} (allowed : ∀ delivery ∈ deliveries, delivery.NonBlocking) :
    ∃ reading, runSome Reading.call (Reading.start bufferSize) deliveries = Option.some reading ∧
      reading.received = deliveries.flatMap Delivery.arrived ∧
      reading.lines.map Prod.fst <+: linesOf (reading.received.map spaceForNull) ∧
      (∀ line ∈ reading.lines, line.2 = line.1.length) ∧
      ∀ delivery : Delivery, delivery.NonBlocking →
        ∃ after pending, reading.call delivery = Option.some after ∧
          linesOf ((reading.received ++ delivery.arrived).map spaceForNull) =
            reading.lines.map Prod.fst ++ pending ∧
          ((∃ line rest, pending = line :: rest ∧
              after.lines = reading.lines ++ [(line, line.length)]) ∨
            after.lines = reading.lines ∧ (delivery.Whole reading.unread →
              ¬ delivery.TooLarge reading.buffer → pending = [])) := by
  obtain ⟨reading, window, runs, sound, received⟩ :=
    Reading.run_sound (Reading.start_sound some small) allowed
  refine ⟨reading, runs, received, ?_, sound.counted, ?_⟩
  · obtain ⟨consumed, all, lines⟩ := sound.split
    rw [all, lines]
    exact prefix_append _ _
  · intro delivery nonBlocking
    obtain ⟨after, window', called, -, -, result⟩ := sound.call nonBlocking
    exact ⟨after, _, called, sound.pending delivery.arrived, result⟩

/-- A line in two chunks, and then a call without any data. -/
def twoChunks : List Delivery :=
  [⟨[72, 0], { available := some 2, copied := 2 }⟩, ⟨[13, 10, 73], { available := some 3, copied := 3 }⟩,
    ⟨[], { available := some 0, copied := 0 }⟩]

theorem lines_delivered_twoChunks : ∃ reading,
    runSome Reading.call (Reading.start 1) twoChunks = some reading ∧
      reading.lines.map Prod.fst <+: linesOf (reading.received.map spaceForNull) := by
  have allowed : ∀ delivery ∈ twoChunks, delivery.NonBlocking := by
    intro delivery mem
    rcases mem_cons.mp mem with rfl | mem
    · exact ⟨rfl, 2, by decide, rfl⟩
    rcases mem_cons.mp mem with rfl | mem
    · exact ⟨rfl, 3, by decide, rfl⟩
    rw [mem_singleton.mp mem]
    exact ⟨rfl, 0, by decide, rfl⟩
  obtain ⟨reading, runs, -, lines, -⟩ := lines_delivered 1 (Nat.le_refl 1) (by decide) allowed
  exact ⟨reading, runs, lines⟩

/-- A chunk that is read at once if there is room for it. -/
def wholeChunk (arrived : List UInt8) : Delivery :=
  ⟨arrived, { available := some arrived.length, copied := arrived.length }⟩

lemma large_chunk_left {arrived : List UInt8} (length : arrived.length = 2 ^ 31) :
    (Reading.start 1).call (wholeChunk arrived) = some
      { buffer := LineStreamBuffer.create 1, unread := arrived, received := arrived } := by
  have room : (LineStreamBuffer.create 1).makeRoom (fun _ => 0) (2 ^ 31) =
      some (LineStreamBuffer.create 1, none) := by
    decide +kernel
  have gives : (LineStreamBuffer.create 1).readFrom (wholeChunk arrived).stream arrived false =
      some { buffer := LineStreamBuffer.create 1, unread := arrived } := by
    rw [LineStreamBuffer.readFrom, wholeChunk, length]
    dsimp only
    rw [if_neg fun blocking => Bool.noConfusion blocking.1, room]
    rfl
  have reads : (LineStreamBuffer.create 1).readNextLine (some (wholeChunk arrived).stream) arrived
      false = some { buffer := LineStreamBuffer.create 1, unread := arrived } := gives
  rw [Reading.call]
  change ((LineStreamBuffer.create 1).readNextLine (some (wholeChunk arrived).stream) arrived
    false).map _ = _
  rw [reads]
  rfl

/-- A chunk of half the memory that 32 bits can count is left in the stream. -/
theorem large_chunk_not_read : ¬ ∀ (bufferSize : Nat) (arrived : List UInt8),
    1 ≤ bufferSize → bufferSize < 2 ^ 32 →
    ∃ after, (Reading.start bufferSize).call (wholeChunk arrived) = some after ∧
      after.lines.map Prod.fst = (linesOf (arrived.map spaceForNull)).take 1 := by
  intro always
  obtain ⟨after, called, lines⟩ :=
    always 1 (10 :: List.replicate (2 ^ 31 - 1) 10) (Nat.le_refl 1) (by decide)
  have length : (10 :: List.replicate (2 ^ 31 - 1) (10 : UInt8)).length = 2 ^ 31 := by
    rw [length_cons, length_replicate, Nat.sub_add_cancel (by decide)]
  generalize List.replicate (2 ^ 31 - 1) (10 : UInt8) = rest at *
  cases (large_chunk_left length).symm.trans called
  cases lines

end CommCentral.Base
