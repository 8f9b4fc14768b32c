import CommCentral.Base.LineStreamBuffer

/-! What the steps of `ReadNextLine` do to the contents of the buffer. -/
namespace CommCentral.Base

open Lib List

lemma toUInt32_of_lt {number : Nat} (small : number < 2 ^ 32) : toUInt32 number = number := by
  rw [toUInt32]
  omega

lemma toInt64_of_lt (number : Nat) (small : number < 2 ^ 63) : toInt64 number = number := by
  rw [toInt64]
  apply Int.bmod_eq_of_le
  · omega
  · omega

section

variable {before window after late : List UInt8}

lemma strchr_found (noNull : (0 : UInt8) ∉ before) (first : token ∉ before) :
    strchr token (before ++ token :: late) position = some (some (position + before.length)) := by
  induction before generalizing position with
  | nil => exact if_pos rfl
  | cons byte rest ih =>
    have other : byte ≠ token := fun same => first (same ▸ mem_cons_self)
    have nonzero : byte ≠ 0 := fun same => noNull (same ▸ mem_cons_self)
    rw [cons_append, strchr, if_neg other, if_neg nonzero,
      ih (fun mem => noNull (mem_cons_of_mem _ mem))
        (fun mem => first (mem_cons_of_mem _ mem)), length_cons, Nat.add_assoc,
      Nat.add_comm 1]

lemma strchr_missing (noNull : (0 : UInt8) ∉ before) (missing : token ∉ before)
    (nonzero : token ≠ 0) : strchr token (before ++ 0 :: late) position = some none := by
  induction before generalizing position with
  | nil => rw [nil_append, strchr, if_neg (Ne.symm nonzero), if_pos rfl]
  | cons byte rest ih =>
    have other : byte ≠ token := fun same => missing (same ▸ mem_cons_self)
    have notNull : byte ≠ 0 := fun same => noNull (same ▸ mem_cons_self)
    rw [cons_append, strchr, if_neg other, if_neg notNull]
    exact ih (fun mem => noNull (mem_cons_of_mem _ mem))
      (fun mem => missing (mem_cons_of_mem _ mem))

/-- Text before a NUL is searched up to its first LF, or up to the NUL. -/
theorem strchr_text {text : List UInt8} (noNull : (0 : UInt8) ∉ text) (position : Nat) :
    (∃ early late', text = early ++ 10 :: late' ∧ (10 : UInt8) ∉ early ∧
      strchr 10 (text ++ 0 :: late) position = some (some (position + early.length))) ∨
    (10 : UInt8) ∉ text ∧ strchr 10 (text ++ 0 :: late) position = some none := by
  by_cases mem : (10 : UInt8) ∈ text
  · obtain ⟨early, rest, rfl, first⟩ := eq_append_cons_of_mem mem
    refine .inl ⟨early, rest, rfl, first, ?_⟩
    rw [append_assoc]
    exact strchr_found (fun inEarly => noNull (mem_append_left _ inEarly)) first
  · exact .inr ⟨mem, strchr_missing noNull mem (by decide)⟩

end

namespace LineStreamBuffer

/-- The contents of a buffer for lines that end with LF, in its memory. -/
structure Holds (buffer : LineStreamBuffer) (before window after : List UInt8) : Prop where
  eats : buffer.eatCRLFs = true
  token : buffer.lineToken = 10
  data : buffer.dataBuffer = before ++ window ++ after
  start : buffer.startPos = before.length
  count : buffer.numBytesInBuffer = window.length
  room : after ≠ []
  ended : window ≠ [] → after.head? = some 0
  noNull : (0 : UInt8) ∉ window
  small : buffer.dataBuffer.length < 2 ^ 32

variable {buffer : LineStreamBuffer} {before window after : List UInt8}

lemma create_holds (some : 1 ≤ bufferSize) (small : bufferSize < 2 ^ 32) :
    (create bufferSize).Holds [] [] (List.replicate bufferSize 0) := by
  refine ⟨rfl, rfl, rfl, rfl, rfl, ?_, fun nonempty => absurd rfl nonempty, not_mem_nil, ?_⟩
  · intro none
    rw [replicate_eq_nil_iff] at none
    omega
  · exact Nat.lt_of_le_of_lt (Nat.le_of_eq length_replicate) small

section

variable (holds : buffer.Holds before window after)
include holds

lemma Holds.size_eq :
    buffer.dataBuffer.length = before.length + window.length + after.length := by
  rw [holds.data, length_append, length_append]

/-- What follows the contents, with the NUL in front where there are contents. -/
theorem Holds.after_eq : ∃ first rest, after = first :: rest ∧ (window ≠ [] → first = 0) := by
  obtain ⟨first, rest, rfl⟩ := exists_cons_of_ne_nil holds.room
  exact ⟨first, rest, rfl, fun nonempty => Option.some.inj (holds.ended nonempty)⟩

lemma Holds.search :
    (∃ early late, window = early ++ 10 :: late ∧ (10 : UInt8) ∉ early ∧
      buffer.endOfFirstLine = some (some (before.length + early.length))) ∨
    (10 : UInt8) ∉ window ∧ buffer.endOfFirstLine = some none := by
  by_cases none : window = []
  · have empty : ¬ 0 < buffer.numBytesInBuffer := by
      rw [holds.count, none]
      exact Nat.lt_irrefl 0
    refine .inr ⟨?_, if_neg empty⟩
    rw [none]
    exact not_mem_nil
  · have some : 0 < buffer.numBytesInBuffer := by
      rw [holds.count]
      exact length_pos_iff.mpr none
    obtain ⟨first, rest, rfl, null⟩ := holds.after_eq
    rw [endOfFirstLine, if_pos some, endOfLineFrom, holds.token, holds.data, holds.start, append_assoc,
      drop_left, null none]
    exact strchr_text holds.noNull before.length

/-- The contents are at the start of the memory, and everything after them is free. -/
theorem Holds.shift (shifted : before ≠ []) :
    ∃ moved after', buffer.shift = some moved ∧ moved.Holds [] window after' ∧
      moved.dataBufferSize = buffer.dataBufferSize := by
  have size := holds.size_eq
  have front := length_pos_iff.mpr shifted
  obtain ⟨behind, rest, tail⟩ : ∃ behind rest,
      buffer.dataBuffer.drop window.length = behind :: rest := by
    apply exists_cons_of_ne_nil
    intro none
    have length := drop_eq_nil_iff.mp none
    omega
  have contents : fetch buffer.dataBuffer buffer.startPos buffer.numBytesInBuffer =
      some window := by
    rw [holds.data, holds.start, holds.count]
    exact fetch_middle
  have moves : overwrite buffer.dataBuffer 0 window = some (window ++ behind :: rest) := by
    have old : (buffer.dataBuffer.take window.length).length = window.length := by
      rw [length_take]
      omega
    have written : overwrite ([] ++ buffer.dataBuffer.take window.length ++
        buffer.dataBuffer.drop window.length) 0 window =
          some ([] ++ window ++ buffer.dataBuffer.drop window.length) := overwrite_middle old
    rw [nil_append, take_append_drop, tail] at written
    exact written
  have length : (window ++ 0 :: rest).length = buffer.dataBuffer.length := by
    have whole := congrArg List.length tail
    rw [length_drop, length_cons] at whole
    rw [length_append, length_cons]
    omega
  refine ⟨{ buffer with dataBuffer := window ++ 0 :: rest, startPos := 0 }, 0 :: rest, ?_,
    ⟨holds.eats, holds.token, rfl, rfl, holds.count, cons_ne_nil _ _, fun _ => rfl,
      holds.noNull, Nat.lt_of_le_of_lt (Nat.le_of_eq length) holds.small⟩, length⟩
  rw [LineStreamBuffer.shift, contents]
  change (overwrite buffer.dataBuffer 0 window).bind _ = _
  rw [moves, holds.count]
  change (store (window ++ behind :: rest) window.length 0).bind _ = _
  rw [store_middle]
  rfl

end

lemma Holds.grow (holds : buffer.Holds [] window after) (grown : Nat → UInt8) {growBy : Nat}
    (small : buffer.dataBufferSize + growBy < 2 ^ 32) :
    ∃ after', (buffer.growBuffer grown (buffer.dataBufferSize + growBy)).Holds [] window after' ∧
      (buffer.growBuffer grown (buffer.dataBufferSize + growBy)).dataBufferSize =
        buffer.dataBufferSize + growBy := by
  let added := (List.range growBy).map grown
  have addedLength : added.length = growBy := by
    rw [length_map, length_range]
  have length : (buffer.dataBuffer ++ added).length = buffer.dataBufferSize + growBy := by
    rw [length_append, addedLength]
  have data : (buffer.growBuffer grown (buffer.dataBufferSize + growBy)).dataBuffer =
      buffer.dataBuffer ++ added := by
    rw [growBuffer, Nat.add_sub_cancel_left]
    apply take_of_length_le
    exact Nat.le_of_eq length
  refine ⟨after ++ added, ⟨holds.eats, holds.token, ?_, holds.start, holds.count, ?_, ?_,
    holds.noNull, ?_⟩, ?_⟩
  · rw [data, holds.data, append_assoc]
  · exact append_ne_nil_of_left_ne_nil holds.room _
  · intro nonempty
    rw [head?_append, holds.ended nonempty]
    rfl
  · rw [data, length]
    exact small
  · rw [dataBufferSize, data, length]

/-- More bytes are available than a buffer of 4 GB could take. -/
def TooMany (buffer : LineStreamBuffer) (available : Nat) : Prop :=
  buffer.dataBufferSize ≤ available + buffer.numBytesInBuffer ∧
    2 ^ 32 - 1 < buffer.dataBufferSize +
      ((available + buffer.numBytesInBuffer - buffer.dataBufferSize) * 2 + 1)

lemma Holds.growRoom (holds : buffer.Holds [] window after) (grown : Nat → UInt8)
    (small : available < 2 ^ 62) :
    ∃ roomy after', roomy.Holds [] window after' ∧
      ((buffer.TooMany available ∧
          buffer.growRoom grown after.length available = (roomy, none)) ∨
        available < after'.length ∧
          buffer.growRoom grown after.length available = (roomy, some after'.length)) := by
  have size : buffer.dataBufferSize = window.length + after.length := by
    have whole := holds.size_eq
    rw [length_nil, Nat.zero_add] at whole
    exact whole
  have count := holds.count
  have bound : buffer.dataBufferSize < 2 ^ 32 := holds.small
  rw [LineStreamBuffer.growRoom]
  split
  · rename_i full
    obtain ⟨missing, rfl⟩ := Nat.exists_eq_add_of_le full
    have growBy : toInt64 (((after.length + missing : Nat) - (after.length : Nat) : Int) * 2 + 1) =
        (missing * 2 + 1 : Nat) := by
      rw [← toInt64_of_lt (missing * 2 + 1) (by omega)]
      congr 1
      omega
    rw [growBy]
    dsimp only
    by_cases large : (2 ^ 32 - 1 : Int) < buffer.dataBufferSize + (missing * 2 + 1 : Nat)
    · rw [if_pos large]
      refine ⟨buffer, after, holds, .inl ⟨⟨?_, ?_⟩, rfl⟩⟩
      · omega
      · omega
    · rw [if_neg large]
      have fits : buffer.dataBufferSize + (missing * 2 + 1) < 2 ^ 32 := by omega
      obtain ⟨after', grownHolds, grownSize⟩ := holds.grow grown fits
      have newSize : toUInt32 (buffer.dataBufferSize + (missing * 2 + 1 : Nat)) =
          buffer.dataBufferSize + (missing * 2 + 1) := toUInt32_of_lt fits
      have newFree : toUInt32 (after.length + (missing * 2 + 1 : Nat)) =
          after.length + (missing * 2 + 1) := toUInt32_of_lt (by omega)
      have free : after'.length = after.length + (missing * 2 + 1) := by
        have whole := grownHolds.size_eq
        rw [length_nil, Nat.zero_add] at whole
        have length : window.length + after'.length = buffer.dataBufferSize + (missing * 2 + 1) :=
          whole.symm.trans grownSize
        omega
      rw [newSize, newFree, ← free]
      exact ⟨_, after', grownHolds, .inr ⟨by omega, rfl⟩⟩
  · rename_i fits
    exact ⟨buffer, after, holds, .inr ⟨Nat.lt_of_not_le fits, rfl⟩⟩

lemma Holds.makeRoom (holds : buffer.Holds before window after) (grown : Nat → UInt8)
    (small : available < 2 ^ 62) :
    ∃ roomy before' after', roomy.Holds before' window after' ∧
      ((buffer.TooMany available ∧ buffer.makeRoom grown available = some (roomy, none)) ∨
        available < after'.length ∧
          buffer.makeRoom grown available = some (roomy, some after'.length)) := by
  have size : buffer.dataBufferSize = before.length + window.length + after.length := holds.size_eq
  have count := holds.count
  have start := holds.start
  have bound : buffer.dataBufferSize < 2 ^ 32 := holds.small
  have free : toUInt32 (buffer.dataBufferSize - buffer.startPos - buffer.numBytesInBuffer) =
      after.length := by
    rw [toUInt32]
    omega
  rw [LineStreamBuffer.makeRoom, free]
  split
  · rename_i full
    by_cases atStart : buffer.startPos = 0
    · have none : before = [] := by
        rw [start] at atStart
        exact length_eq_zero_iff.mp atStart
      rw [none] at holds
      rw [if_neg (not_not.mpr atStart)]
      obtain ⟨roomy, after', roomyHolds, result⟩ := holds.growRoom grown small
      refine ⟨roomy, [], after', roomyHolds, ?_⟩
      rcases result with ⟨tooMany, bails⟩ | ⟨fits, grows⟩
      · exact .inl ⟨tooMany, congrArg some bails⟩
      · exact .inr ⟨fits, congrArg some grows⟩
    · have shifted : before ≠ [] := by
        intro none
        rw [start, none] at atStart
        exact atStart rfl
      obtain ⟨moved, after', shifts, movedHolds, sameSize⟩ := holds.shift shifted
      have movedFree : toUInt32 (moved.dataBufferSize - moved.numBytesInBuffer) = after'.length := by
        have whole : moved.dataBufferSize = 0 + window.length + after'.length := movedHolds.size_eq
        have movedCount := movedHolds.count
        have movedBound : moved.dataBufferSize < 2 ^ 32 := movedHolds.small
        rw [toUInt32]
        omega
      obtain ⟨roomy, after'', roomyHolds, result⟩ := movedHolds.growRoom grown small
      rw [if_pos atStart, shifts]
      change ∃ (roomy : LineStreamBuffer) (before' after' : List UInt8),
        roomy.Holds before' window after' ∧
        ((_ ∧ some (moved.growRoom grown (toUInt32 _) available) = _) ∨
          _ ∧ some (moved.growRoom grown (toUInt32 _) available) = _)
      rw [movedFree]
      refine ⟨roomy, [], after'', roomyHolds, ?_⟩
      rcases result with ⟨tooMany, bails⟩ | ⟨fits, grows⟩
      · refine .inl ⟨?_, congrArg some bails⟩
        rw [TooMany, sameSize, movedHolds.count, ← count] at tooMany
        exact tooMany
      · exact .inr ⟨fits, congrArg some grows⟩
  · rename_i fits
    exact ⟨buffer, before, after, holds, .inr ⟨Nat.lt_of_not_le fits, rfl⟩⟩

lemma zero_not_mem_spaceForNull (bytes : List UInt8) :
    (0 : UInt8) ∉ bytes.map spaceForNull := by
  intro mem
  obtain ⟨byte, -, space⟩ := mem_map.mp mem
  rw [spaceForNull] at space
  split at space
  · cases space
  · rename_i nonzero
    exact nonzero space

/-- New data that leaves room for a NUL follows the contents. -/
theorem Holds.receive (holds : buffer.Holds before window after)
    (fits : newData.length < after.length) :
    ∃ fuller rest, buffer.receive newData = some fuller ∧
      fuller.Holds before (window ++ newData.map spaceForNull) (0 :: rest) := by
  have size := holds.size_eq
  have bound := holds.small
  obtain ⟨behind, rest, tail⟩ : ∃ behind rest, after.drop newData.length = behind :: rest := by
    apply exists_cons_of_ne_nil
    intro none
    have short := drop_eq_nil_iff.mp none
    omega
  have oldLength : (after.take newData.length).length = newData.length := by
    rw [length_take]
    omega
  have position : buffer.startPos + buffer.numBytesInBuffer = (before ++ window).length := by
    rw [holds.start, holds.count, length_append]
  have written : overwrite buffer.dataBuffer (before ++ window).length newData =
      some (before ++ window ++ newData ++ behind :: rest) := by
    have middle : overwrite (before ++ window ++ after.take newData.length ++
        after.drop newData.length) (before ++ window).length newData =
          some (before ++ window ++ newData ++ after.drop newData.length) :=
      overwrite_middle oldLength
    rw [append_assoc, take_append_drop, tail, ← holds.data] at middle
    exact middle
  have replaced : overwrite (before ++ window ++ newData ++ behind :: rest)
      (before ++ window).length (newData.map spaceForNull) =
        some (before ++ window ++ newData.map spaceForNull ++ behind :: rest) :=
    overwrite_middle (length_map _).symm
  have count : toUInt32 (buffer.numBytesInBuffer + newData.length) =
      (window ++ newData.map spaceForNull).length := by
    rw [holds.count, length_append, length_map, ← Int.natCast_add]
    apply toUInt32_of_lt
    omega
  have ending : buffer.startPos + (window ++ newData.map spaceForNull).length =
      (before ++ window ++ newData.map spaceForNull).length := by
    rw [holds.start, ← length_append, append_assoc]
  have sameSize : (before ++ window ++ newData.map spaceForNull ++ 0 :: rest).length =
      buffer.dataBuffer.length := by
    have whole := congrArg List.length tail
    rw [length_drop, length_cons] at whole
    rw [size, length_append, length_append, length_append, length_map,
      length_cons]
    omega
  refine ⟨{ buffer with
    dataBuffer := before ++ window ++ newData.map spaceForNull ++ 0 :: rest
    numBytesInBuffer := (window ++ newData.map spaceForNull).length }, rest, ?_,
    ⟨holds.eats, holds.token, ?_, holds.start, rfl, cons_ne_nil _ _, fun _ => rfl, ?_,
      Nat.lt_of_le_of_lt (Nat.le_of_eq sameSize) bound⟩⟩
  · rw [LineStreamBuffer.receive, position, written]
    change (fetch (before ++ window ++ newData ++ behind :: rest) _ _).bind _ = _
    rw [fetch_middle]
    change (overwrite _ _ (newData.map spaceForNull)).bind _ = _
    rw [replaced, count]
    change (store (before ++ window ++ newData.map spaceForNull ++ behind :: rest)
      (buffer.startPos + (window ++ newData.map spaceForNull).length) 0).bind _ = _
    rw [ending, store_middle]
    rfl
  · rw [← append_assoc before]
  · intro mem
    rcases mem_append.mp mem with old | new
    · exact holds.noNull old
    · exact zero_not_mem_spaceForNull newData new

/-- Bytes of the stream, as many as are available and copied, are put after the contents, and
the first LF among them is found. -/
theorem Holds.readMore (holds : buffer.Holds before window after) (stream : InputStream)
    (unread : List UInt8) {taken : List UInt8} (fits : available < after.length)
    (takenEq : taken = unread.take (min available stream.copied)) :
    ∃ fuller after' endOfLine,
      buffer.readMore stream unread after.length available =
        some (fuller, unread.drop taken.length, endOfLine) ∧
      fuller.Holds before (window ++ taken.map spaceForNull) after' ∧
      ((∃ early late, taken.map spaceForNull = early ++ 10 :: late ∧ (10 : UInt8) ∉ early ∧
          endOfLine = some (before.length + window.length + early.length)) ∨
        (10 : UInt8) ∉ taken.map spaceForNull ∧ endOfLine = none) := by
  have size := holds.size_eq
  have bound := holds.small
  have count : min (toUInt32 (after.length - 1)) available = available := by
    have free : toUInt32 (after.length - 1) = after.length - 1 := by
      rw [toUInt32]
      omega
    omega
  have length : taken.length ≤ available := by
    rw [takenEq, length_take]
    omega
  rw [LineStreamBuffer.readMore, count, ← takenEq]
  by_cases some : 0 < available
  · obtain ⟨fuller, rest, receives, fullerHolds⟩ := holds.receive (Nat.lt_of_le_of_lt length fits)
    have search : fuller.endOfLineFrom (buffer.startPos + buffer.numBytesInBuffer) =
        strchr 10 (taken.map spaceForNull ++ 0 :: rest) (before.length + window.length) := by
      rw [endOfLineFrom, fullerHolds.token, fullerHolds.data, holds.start, holds.count,
        ← append_assoc before, append_assoc (before ++ window), ← length_append,
        drop_left]
    rw [if_pos some]
    dsimp only
    rw [receives, Option.bind_eq_bind, Option.bind_some, search]
    rcases strchr_text (zero_not_mem_spaceForNull taken) (before.length + window.length) with
      ⟨early, late, lines, first, found⟩ | ⟨missing, found⟩
    · rw [found]
      exact ⟨fuller, _, _, rfl, fullerHolds, .inl ⟨early, late, lines, first, rfl⟩⟩
    · rw [found]
      exact ⟨fuller, _, _, rfl, fullerHolds, .inr ⟨missing, rfl⟩⟩
  · have none : taken = [] := length_eq_zero_iff.mp (by omega)
    rw [if_neg some, none]
    refine ⟨buffer, after, Option.none, rfl, ?_, .inr ⟨not_mem_nil, rfl⟩⟩
    rw [map_nil, append_nil]
    exact holds

/-- A line without its LF and without one CR before that. -/
def lineText (text : List UInt8) : List UInt8 :=
  if text.getLast? = some 13 then text.dropLast else text

lemma lineText_concat (text) (last : UInt8) :
    lineText (text ++ [last]) = if last = 13 then text else text ++ [last] := by
  rw [lineText, getLast?_concat, dropLast_concat]
  exact if_congr ⟨Option.some.inj, congrArg some⟩ rfl rfl

lemma fetch_lineText (before text after) :
    fetch (before ++ text ++ after) before.length (lineText text).length =
      some (lineText text) := by
  rcases eq_nil_or_concat text with rfl | ⟨others, last, rfl⟩
  · exact fetch_middle
  · rw [concat_eq_append, lineText_concat]
    split
    · rw [← append_assoc before, append_assoc (before ++ others)]
      exact fetch_middle
    · exact fetch_middle

lemma Holds.lineLength (holds : buffer.Holds before (early ++ 10 :: late) after) :
    buffer.lineLength (before.length + early.length) = some (lineText early).length := by
  have size := holds.size_eq
  have bound := holds.small
  rw [length_append, length_cons] at size
  have length : toUInt32 ((before.length + early.length : Nat) - (before.length : Nat)) =
      early.length := by
    rw [toUInt32]
    omega
  rw [LineStreamBuffer.lineLength, holds.eats, holds.start, length]
  rcases eq_nil_or_concat early with rfl | ⟨others, last, rfl⟩
  · rfl
  · rw [concat_eq_append] at holds ⊢
    have index : before.length + (others ++ [last]).length - 1 = (before ++ others).length := by
      rw [length_append, length_append, length_singleton]
      omega
    have atEnd : buffer.dataBuffer[(before ++ others).length]? = some last := by
      rw [holds.data, append_assoc others, ← append_assoc before,
        append_assoc (before ++ others), getElem?_append_right (Nat.le_refl _),
        Nat.sub_self]
      rfl
    have some : 0 < (others ++ [last]).length :=
      length_pos_of_mem (mem_append_right others mem_cons_self)
    rw [if_pos ⟨rfl, some⟩, index, atEnd, lineText_concat, Option.map_some]
    congr 1
    split
    · rw [length_append]
      rfl
    · rfl

/-- A line leaves the contents without its ending. -/
theorem Holds.takeLine (holds : buffer.Holds before (early ++ 10 :: late) after)
    (unread : List UInt8) :
    ∃ rest before' after', rest.Holds before' late after' ∧
      buffer.takeLine false unread (before.length + early.length) = some
        { buffer := rest
          unread := unread
          line := some (lineText early)
          numBytesInLine := (lineText early).length } := by
  have size := holds.size_eq
  have bound := holds.small
  have length : (early ++ 10 :: late).length = early.length + (late.length + 1) := by
    rw [length_append, length_cons]
  have data : buffer.dataBuffer = before ++ early ++ (10 :: late ++ after) := by
    rw [holds.data, append_assoc before, append_assoc, append_assoc]
  have left : toUInt32 (buffer.numBytesInBuffer -
      ((before.length + early.length + 1 : Nat) - buffer.startPos)) = late.length := by
    rw [toUInt32, holds.count, holds.start]
    omega
  have noNull : (0 : UInt8) ∉ late := fun mem =>
    holds.noNull (mem_append_right _ (mem_cons_of_mem _ mem))
  let rest : LineStreamBuffer := { buffer with
    numBytesInBuffer := late.length
    startPos := if late.length = 0 then 0 else before.length + early.length + 1 }
  have taken : buffer.takeLine false unread (before.length + early.length) = some
      { buffer := rest
        unread := unread
        line := some (lineText early)
        numBytesInLine := (lineText early).length } := by
    have copied := fetch_lineText before early (10 :: late ++ after)
    rw [← data] at copied
    rw [← holds.start] at copied
    rw [LineStreamBuffer.takeLine]
    dsimp only
    rw [if_pos holds.eats, holds.lineLength, if_pos holds.eats, left, Option.bind_eq_bind,
      Option.bind_some, copied]
    rfl
  by_cases none : late = []
  · refine ⟨rest, [], buffer.dataBuffer, ⟨holds.eats, holds.token, ?_, ?_, rfl, ?_, ?_, noNull,
      bound⟩, taken⟩
    · rw [none]
      rfl
    · change (if late.length = 0 then _ else _) = _
      rw [none]
      rfl
    · intro nothing
      rw [nothing, length_nil] at size
      omega
    · exact fun nonempty => absurd none nonempty
  · refine ⟨rest, before ++ early ++ [10], after, ⟨holds.eats, holds.token, ?_, ?_, rfl, holds.room,
      ?_, noNull, bound⟩, taken⟩
    · rw [data]
      simp only [append_assoc]
      rfl
    · change (if late.length = 0 then 0 else before.length + early.length + 1) = _
      rw [if_neg fun short => none (length_eq_zero_iff.mp short), length_append,
        length_append]
      rfl
    · exact fun _ => holds.ended (append_ne_nil_of_right_ne_nil _ (cons_ne_nil _ _))

/-- What a call makes of the contents and the bytes of the stream, of which it takes some: the
first line of them, or none if there is none. -/
structure Delivers (window unread : List UInt8) (result : LineResult)
    (window' taken : List UInt8) : Prop where
  unread_eq : unread = taken ++ result.unread
  line_eq : (∃ early, window ++ taken.map spaceForNull = early ++ 10 :: window' ∧
      (10 : UInt8) ∉ early ∧ result.line = some (lineText early) ∧
      result.numBytesInLine = (lineText early).length) ∨
    (10 : UInt8) ∉ window ++ taken.map spaceForNull ∧
      window' = window ++ taken.map spaceForNull ∧ result.line = none

section

variable (holds : buffer.Holds before window after) (stream : InputStream) (unread : List UInt8)
  (nonBlocking : stream.nonBlocking = true) (isAvailable : stream.available = some available)
  (small : available < 2 ^ 62)
include holds stream unread nonBlocking isAvailable small

lemma Holds.readFrom (missing : (10 : UInt8) ∉ window) :
    ∃ result window' taken before' after', buffer.readFrom stream unread false = some result ∧
      Delivers window unread result window' taken ∧ result.buffer.Holds before' window' after' ∧
      (buffer.TooMany available ∨ taken = unread.take (min available stream.copied)) := by
  have asked : (if stream.nonBlocking = false ∧ available = 0 then buffer.dataBufferSize / 2
      else available) = available := by
    rw [nonBlocking]
    exact if_neg fun blocking => Bool.noConfusion blocking.1
  obtain ⟨roomy, before', after', roomyHolds, room⟩ := holds.makeRoom stream.grown small
  rw [LineStreamBuffer.readFrom, isAvailable]
  dsimp only
  rw [asked]
  rcases room with ⟨tooMany, bails⟩ | ⟨fits, made⟩
  · rw [bails]
    refine ⟨_, window, [], before', after', rfl, ⟨rfl, .inr ?_⟩, roomyHolds, .inl tooMany⟩
    rw [map_nil, append_nil]
    exact ⟨missing, rfl, rfl⟩
  · rw [made]
    obtain ⟨fuller, after'', endOfLine, reads, fullerHolds, ending⟩ :=
      roomyHolds.readMore stream unread fits rfl
    rw [Option.bind_eq_bind, Option.bind_some]
    dsimp only
    rw [reads, Option.bind_eq_bind, Option.bind_some]
    dsimp only
    have unreadEq : unread = unread.take (min available stream.copied) ++
        unread.drop (unread.take (min available stream.copied)).length := by
      rw [length_take, take_eq_take_min, take_append_drop]
    rcases ending with ⟨early, late, lines, first, found⟩ | ⟨none, notFound⟩
    · rw [lines, ← append_assoc] at fullerHolds
      obtain ⟨rest, before'', last, restHolds, takes⟩ := fullerHolds.takeLine
        (unread.drop (unread.take (min available stream.copied)).length)
      rw [found, Nat.add_assoc, ← length_append]
      refine ⟨_, late, _, before'', last, takes, ⟨unreadEq, .inl ⟨window ++ early, ?_, ?_, rfl, rfl⟩⟩,
        restHolds, .inr rfl⟩
      · rw [lines, append_assoc]
      · intro mem
        rcases mem_append.mp mem with old | new
        · exact missing old
        · exact first new
    · rw [notFound]
      refine ⟨_, _, _, before', after'', rfl, ⟨unreadEq, .inr ⟨?_, rfl, rfl⟩⟩, fullerHolds, .inr rfl⟩
      intro mem
      rcases mem_append.mp mem with old | new
      · exact missing old
      · exact none new

lemma Holds.readNextLine :
    ∃ result window' taken before' after',
      buffer.readNextLine (some stream) unread false = some result ∧
      Delivers window unread result window' taken ∧ result.buffer.Holds before' window' after' ∧
      ((10 : UInt8) ∈ window ∨ buffer.TooMany available ∨
        taken = unread.take (min available stream.copied)) := by
  rcases holds.search with ⟨early, late, rfl, first, found⟩ | ⟨missing, notFound⟩
  · obtain ⟨rest, before', after', restHolds, taken⟩ := holds.takeLine unread
    rw [LineStreamBuffer.readNextLine, found]
    refine ⟨_, late, [], before', after', taken, ⟨rfl, .inl ⟨early, ?_, first, rfl, rfl⟩⟩,
      restHolds, .inl (mem_append_right _ mem_cons_self)⟩
    rw [map_nil, append_nil]
  · obtain ⟨result, window', taken, before', after', reads, delivers, resultHolds, all⟩ :=
      holds.readFrom stream unread nonBlocking isAvailable small missing
    rw [LineStreamBuffer.readNextLine, notFound]
    exact ⟨result, window', taken, before', after', reads, delivers, resultHolds, .inr all⟩

end

end LineStreamBuffer

end CommCentral.Base
