import CommCentral.Lib.Decision
import CommCentral.Lib.Blocks
import CommCentral.Lib.FixedBuffer
import Mathlib

/-! `MimeDecoderData` for base64: `mime_decode_base64_buffer` collects the characters
of the alphabet four by four and decodes them in place, in the buffer of the
caller; up to three characters wait in `token` for the next call. Every access
to a buffer is checked, and `none` is an access out of range. `write_buffer`
succeeds, and a call reports what it was given. -/

namespace CommCentral.Mime

open Lib List Option

structure MimeDecoderData where
  token : List UInt8
  tokenSize : Nat

/-- `MimeB64DecoderInit`: the record is zeroed. -/
def MimeDecoderData.init : MimeDecoderData where
  token := [0, 0, 0, 0]
  tokenSize := 0

/-- The test for a character of the encoding, padding included. -/
def isBase64 (c : UInt8) : Bool :=
  ('A'.toUInt8 ≤ c && c ≤ 'Z'.toUInt8) || ('a'.toUInt8 ≤ c && c ≤ 'z'.toUInt8) ||
    ('0'.toUInt8 ≤ c && c ≤ '9'.toUInt8) || c == '+'.toUInt8 || c == '/'.toUInt8 ||
    c == '='.toUInt8

/-- The six bits of a character; any other character counts as zero. -/
def base64Value (c : UInt8) : Nat :=
  if 'A'.toUInt8 ≤ c && c ≤ 'Z'.toUInt8 then c.toNat - 'A'.toNat
  else if 'a'.toUInt8 ≤ c && c ≤ 'z'.toUInt8 then c.toNat - ('a'.toNat - 26)
  else if '0'.toUInt8 ≤ c && c ≤ '9'.toUInt8 then c.toNat + 52 - '0'.toNat
  else if c = '+'.toUInt8 then 62
  else if c = '/'.toUInt8 then 63
  else 0

/-- `mime_decode_base64_token`: the three bytes it writes, and how many count. -/
def decodeBase64Token (token : List UInt8) : Option (List UInt8 × Nat) :=
  match token with
  | [a, b, c, d] =>
    let num := ((base64Value a * 64 + base64Value b) * 64 + base64Value c) * 64 + base64Value d
    let eqCount := token.count '='.toUInt8
    let n := if eqCount = 0 then 3 else if eqCount = 1 then 2 else 1
    some ([UInt8.ofNat (num / 2 ^ 16), UInt8.ofNat (num / 2 ^ 8 % 256), UInt8.ofNat (num % 256)],
      n)
  | _ => none

/-- A character of the encoding goes into the token, any other is skipped. -/
def takeChar (token : List UInt8) (c : UInt8) : Option (List UInt8) :=
  if isBase64 c then push 4 token c else some token

/-- The inner loop: characters are read up to a full token, others are skipped.
`index` and `length` are `in` and the bytes from there on. -/
def fillToken (buffer : List UInt8) : Nat → Nat → List UInt8 → Option (List UInt8 × Nat × Nat)
  | 0, index, token => some (token, index, 0)
  | length + 1, index, token =>
    if token.length < 4 then do
      let c ← buffer[index]?
      let token ← takeChar token c
      fillToken buffer length (index + 1) token
    else some (token, index, length + 1)

/-- The locals of `mime_decode_base64_buffer`. `start` is where `buffer` points. -/
structure DecodeState where
  memory : List UInt8
  start : Nat
  index : Nat
  out : Nat
  leftover : Bool
  calls : List (List UInt8)
  outSize : Nat

/-- The end of the body of the loop, when the token is full. -/
def decodeStep (token : List UInt8) (state : DecodeState) : Option DecodeState := do
  let (bytes, n) ← decodeBase64Token token
  if state.leftover then
    some { state with
      start := state.index
      out := state.index
      leftover := false
      calls := state.calls ++ [bytes.take n]
      outSize := state.outSize + n }
  else
    let memory ← overwrite state.memory state.out bytes
    some { state with memory, out := state.out + n }

/-- The loop `while (length > 0)`; its result holds the characters that wait. -/
def decodeLoop : Nat → Nat → List UInt8 → DecodeState → Option (Option (List UInt8) × DecodeState)
  | _, 0, _, state => some (none, state)
  | 0, _ + 1, _, _ => none
  | fuel + 1, length, token, state => do
    let (token, index, length) ← fillToken state.memory length state.index token
    let state := { state with index }
    if token.length < 4 then some (some token, state)
    else
      let state ← decodeStep token state
      decodeLoop fuel length [] state

/-- `memcpy(data->token, token, i)`. -/
def MimeDecoderData.keep (data : MimeDecoderData) (token : List UInt8) :
    Option MimeDecoderData :=
  (overwrite data.token 0 token).map fun kept => { token := kept, tokenSize := token.length }

/-- The read-buffer is filled again only when the loop stopped within a token. -/
def MimeDecoderData.keepWaiting (data : MimeDecoderData) :
    Option (List UInt8) → Option MimeDecoderData
  | none => some data
  | some token => data.keep token

/-- `mime_decode_base64_buffer`: the new state, what `write_buffer` was given,
and `*outSize`. -/
def decodeBase64Buffer (data : MimeDecoderData) (buffer : List UInt8) :
    Option (MimeDecoderData × List (List UInt8) × Nat) :=
  if buffer.length = 0 then some (data, [], 0)
  else do
    let token := data.token.take (min 4 data.tokenSize)
    let unread := { data with tokenSize := data.tokenSize - min 4 data.tokenSize }
    let (waiting, state) ← decodeLoop buffer.length buffer.length token
      { memory := buffer, start := 0, index := 0, out := 0,
        leftover := decide (data.tokenSize > 0), calls := [], outSize := 0 }
    let data ← unread.keepWaiting waiting
    let written := (state.memory.take state.out).drop state.start
    let calls := if state.out > state.start then state.calls ++ [written] else state.calls
    some (data, calls, state.outSize + (state.out - state.start))

/-- Several calls of `MimeDecoderWrite`, one after the other. -/
def decodeAll (data : MimeDecoderData) :
    List (List UInt8) → Option (MimeDecoderData × List (List UInt8))
  | [] => some (data, [])
  | buffer :: buffers => do
    let (data, calls, _) ← decodeBase64Buffer data buffer
    let (data, more) ← decodeAll data buffers
    some (data, calls ++ more)

/-- `MimeDecoderDestroy` without an abort: a token that waits is padded and
handed out as it is. -/
def MimeDecoderData.destroy (data : MimeDecoderData) : Option (List (List UInt8)) := do
  if data.tokenSize > 0 then
    let first ← data.token[0]?
    if first ≠ '='.toUInt8 then
      let token := data.token.take data.tokenSize ++
        List.replicate (4 - data.tokenSize) '='.toUInt8
      some [token]
    else some []
  else some []

def decodeQuad (token : List UInt8) : List UInt8 :=
  match decodeBase64Token token with
  | some (bytes, n) => bytes.take n
  | none => []

lemma decodeBase64Token_spec (full : token.length = 4) :
    ∃ bytes n, decodeBase64Token token = some (bytes, n) ∧ bytes.length = 3 ∧ n ≤ 3 ∧
      decodeQuad token = bytes.take n := by
  match token, full with
  | [a, b, c, d], _ =>
    refine ⟨_, _, rfl, rfl, ?_, rfl⟩
    split
    · exact Nat.le_refl 3
    · split <;> omega

/-- The inner loop takes the characters of the encoding from the front of the
buffer until the token is full. -/
theorem fillToken_spec (length index : Nat) (room : token.length ≤ 4)
    (inside : index + length = buffer.length) :
    ∃ token' index' length' used,
      fillToken buffer length index token = some (token', index', length') ∧
      index' + length' = buffer.length ∧ used.length = index' - index ∧ index ≤ index' ∧
      buffer.drop index = used ++ buffer.drop index' ∧
      token' = token ++ used.filter isBase64 ∧ token'.length ≤ 4 ∧
      (token'.length < 4 → length' = 0) := by
  induction length generalizing index token with
  | zero =>
    exact ⟨token, index, 0, [], rfl, inside, (Nat.sub_self index).symm, Nat.le_refl _, rfl,
      by simp, room, fun _ => rfl⟩
  | succ length ih =>
    rw [fillToken]
    by_cases short : token.length < 4
    · have bound : index < buffer.length := by omega
      have read : buffer[index]? = some buffer[index] := getElem?_eq_getElem bound
      obtain ⟨taken, pushed, fits, grown⟩ : ∃ taken,
          takeChar token buffer[index] = some taken ∧ taken.length ≤ 4 ∧
            taken = token ++ [buffer[index]].filter isBase64 := by
        rw [takeChar]
        cases inAlphabet : isBase64 buffer[index] with
        | true =>
          rw [if_pos rfl]
          refine ⟨_, push_of_lt short, ?_, by simp [inAlphabet]⟩
          rw [length_append, length_singleton]
          omega
        | false => exact ⟨token, rfl, room, by simp [inAlphabet]⟩
      obtain ⟨token', index', length', used, filled, inside', usedLength, forward, split,
        tokenEq, room', stopped⟩ := ih (index + 1) fits (by omega)
      refine ⟨token', index', length', buffer[index] :: used, ?_, inside', ?_, by omega, ?_, ?_,
        room', stopped⟩
      · simp only [if_pos short, read, pushed, bind_eq_bind, bind_some, filled]
      · rw [length_cons]
        omega
      · rw [cons_append, ← split]
        exact drop_eq_getElem_cons bound
      · rw [tokenEq, grown, append_assoc, ← filter_append, singleton_append]
    · rw [if_neg short]
      exact ⟨token, index, length + 1, [], rfl, inside, (Nat.sub_self index).symm, Nat.le_refl _,
        rfl, by simp, room, fun less => absurd less short⟩

/-- What `write_buffer` has been given, with what waits in the buffer for it. -/
def DecodeState.written (state : DecodeState) : List UInt8 :=
  state.calls.flatten ++ (state.memory.take state.out).drop state.start

/-- The head of the loop: the decoded bytes stay behind the characters read, and
only a token from the last call comes with characters in it. -/
structure DecodeState.Valid (state : DecodeState) (token : List UInt8) : Prop where
  forward : state.start ≤ state.out
  behind : state.out ≤ state.index
  short : token.length < 4
  fresh : state.leftover = false → token = []
  premature : state.leftover = true → state.start = state.out

/-- A full token is decoded without touching the characters ahead. -/
theorem decodeStep_spec (full : token.length = 4) (forward : state.start ≤ state.out)
    (inside : state.index ≤ state.memory.length)
    (behind : state.leftover = false → state.out + 3 ≤ state.index)
    (premature : state.leftover = true → state.start = state.out) :
    ∃ state', decodeStep token state = some state' ∧ state'.Valid [] ∧
      state'.index = state.index ∧ state'.memory.length = state.memory.length ∧
      state'.memory.drop state.index = state.memory.drop state.index ∧
      state'.written = state.written ++ decodeQuad token := by
  obtain ⟨bytes, n, decoded, three, few, value⟩ := decodeBase64Token_spec full
  unfold decodeStep
  rw [decoded, bind_eq_bind, bind_some]
  cases waits : state.leftover with
  | true =>
    have same := premature waits
    refine ⟨_, rfl, ⟨Nat.le_refl _, Nat.le_refl _, by decide, fun _ => rfl, fun _ => rfl⟩, rfl, rfl, rfl,
      ?_⟩
    simp only [DecodeState.written, same, value, flatten_append, flatten_singleton,
      drop_take_self, append_nil]
  | false =>
    have room := behind waits
    obtain ⟨memory, overwritten, lengthEq, ahead, front⟩ :=
      overwrite_spec (by omega : state.out + bytes.length ≤ state.memory.length)
    simp only [Bool.false_eq_true, if_false, overwritten, bind_eq_bind, bind_some]
    refine ⟨_, rfl, ⟨?_, ?_, by decide, fun _ => rfl, ?_⟩, rfl, lengthEq, ?_, ?_⟩
    · exact Nat.le_trans forward (Nat.le_add_right _ _)
    · change state.out + n ≤ state.index
      omega
    · intro waits'
      cases waits'
    · exact ahead _ (by omega)
    · have length : state.start ≤ (state.memory.take state.out).length := by
        rw [length_take]
        omega
      simp only [DecodeState.written, front n (by omega), value,
        drop_append_of_le_length length, append_assoc]

lemma decodeLoop_zero (fuel : Nat) (token) (state) :
    decodeLoop fuel 0 token state = some (none, state) := by
  cases fuel <;> rfl

lemma noTokens {token memory : List UInt8} (empty : token = []) (ended : memory.length ≤ index) :
    Lib.leftover 4 (token ++ (memory.drop index).filter isBase64) = [] ∧
      blocks 4 (token ++ (memory.drop index).filter isBase64) = [] := by
  rw [empty, drop_of_length_le ended]
  exact ⟨leftover_short (by decide), blocks_short (by decide)⟩

/-- The loop hands out the tokens that the waiting characters and the buffer
make up, and keeps the characters after the last one. -/
theorem decodeLoop_spec (fuel length : Nat) (enough : length ≤ fuel)
    (inside : state.index + length = state.memory.length) (valid : state.Valid token)
    (more : length = 0 → token = []) :
    ∃ waiting state', decodeLoop fuel length token state = some (waiting, state') ∧
      state'.start ≤ state'.out ∧
      waiting.getD [] =
        Lib.leftover 4 (token ++ (state.memory.drop state.index).filter isBase64) ∧
      state'.written = state.written ++
        (blocks 4 (token ++ (state.memory.drop state.index).filter isBase64)).flatMap
          decodeQuad := by
  induction fuel generalizing length token state with
  | zero =>
    have zero : length = 0 := by omega
    subst zero
    have atEnd : state.memory.length ≤ state.index := by omega
    obtain ⟨noRest, noBlocks⟩ := noTokens (more rfl) atEnd
    rw [decodeLoop_zero, noRest, noBlocks]
    exact ⟨none, state, rfl, valid.forward, rfl, (append_nil _).symm⟩
  | succ fuel ih =>
    cases length with
    | zero =>
      have atEnd : state.memory.length ≤ state.index := by omega
      obtain ⟨noRest, noBlocks⟩ := noTokens (more rfl) atEnd
      rw [decodeLoop_zero, noRest, noBlocks]
      exact ⟨none, state, rfl, valid.forward, rfl, (append_nil _).symm⟩
    | succ length =>
      obtain ⟨token', index, length', used, filled, inside', usedLength, forward, split, tokenEq,
        room, stopped⟩ :=
        fillToken_spec (length + 1) state.index (Nat.le_of_lt valid.short) inside
      have whole : token ++ (state.memory.drop state.index).filter isBase64 =
          token' ++ (state.memory.drop index).filter isBase64 := by
        rw [split, filter_append, tokenEq, append_assoc]
      have taken : (used.filter isBase64).length ≤ used.length := length_filter_le _ _
      have tokenLength := congrArg List.length tokenEq
      rw [length_append] at tokenLength
      rw [whole, decodeLoop]
      case x_4 => exact Nat.succ_ne_zero length
      simp only [filled, bind_eq_bind, bind_some]
      by_cases short : token'.length < 4
      · have ended : length' = 0 := stopped short
        have nothing : (state.memory.drop index).filter isBase64 = [] := by
          rw [drop_of_length_le (by omega)]
          rfl
        rw [if_pos short, nothing, append_nil, blocks_short short, leftover_short short]
        refine ⟨some token', _, rfl, valid.forward, rfl, ?_⟩
        rw [flatMap_nil, append_nil]
        rfl
      · have full : token'.length = 4 := by omega
        have behind := valid.behind
        have tokenShort := valid.short
        have shorter : length' ≤ fuel := by omega
        have room' : state.leftover = false → state.out + 3 ≤ index := by
          intro notFirst
          rw [valid.fresh notFirst, length_nil] at tokenLength
          omega
        have inMemory : index ≤ state.memory.length := by omega
        obtain ⟨next, decoded, nextValid, sameIndex, sameLength, ahead, written⟩ :
            ∃ next, decodeStep token' { state with index := index } = some next ∧
              next.Valid [] ∧ next.index = index ∧
              next.memory.length = state.memory.length ∧
              next.memory.drop index = state.memory.drop index ∧
              next.written = state.written ++ decodeQuad token' :=
          decodeStep_spec full valid.forward inMemory room' valid.premature
        obtain ⟨waiting, last, looped, order, kept, lastWritten⟩ :=
          ih length' shorter (by omega) nextValid (fun _ => rfl)
        rw [sameIndex, ahead, nil_append] at kept lastWritten
        rw [if_neg short, blocks_cons (by decide) full, leftover_cons (by decide) full]
        simp only [decoded, bind_some]
        refine ⟨waiting, last, looped, order, kept, ?_⟩
        rw [lastWritten, written, flatMap_cons, append_assoc]

/-- A decoder between two calls. -/
structure MimeDecoderData.Valid (data : MimeDecoderData) : Prop where
  capacity : data.token.length = 4
  size : data.tokenSize < 4

/-- The characters that wait for the next call. -/
def MimeDecoderData.pending (data : MimeDecoderData) : List UInt8 := data.token.take data.tokenSize

lemma MimeDecoderData.init_valid : MimeDecoderData.init.Valid where
  capacity := rfl
  size := by decide

variable {data : MimeDecoderData}

lemma MimeDecoderData.Valid.keep (capacity : data.token.length = 4)
    {token : List UInt8} (short : token.length < 4) :
    ∃ kept, data.keep token = some kept ∧ kept.Valid ∧ kept.pending = token := by
  obtain ⟨memory, overwritten, length, -, front⟩ :=
    overwrite_spec (by omega : 0 + token.length ≤ data.token.length)
  refine ⟨⟨memory, token.length⟩, ?_, ⟨by rw [length, capacity], short⟩, ?_⟩
  · rw [MimeDecoderData.keep, overwritten]
    rfl
  · have taken := front token.length (Nat.le_refl _)
    rw [Nat.zero_add, take_zero, nil_append, take_length] at taken
    exact taken

/-- A call decodes the tokens that its characters complete, inside the buffers. -/
theorem decodeBase64Buffer_spec (valid : data.Valid)
    (buffer : List UInt8) :
    ∃ data' calls outSize, decodeBase64Buffer data buffer = some (data', calls, outSize) ∧
      data'.Valid ∧
      data'.pending = Lib.leftover 4 (data.pending ++ buffer.filter isBase64) ∧
      calls.flatten =
        (blocks 4 (data.pending ++ buffer.filter isBase64)).flatMap decodeQuad := by
  have capacity := valid.capacity
  have size := valid.size
  have pendingLength : data.pending.length = data.tokenSize := by
    rw [MimeDecoderData.pending, length_take]
    omega
  have all : min 4 data.tokenSize = data.tokenSize := by omega
  by_cases empty : buffer.length = 0
  · have nothing : buffer = [] := eq_nil_of_length_eq_zero empty
    have short : (data.pending ++ buffer.filter isBase64).length < 4 := by
      rw [nothing, filter_nil, append_nil, pendingLength]
      exact size
    refine ⟨data, [], 0, ?_, valid, ?_, ?_⟩
    · rw [decodeBase64Buffer, if_pos empty]
    · rw [leftover_short short, nothing, filter_nil, append_nil]
    · rw [blocks_short short, flatMap_nil, flatten_nil]
  · have start : DecodeState.Valid
        { memory := buffer, start := 0, index := 0, out := 0,
          leftover := decide (data.tokenSize > 0), calls := [], outSize := 0 } data.pending := by
      refine ⟨Nat.le_refl 0, Nat.le_refl 0, by rw [pendingLength]; exact size, ?_, fun _ => rfl⟩
      intro notWaiting
      have none : ¬ data.tokenSize > 0 := of_decide_eq_false notWaiting
      apply eq_nil_of_length_eq_zero
      omega
    obtain ⟨waiting, last, looped, order, kept, written⟩ :=
      decodeLoop_spec buffer.length buffer.length (Nat.le_refl _) (Nat.zero_add _) start
        (fun zero => absurd zero empty)
    rw [drop_zero] at kept written
    have short : (waiting.getD []).length < 4 := by
      rw [kept]
      exact leftover_length_lt (by decide) _
    obtain ⟨data', stored, stillValid, pending⟩ : ∃ data',
        MimeDecoderData.keepWaiting
            { data with tokenSize := data.tokenSize - min 4 data.tokenSize } waiting =
          some data' ∧ data'.Valid ∧ data'.pending = waiting.getD [] := by
      cases waiting with
      | none =>
        refine ⟨_, rfl, ⟨capacity, ?_⟩, ?_⟩
        · change data.tokenSize - min 4 data.tokenSize < 4
          omega
        · change data.token.take (data.tokenSize - min 4 data.tokenSize) = []
          rw [all, Nat.sub_self, take_zero]
      | some token => exact MimeDecoderData.Valid.keep capacity short
    have token : data.token.take (min 4 data.tokenSize) = data.pending := by rw [all]; rfl
    refine ⟨data', if last.out > last.start then
      last.calls ++ [(last.memory.take last.out).drop last.start] else last.calls,
      last.outSize + (last.out - last.start), ?_, stillValid, by rw [pending, kept], ?_⟩
    · rw [decodeBase64Buffer, if_neg empty, token]
      simp only [looped, stored, bind_eq_bind, bind_some]
    · have fresh : DecodeState.written
          { memory := buffer, start := 0, index := 0, out := 0,
            leftover := decide (data.tokenSize > 0), calls := [], outSize := 0 } = [] := by
        simp [DecodeState.written]
      rw [fresh, nil_append, DecodeState.written] at written
      rw [← written]
      split
      · rw [flatten_append, flatten_singleton]
      · rename_i notMore
        have same : last.out = last.start := by omega
        rw [same, drop_take_self, append_nil]

/-- Any cut of the text into calls. -/
theorem decodeAll_spec (valid : data.Valid)
    (buffers : List (List UInt8)) :
    ∃ data' calls, decodeAll data buffers = some (data', calls) ∧ data'.Valid ∧
      data'.pending = Lib.leftover 4 (data.pending ++ buffers.flatten.filter isBase64) ∧
      calls.flatten =
        (blocks 4 (data.pending ++ buffers.flatten.filter isBase64)).flatMap decodeQuad := by
  induction buffers generalizing data with
  | nil =>
    have short : data.pending.length < 4 := by
      have size := valid.size
      rw [MimeDecoderData.pending, length_take]
      omega
    refine ⟨data, [], rfl, valid, ?_, ?_⟩
    · rw [flatten_nil, filter_nil, append_nil, leftover_short short]
    · rw [flatten_nil, filter_nil, append_nil, blocks_short short,
        flatMap_nil]
  | cons buffer buffers ih =>
    obtain ⟨next, calls, outSize, decoded, nextValid, pending, written⟩ :=
      decodeBase64Buffer_spec valid buffer
    obtain ⟨last, more, rest, lastValid, lastPending, lastWritten⟩ := ih nextValid
    obtain ⟨allBlocks, allLeft⟩ :=
      blocks_append (by decide : 0 < 4) (data.pending ++ buffer.filter isBase64)
        (buffers.flatten.filter isBase64)
    refine ⟨last, calls ++ more, ?_, lastValid, ?_, ?_⟩
    · simp only [decodeAll, decoded, rest, bind_eq_bind, bind_some]
    · rw [lastPending, pending, flatten_cons, filter_append, ← append_assoc,
        allLeft]
    · rw [flatten_append, written, lastWritten, pending, flatten_cons,
        filter_append, ← append_assoc, allBlocks, flatMap_append]

end CommCentral.Mime
