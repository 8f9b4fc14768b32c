import CommCentral.Mime.Base64Decode

/-! `MimeDecoderData` for quoted-printable: `mime_decode_qp_buffer` reads three characters
at a time and decodes them in place, in the buffer of the caller; one or two
characters wait in `token` for the next call. Every access to a buffer is checked,
and `none` is an access out of range. `write_buffer` succeeds. -/

namespace CommCentral.Mime

open Lib List Option

def hexDigitValue (c : UInt8) : Option Nat :=
  if '0'.toUInt8 ≤ c && c ≤ '9'.toUInt8 then some (c.toNat - '0'.toNat)
  else if 'A'.toUInt8 ≤ c && c ≤ 'F'.toUInt8 then some (c.toNat - ('A'.toNat - 10))
  else if 'a'.toUInt8 ≤ c && c ≤ 'f'.toUInt8 then some (c.toNat - ('a'.toNat - 10))
  else none

/-- The locals of `mime_decode_qp_buffer`: the buffer, `in`, `length`, `out` and the
token read so far. -/
structure QPState where
  memory : List UInt8
  index : Nat
  length : Nat
  out : Nat
  token : List UInt8

/-- `*out++ = c`. -/
def QPState.emit (state : QPState) (c : UInt8) : Option QPState :=
  (store state.memory state.out c).map fun memory => { state with memory, out := state.out + 1 }

/-- A bogus token is passed through, as far as there is space for it. -/
def QPState.passThrough (state : QPState) (token : List UInt8) : Option QPState :=
  token.foldlM
    (fun (state : QPState) c => if state.index > state.out then state.emit c else some state) state

/-- The body of the loop for a full token. -/
def qpStep (treatNullAsSpace : Bool) (state : QPState) : Option QPState :=
  match state.token with
  | [t0, t1, t2] =>
    let next := { state with token := [] }
    if t0 = '='.toUInt8 then
      match hexDigitValue t1 with
      | some high =>
        match hexDigitValue t2 with
        | some low =>
          let c := UInt8.ofNat (high * 16 + low)
          next.emit (if c ≠ 0 then c else if treatNullAsSpace then 0x20 else c)
        | none => next.passThrough [t0, t1, t2]
      | none =>
        if t1 = 0x0D ∨ t1 = 0x0A then
          if t1 = 0x0D ∧ t2 = 0x0A then some next
          else some { next with index := next.index - 1, length := next.length + 1 }
        else next.passThrough [t0, t1, t2]
    else (next.emit t0).map fun next => { next with token := [t1, t2] }
  | _ => none

/-- The inner loop `while (i < 3 && length > 0)`. -/
def qpFill (memory : List UInt8) : Nat → Nat → List UInt8 → Option (List UInt8 × Nat × Nat)
  | 0, index, token => some (token, index, 0)
  | length + 1, index, token =>
    if token.length < 3 then do
      let c ← memory[index]?
      let token ← push 3 token c
      qpFill memory length (index + 1) token
    else some (token, index, length + 1)

/-- The loop `while (length > 0 || i != 0)`; its result holds the characters that
are unread. -/
def qpLoop (treatNullAsSpace : Bool) : Nat → QPState → Option (Option (List UInt8) × QPState)
  | 0, _ => none
  | fuel + 1, state =>
    if state.length > 0 ∨ state.token ≠ [] then do
      let (token, index, length) ← qpFill state.memory state.length state.index state.token
      let state := { state with token, index, length }
      if token.length < 3 then some (some token, state)
      else
        let state ← qpStep treatNullAsSpace state
        qpLoop treatNullAsSpace fuel state
    else some (none, state)

/-- `mime_decode_qp_buffer`: the new state, what `write_buffer` was given, and
`*outSize`. Every round takes a character or shortens the token. -/
def decodeQPBuffer (treatNullAsSpace : Bool) (data : MimeDecoderData) (buffer : List UInt8) :
    Option (MimeDecoderData × List (List UInt8) × Nat) := do
  let token := data.token.take (min 3 data.tokenSize)
  let unread := { data with tokenSize := data.tokenSize - min 3 data.tokenSize }
  let (waiting, state) ← qpLoop treatNullAsSpace (2 * buffer.length + token.length + 1)
    { memory := buffer, index := 0, length := buffer.length, out := 0, token }
  let data ← unread.keepWaiting waiting
  let calls := if state.out > 0 then [state.memory.take state.out] else []
  some (data, calls, state.out)

/-- Several calls of `MimeDecoderWrite`, one after the other. -/
def decodeQPAll (treatNullAsSpace : Bool) (data : MimeDecoderData) :
    List (List UInt8) → Option (MimeDecoderData × List (List UInt8))
  | [] => some (data, [])
  | buffer :: buffers => do
    let (data, calls, _) ← decodeQPBuffer treatNullAsSpace data buffer
    let (data, more) ← decodeQPAll treatNullAsSpace data buffers
    some (data, calls ++ more)

/-- `MimeDecoderDestroy` without an abort: characters that wait are handed out
unless they start a code. -/
def MimeDecoderData.destroyQP (data : MimeDecoderData) : Option (List (List UInt8)) := do
  if data.tokenSize > 0 then
    let first ← data.token[0]?
    if first ≠ '='.toUInt8 then some [data.token.take data.tokenSize] else some []
  else some []

/-! ### Units

Quoted-printable text as a list of units: a character as it is, a character as hex, or a soft line
break. A decoder that starts at a unit reads units, whatever the cuts into calls. -/

inductive QPUnit where
  | raw (c : UInt8)
  | hex (c : UInt8)
  | soft
  deriving DecidableEq, Repr

def hexDigit (n : Nat) : UInt8 := UInt8.ofNat (if n < 10 then n + '0'.toNat else n - 10 + 'A'.toNat)

namespace QPUnit

def text : QPUnit → List UInt8
  | raw c => [c]
  | hex c => ['='.toUInt8, hexDigit (c.toNat / 16), hexDigit (c.toNat % 16)]
  | soft => ['='.toUInt8, 0x0D, 0x0A]

def shownByte (treatNullAsSpace : Bool) (c : UInt8) : UInt8 :=
  if c = 0 ∧ treatNullAsSpace = true then 0x20 else c

def value (treatNullAsSpace : Bool) : QPUnit → List UInt8
  | raw c => [c]
  | hex c => [shownByte treatNullAsSpace c]
  | soft => []

/-- A character that stands for itself is no `=` and no null byte. -/
def Plain : QPUnit → Prop
  | raw c => c ≠ '='.toUInt8 ∧ c ≠ 0
  | _ => True

instance : (unit : QPUnit) → Decidable unit.Plain
  | raw c => inferInstanceAs (Decidable (c ≠ '='.toUInt8 ∧ c ≠ 0))
  | hex _ => isTrue trivial
  | soft => isTrue trivial

end QPUnit

lemma hexDigitValue_hexDigit (n : Nat) (small : n < 16) :
    hexDigitValue (hexDigit n) = some n := by
  revert n
  decide

section
variable {state : QPState}

lemma emit_spec (room : state.out < state.memory.length) :
    ∃ state', state.emit c = some state' ∧
      state' = { state with memory := state'.memory, out := state.out + 1 } ∧
      state'.memory.length = state.memory.length ∧
      (∀ index, state.out < index → state'.memory.drop index = state.memory.drop index) ∧
      state'.memory.take (state.out + 1) = state.memory.take state.out ++ [c] := by
  refine ⟨{ state with memory := state.memory.set state.out c, out := state.out + 1 }, ?_, rfl,
    length_set, ?_, ?_⟩
  · rw [QPState.emit, store_of_lt room]
    rfl
  · intro index after
    exact drop_set_of_lt after
  · change (state.memory.set state.out c).take (state.out + 1) = _
    rw [take_add_one, getElem?_set_self room, take_set_of_le (Nat.le_refl _)]
    rfl

lemma qpFill_spec (length index : Nat) (room : token.length ≤ 3)
    (inside : index + length = memory.length) :
    ∃ token' index' length' used, qpFill memory length index token = some (token', index', length') ∧
      index' + length' = memory.length ∧ index' = index + used.length ∧
      memory.drop index = used ++ memory.drop index' ∧ token' = token ++ used ∧
      token'.length ≤ 3 ∧ (token'.length < 3 → length' = 0) := by
  induction length generalizing index token with
  | zero =>
    exact ⟨token, index, 0, [], rfl, inside, rfl, rfl, (append_nil _).symm, room, fun _ => rfl⟩
  | succ length ih =>
    rw [qpFill]
    by_cases short : token.length < 3
    · have bound : index < memory.length := by omega
      have read : memory[index]? = some memory[index] := getElem?_eq_getElem bound
      have grown : (token ++ [memory[index]]).length ≤ 3 := by
        rw [length_append, length_singleton]
        omega
      obtain ⟨token', index', length', used, filled, inside', indexEq, split, tokenEq, room',
        stopped⟩ := ih (index + 1) grown (by omega)
      refine ⟨token', index', length', memory[index] :: used, ?_, inside', ?_, ?_, ?_, room',
        stopped⟩
      · simp only [if_pos short, read, push_of_lt short, bind_eq_bind, bind_some,
          filled]
      · rw [length_cons]
        omega
      · rw [cons_append, ← split]
        exact drop_eq_getElem_cons bound
      · rw [tokenEq, append_assoc, singleton_append]
    · rw [if_neg short]
      exact ⟨token, index, length + 1, [], rfl, inside, rfl, rfl, (append_nil _).symm, room,
        fun less => absurd less short⟩

lemma qpStep_spec {unit : QPUnit} (plain : unit.Plain) (full : state.token.length = 3)
    (aligned : state.token ++ ahead = unit.text ++ more) (room : state.out < state.index)
    (inside : state.index ≤ state.memory.length) :
    ∃ state', qpStep treatNullAsSpace state = some state' ∧
      state'.token ++ ahead = more ∧ state'.token.length ≤ 2 ∧
      state'.index = state.index ∧ state'.length = state.length ∧ state'.out ≤ state'.index ∧
      state'.memory.length = state.memory.length ∧
      state'.memory.drop state.index = state.memory.drop state.index ∧
      state'.memory.take state'.out =
        state.memory.take state.out ++ unit.value treatNullAsSpace := by
  obtain ⟨memory, index, length, out, token⟩ := state
  match token, full with
  | [t0, t1, t2], _ =>
    have free : out < memory.length := Nat.lt_of_lt_of_le room inside
    cases unit with
    | raw c =>
      obtain ⟨rfl, rest⟩ : t0 = c ∧ [t1, t2] ++ ahead = more := by
        simpa [QPUnit.text] using aligned
      obtain ⟨next, emitted, shape, sameLength, sameAhead, front⟩ :=
        @emit_spec { memory, index, length, out, token := [] } t0 free
      refine ⟨{ next with token := [t1, t2] }, ?_, rest, Nat.le_refl 2, ?_, ?_, ?_, sameLength,
        sameAhead index room, ?_⟩
      · simp only [qpStep, if_neg plain.1, emitted, map_some]
      · rw [shape]
      · rw [shape]
      · rw [shape]
        exact room
      · rw [shape]
        exact front
    | hex c =>
      obtain ⟨rfl, rfl, rfl, rest⟩ : t0 = '='.toUInt8 ∧ t1 = hexDigit (c.toNat / 16) ∧
          t2 = hexDigit (c.toNat % 16) ∧ ahead = more := by
        simpa [QPUnit.text] using aligned
      have small : c.toNat < 256 := c.toNat_lt
      have high := hexDigitValue_hexDigit (c.toNat / 16) (by omega)
      have low := hexDigitValue_hexDigit (c.toNat % 16) (by omega)
      have joined : UInt8.ofNat (c.toNat / 16 * 16 + c.toNat % 16) = c := by
        rw [Nat.div_add_mod' c.toNat 16, UInt8.ofNat_toNat]
      have shown : (if c ≠ 0 then c else if treatNullAsSpace = true then 0x20 else c) =
          QPUnit.shownByte treatNullAsSpace c := by
        unfold QPUnit.shownByte
        by_cases null : c = 0
        · simp [null]
        · simp [null]
      obtain ⟨next, emitted, shape, sameLength, sameAhead, front⟩ :=
        @emit_spec { memory, index, length, out, token := [] }
          (QPUnit.shownByte treatNullAsSpace c) free
      refine ⟨next, ?_, ?_, ?_, ?_, ?_, ?_, sameLength, sameAhead index room, ?_⟩
      · simp only [qpStep, if_true, high, low, joined, shown, emitted]
      · rw [shape]
        exact rest
      · rw [shape]
        exact Nat.zero_le 2
      · rw [shape]
      · rw [shape]
      · rw [shape]
        exact room
      · rw [shape]
        exact front
    | soft =>
      obtain ⟨rfl, rfl, rfl, rest⟩ : t0 = '='.toUInt8 ∧ t1 = 0x0D ∧ t2 = 0x0A ∧
          ahead = more := by
        simpa [QPUnit.text] using aligned
      have noDigit : hexDigitValue 0x0D = none := by decide
      refine ⟨{ memory, index, length, out, token := [] }, ?_, rest, Nat.zero_le 2, rfl, rfl,
        Nat.le_of_lt room, rfl, rfl, ?_⟩
      · simp only [qpStep, if_true, noDigit, true_or, and_self]
      · exact (append_nil _).symm

def unitsText (units : List QPUnit) : List UInt8 := units.flatMap QPUnit.text

def unitsValue (treatNullAsSpace : Bool) (units : List QPUnit) : List UInt8 :=
  units.flatMap (QPUnit.value treatNullAsSpace)

lemma qpLoop_ended (plain : ∀ unit ∈ units, unit.Plain)
    (enough : state.token.length + state.length < fuel) (noLength : state.length = 0)
    (noToken : state.token = []) (behind : state.out ≤ state.index)
    (inside : state.index + state.length = state.memory.length)
    (text : state.token ++ state.memory.drop state.index ++ future = unitsText units) :
    ∃ waiting state' rest produced, qpLoop treatNullAsSpace fuel state = some (waiting, state') ∧
      (∀ unit ∈ rest, unit.Plain) ∧ waiting.getD [] ++ future = unitsText rest ∧
      (waiting.getD []).length ≤ 2 ∧ state'.out ≤ state'.memory.length ∧
      state'.memory.take state'.out = state.memory.take state.out ++ produced ∧
      produced ++ unitsValue treatNullAsSpace rest = unitsValue treatNullAsSpace units := by
  obtain ⟨fuel, rfl⟩ : ∃ rest, fuel = rest + 1 := Nat.exists_eq_succ_of_ne_zero (by omega)
  have ends : ¬ (state.length > 0 ∨ state.token ≠ []) := by
    intro goes
    cases goes with
    | inl positive => omega
    | inr token => exact token noToken
  have nothing : state.memory.drop state.index = [] := drop_of_length_le (by omega)
  rw [noToken, nothing] at text
  refine ⟨none, state, units, [], ?_, plain, text, Nat.zero_le 2, by omega,
    (append_nil _).symm, rfl⟩
  rw [qpLoop, if_neg ends]

/-- The loop reads units as long as it finds three characters. What follows in
later calls is `future`. -/
theorem qpLoop_spec {units : List QPUnit} (plain : ∀ unit ∈ units, unit.Plain) {fuel : Nat}
    {future : List UInt8} (enough : state.token.length + state.length < fuel)
    (inside : state.index + state.length = state.memory.length)
    (behind : state.out ≤ state.index) (short : state.token.length ≤ 2)
    (text : state.token ++ state.memory.drop state.index ++ future = unitsText units) :
    ∃ waiting state' rest produced, qpLoop treatNullAsSpace fuel state = some (waiting, state') ∧
      (∀ unit ∈ rest, unit.Plain) ∧ waiting.getD [] ++ future = unitsText rest ∧
      (waiting.getD []).length ≤ 2 ∧ state'.out ≤ state'.memory.length ∧
      state'.memory.take state'.out = state.memory.take state.out ++ produced ∧
      produced ++ unitsValue treatNullAsSpace rest = unitsValue treatNullAsSpace units := by
  induction units generalizing fuel state with
  | nil =>
    obtain ⟨front, -⟩ := append_eq_nil_iff.mp text
    obtain ⟨noToken, noMemory⟩ := append_eq_nil_iff.mp front
    have atEnd : state.memory.length ≤ state.index := drop_eq_nil_iff.mp noMemory
    exact qpLoop_ended plain enough (by omega) noToken behind inside text
  | cons unit units ih =>
    by_cases goes : state.length > 0 ∨ state.token ≠ []
    · obtain ⟨token, index, length, used, filled, inside', indexEq, split, tokenEq, room,
        stopped⟩ :=
        qpFill_spec state.length state.index (Nat.le_succ_of_le short) inside
      have tokenLength := congrArg List.length tokenEq
      rw [length_append] at tokenLength
      have whole : token ++ (state.memory.drop index ++ future) =
          unit.text ++ unitsText units := by
        rw [tokenEq, append_assoc, ← append_assoc used, ← split, ← append_assoc,
          text]
        rfl
      obtain ⟨fuel, rfl⟩ : ∃ rest, fuel = rest + 1 := Nat.exists_eq_succ_of_ne_zero (by omega)
      by_cases waits : token.length < 3
      · have ended : length = 0 := stopped waits
        have nothing : state.memory.drop index = [] := drop_of_length_le (by omega)
        rw [nothing, nil_append] at whole
        refine ⟨some token, { state with token, index, length }, unit :: units, [], ?_, plain,
          whole, Nat.le_of_lt_succ waits, by change state.out ≤ state.memory.length; omega,
          (append_nil _).symm, rfl⟩
        simp only [qpLoop, if_pos goes, filled, bind_eq_bind, bind_some,
          if_pos waits]
      · have full : token.length = 3 := by omega
        have room : state.out < index := by omega
        have inMemory : index ≤ state.memory.length := by omega
        obtain ⟨next, stepped, aligned, nextShort, sameIndex, sameLength, nextBehind, memoryLength,
          sameAhead, front⟩ :
            ∃ next, qpStep treatNullAsSpace { state with token, index, length } = some next ∧
              next.token ++ (state.memory.drop index ++ future) = unitsText units ∧
              next.token.length ≤ 2 ∧ next.index = index ∧ next.length = length ∧
              next.out ≤ next.index ∧ next.memory.length = state.memory.length ∧
              next.memory.drop index = state.memory.drop index ∧
              next.memory.take next.out =
                state.memory.take state.out ++ unit.value treatNullAsSpace :=
          qpStep_spec (plain unit (mem_cons_self ..)) full whole room inMemory
        have nextText : next.token ++ next.memory.drop next.index ++ future = unitsText units := by
          rw [sameIndex, sameAhead, append_assoc]
          exact aligned
        obtain ⟨waiting, last, rest, produced, looped, restPlain, restText, restShort, inside'',
          written, values⟩ :=
          ih (fun other mem => plain other (mem_cons_of_mem _ mem))
            (by omega : next.token.length + next.length < fuel) (by omega) nextBehind nextShort
            nextText
        refine ⟨waiting, last, rest, unit.value treatNullAsSpace ++ produced, ?_, restPlain, restText,
          restShort, inside'', ?_, ?_⟩
        · simp only [qpLoop, if_pos goes, filled, bind_eq_bind, bind_some,
            if_neg waits, stepped]
          exact looped
        · rw [written, front, append_assoc]
        · rw [append_assoc, values]
          rfl
    · have noToken : state.token = [] := by
        by_contra token
        exact goes (.inr token)
      exact qpLoop_ended plain enough (by omega) noToken behind inside text

end

lemma MimeDecoderData.Valid.pending_length {data : MimeDecoderData} (valid : data.Valid) :
    data.pending.length = data.tokenSize := by
  have capacity := valid.capacity
  have size := valid.size
  rw [MimeDecoderData.pending, length_take]
  omega

section
variable (treatNullAsSpace : Bool)

/-- A call reads units; at most two characters wait for the next one. -/
theorem decodeQPBuffer_spec (plain : ∀ unit ∈ units, unit.Plain) (valid : data.Valid)
    (short : data.pending.length ≤ 2) (buffer : List UInt8)
    (text : data.pending ++ buffer ++ future = unitsText units) :
    ∃ data' calls outSize rest,
      decodeQPBuffer treatNullAsSpace data buffer = some (data', calls, outSize) ∧
      data'.Valid ∧ data'.pending.length ≤ 2 ∧ (∀ unit ∈ rest, unit.Plain) ∧
      data'.pending ++ future = unitsText rest ∧
      calls.flatten ++ unitsValue treatNullAsSpace rest = unitsValue treatNullAsSpace units := by
  have size := valid.pending_length
  have all : min 3 data.tokenSize = data.tokenSize := by omega
  have token : data.token.take (min 3 data.tokenSize) = data.pending := by rw [all]; rfl
  have enough : data.pending.length + buffer.length <
      2 * buffer.length + data.pending.length + 1 := by omega
  obtain ⟨waiting, last, rest, produced, looped, restPlain, restText, restShort, inside, written,
    values⟩ :
      ∃ waiting last rest produced,
        qpLoop treatNullAsSpace (2 * buffer.length + data.pending.length + 1)
          { memory := buffer, index := 0, length := buffer.length, out := 0,
            token := data.pending } = some (waiting, last) ∧
        (∀ unit ∈ rest, unit.Plain) ∧ waiting.getD [] ++ future = unitsText rest ∧
        (waiting.getD []).length ≤ 2 ∧ last.out ≤ last.memory.length ∧
        last.memory.take last.out = buffer.take 0 ++ produced ∧
        produced ++ unitsValue treatNullAsSpace rest = unitsValue treatNullAsSpace units :=
    qpLoop_spec plain enough (Nat.zero_add _) (Nat.le_refl 0) short text
  rw [take_zero, nil_append] at written
  obtain ⟨data', stored, stillValid, pending⟩ : ∃ data',
      MimeDecoderData.keepWaiting
          { data with tokenSize := data.tokenSize - min 3 data.tokenSize } waiting = some data' ∧
        data'.Valid ∧ data'.pending = waiting.getD [] := by
    cases waiting with
    | none =>
      have nothing : data.tokenSize - min 3 data.tokenSize = 0 := by omega
      refine ⟨_, rfl, ⟨valid.capacity, ?_⟩, ?_⟩
      · rw [nothing]
        exact Nat.succ_pos 3
      · rw [MimeDecoderData.pending, nothing]
        rfl
    | some token => exact MimeDecoderData.Valid.keep valid.capacity (Nat.lt_succ_of_lt
        (Nat.lt_succ_of_le restShort))
  refine ⟨data', if last.out > 0 then [last.memory.take last.out] else [], last.out, rest, ?_,
    stillValid, by rw [pending]; exact restShort, restPlain, by rw [pending]; exact restText, ?_⟩
  · rw [decodeQPBuffer, token]
    simp only [looped, stored, bind_eq_bind, bind_some]
  · split
    · rw [flatten_singleton, written, values]
    · rename_i nothing
      have zero : last.out = 0 := Nat.eq_zero_of_not_pos nothing
      rw [zero, take_zero] at written
      rw [← written] at values
      exact values

lemma decodeQPAll_spec (plain : ∀ unit ∈ units, unit.Plain) (valid : data.Valid)
    (short : data.pending.length ≤ 2) (buffers)
    (text : data.pending ++ buffers.flatten = unitsText units) :
    ∃ data' calls rest, decodeQPAll treatNullAsSpace data buffers = some (data', calls) ∧
      data'.Valid ∧ data'.pending.length ≤ 2 ∧ (∀ unit ∈ rest, unit.Plain) ∧
      data'.pending = unitsText rest ∧
      calls.flatten ++ unitsValue treatNullAsSpace rest = unitsValue treatNullAsSpace units := by
  induction buffers generalizing data units with
  | nil =>
    rw [flatten_nil, append_nil] at text
    exact ⟨data, [], units, rfl, valid, short, plain, text, rfl⟩
  | cons buffer buffers ih =>
    rw [flatten_cons, ← append_assoc] at text
    obtain ⟨next, calls, outSize, rest, decoded, nextValid, nextShort, restPlain, restText,
      values⟩ := decodeQPBuffer_spec treatNullAsSpace plain valid short buffer text
    obtain ⟨last, more, final, restDecoded, lastValid, lastShort, finalPlain, finalText,
      finalValues⟩ := ih restPlain nextValid nextShort restText
    refine ⟨last, calls ++ more, final, ?_, lastValid, lastShort, finalPlain, finalText, ?_⟩
    · simp only [decodeQPAll, decoded, restDecoded, bind_eq_bind, bind_some]
    · rw [flatten_append, append_assoc, finalValues, values]

/-- Two characters at the end are no code: they stand for themselves. -/
theorem unitsValue_short (plain : ∀ unit ∈ units, unit.Plain)
    (short : (unitsText units).length ≤ 2) :
    unitsValue treatNullAsSpace units = unitsText units ∧
      ∀ c ∈ unitsText units, c ≠ '='.toUInt8 := by
  induction units with
  | nil => exact ⟨rfl, fun c mem => absurd mem not_mem_nil⟩
  | cons unit units ih =>
    have textEq : unitsText (unit :: units) = unit.text ++ unitsText units := rfl
    have valueEq : unitsValue treatNullAsSpace (unit :: units) =
        unit.value treatNullAsSpace ++ unitsValue treatNullAsSpace units := rfl
    rw [textEq, length_append] at short
    obtain ⟨sameValue, noCode⟩ :=
      ih (fun other mem => plain other (mem_cons_of_mem _ mem)) (by omega)
    cases unit with
    | raw c =>
      rw [textEq, valueEq, sameValue]
      refine ⟨rfl, ?_⟩
      intro d mem
      obtain head | tail := mem_append.mp mem
      · rw [mem_singleton.mp head]
        exact (plain (.raw c) (mem_cons_self ..)).1
      · exact noCode d tail
    | hex c | soft =>
      change 3 + (unitsText units).length ≤ 2 at short
      omega

lemma decodeQPAll_units (plain : ∀ unit ∈ units, unit.Plain) (buffers)
    (text : buffers.flatten = unitsText units) :
    ∃ decoder calls last,
      decodeQPAll treatNullAsSpace MimeDecoderData.init buffers = some (decoder, calls) ∧
      decoder.destroyQP = some last ∧
      (calls ++ last).flatten = unitsValue treatNullAsSpace units := by
  obtain ⟨decoder, calls, rest, decoded, valid, short, restPlain, restText, values⟩ :=
    decodeQPAll_spec treatNullAsSpace plain MimeDecoderData.init_valid (Nat.zero_le 2) buffers text
  rw [restText] at short
  obtain ⟨sameValue, noCode⟩ := unitsValue_short treatNullAsSpace restPlain short
  have size := valid.pending_length
  by_cases waits : decoder.tokenSize > 0
  · obtain ⟨first, others, shape⟩ : ∃ first others, decoder.pending = first :: others := by
      cases pending : decoder.pending with
      | nil =>
        rw [pending, length_nil] at size
        omega
      | cons first others => exact ⟨first, others, rfl⟩
    have found : decoder.token[0]? = some first := by
      have taken : (decoder.token.take decoder.tokenSize)[0]? = some first := by
        change decoder.pending[0]? = some first
        rw [shape]
        rfl
      rwa [getElem?_take_of_lt waits] at taken
    have notCode : first ≠ '='.toUInt8 := by
      apply noCode
      rw [← restText, shape]
      exact mem_cons_self ..
    refine ⟨decoder, calls, [decoder.pending], decoded, ?_, ?_⟩
    · simp only [MimeDecoderData.destroyQP, if_pos waits, found, bind_eq_bind,
        bind_some, if_pos notCode]
      rfl
    · rw [flatten_append, flatten_singleton, restText, ← sameValue, values]
  · have nothing : decoder.pending = [] := by
      apply eq_nil_of_length_eq_zero
      omega
    refine ⟨decoder, calls, [], decoded, ?_, ?_⟩
    · simp only [MimeDecoderData.destroyQP, if_neg waits]
    · rw [append_nil, ← values, sameValue, ← restText, nothing, append_nil]

end

end CommCentral.Mime
