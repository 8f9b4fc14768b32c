import CommCentral.Mime.QPDecode

/-! The decoders of base64 and quoted-printable store in `*outSize` the number of bytes
that they pass to `write_buffer`. -/

namespace CommCentral.Mime

open Lib List Option

lemma fillToken_index (length index : Nat)
    (filled : fillToken buffer length index token = some result) :
    result.2.1 + result.2.2 = index + length := by
  induction length generalizing index token with
  | zero =>
    cases filled
    rfl
  | succ length ih =>
    rw [fillToken] at filled
    split at filled
    · obtain ⟨c, -, filled⟩ := bind_eq_some_iff.mp filled
      obtain ⟨taken, -, filled⟩ := bind_eq_some_iff.mp filled
      have next := ih (index + 1) filled
      omega
    · cases filled
      rfl

/-- The bytes written so far are counted. -/
structure DecodeState.Counted (state : DecodeState) (length : Nat) : Prop where
  inside : state.index + length = state.memory.length
  fits : state.out ≤ state.memory.length
  order : state.start ≤ state.out
  counted : state.calls.flatten.length = state.outSize

lemma overwrite_length {start : Nat} (written : overwrite memory start items = some result) :
    result.length = memory.length ∧ start + items.length ≤ memory.length := by
  rw [overwrite] at written
  split at written
  · rename_i inside
    cases written
    refine ⟨?_, inside⟩
    simp only [length_append, length_take, length_drop]
    omega
  · cases written

lemma decodeBase64Token_length {token bytes : List UInt8}
    (decoded : decodeBase64Token token = some (bytes, n)) : bytes.length = 3 ∧ n ≤ 3 := by
  unfold decodeBase64Token at decoded
  split at decoded
  · cases decoded
    refine ⟨rfl, ?_⟩
    split
    · exact Nat.le_refl 3
    · split <;> omega
  · cases decoded

lemma DecodeState.Counted.step {state next : DecodeState} {length : Nat}
    (counted : state.Counted length) (stepped : decodeStep token state = some next) :
    next.Counted length := by
  rw [decodeStep] at stepped
  obtain ⟨⟨bytes, n⟩, decoded, stepped⟩ := bind_eq_some_iff.mp stepped
  obtain ⟨three, few⟩ := decodeBase64Token_length decoded
  have inside := counted.inside
  have order := counted.order
  dsimp only at stepped
  split at stepped
  · cases stepped
    refine ⟨inside, ?_, Nat.le_refl _, ?_⟩
    · change state.index ≤ state.memory.length
      omega
    · change (state.calls ++ [bytes.take n]).flatten.length = state.outSize + n
      rw [flatten_append, flatten_singleton, length_append, counted.counted,
        length_take, three]
      omega
  · obtain ⟨memory, written, stepped⟩ := bind_eq_some_iff.mp stepped
    obtain ⟨same, room⟩ := overwrite_length written
    cases stepped
    refine ⟨?_, ?_, ?_, counted.counted⟩
    · change state.index + length = memory.length
      omega
    · change state.out + n ≤ memory.length
      omega
    · change state.start ≤ state.out + n
      omega

lemma DecodeState.Counted.loop {fuel length : Nat} (counted : state.Counted length)
    (looped : decodeLoop fuel length token state = some result) :
    ∃ rest, result.2.Counted rest := by
  induction fuel generalizing length token state with
  | zero =>
    cases length with
    | zero =>
      cases looped
      exact ⟨0, counted⟩
    | succ length => cases looped
  | succ fuel ih =>
    cases length with
    | zero =>
      cases looped
      exact ⟨0, counted⟩
    | succ length =>
      rw [decodeLoop] at looped
      case x_4 => exact Nat.succ_ne_zero length
      obtain ⟨⟨token', index, length'⟩, filled, looped⟩ := bind_eq_some_iff.mp looped
      have total := fillToken_index (length + 1) state.index filled
      dsimp only at total looped
      have moved : DecodeState.Counted { state with index } length' := by
        refine ⟨?_, counted.fits, counted.order, counted.counted⟩
        change index + length' = state.memory.length
        rw [total]
        exact counted.inside
      split at looped
      · cases looped
        exact ⟨length', moved⟩
      · obtain ⟨next, stepped, looped⟩ := bind_eq_some_iff.mp looped
        exact ih (moved.step stepped) looped

lemma decodeBase64Buffer_outSize (valid : data.Valid) (buffer) :
    ∃ data' calls outSize, decodeBase64Buffer data buffer = some (data', calls, outSize) ∧
      data'.Valid ∧ outSize = calls.flatten.length := by
  obtain ⟨data', calls, outSize, called, valid', -⟩ := decodeBase64Buffer_spec valid buffer
  refine ⟨data', calls, outSize, called, valid', ?_⟩
  rw [decodeBase64Buffer] at called
  split at called
  · cases called
    rfl
  · obtain ⟨⟨waiting, state⟩, looped, called⟩ := bind_eq_some_iff.mp called
    obtain ⟨kept, -, called⟩ := bind_eq_some_iff.mp called
    have start : DecodeState.Counted
        { memory := buffer, start := 0, index := 0, out := 0,
          leftover := decide (data.tokenSize > 0), calls := [], outSize := 0 } buffer.length :=
      ⟨Nat.zero_add _, Nat.zero_le _, Nat.le_refl 0, rfl⟩
    obtain ⟨rest, counted⟩ := start.loop looped
    have fits := counted.fits
    have order := counted.order
    have written := counted.counted
    dsimp only at fits order written
    cases called
    split
    · rw [flatten_append, flatten_singleton, length_append, written,
        length_drop, length_take]
      omega
    · rw [written]
      omega

/-- The decoded bytes stay behind the characters read, whatever these are. -/
structure QPState.Behind (state : QPState) : Prop where
  inside : state.index + state.length = state.memory.length
  out : state.out ≤ state.index
  token : state.out + state.token.length ≤ state.index + 2

lemma passThrough_total {state : QPState} (inside : state.index ≤ state.memory.length)
    (out : state.out ≤ state.index) (token) :
    ∃ memory out', state.passThrough token = some { state with memory := memory, out := out' } ∧
      memory.length = state.memory.length ∧ out' ≤ state.index := by
  induction token generalizing state with
  | nil => exact ⟨state.memory, state.out, rfl, rfl, out⟩
  | cons c token ih =>
    change ∃ memory out', (if state.index > state.out then state.emit c else some state).bind
      (fun state => state.passThrough token) = _ ∧ _
    by_cases space : state.index > state.out
    · obtain ⟨next, emitted, shape, sameLength, -⟩ := @emit_spec state c (by omega)
      have index : next.index = state.index := by rw [shape]
      have nextOut : next.out = state.out + 1 := by rw [shape]
      obtain ⟨memory, out', passed, length, below⟩ := @ih next (by omega) (by omega)
      rw [if_pos space, emitted, bind_some, passed]
      refine ⟨memory, out', ?_, by omega, by omega⟩
      rw [shape]
    · rw [if_neg space, bind_some]
      exact ih inside out

variable (treatNullAsSpace : Bool)

lemma qpStep_total {state : QPState} (full : state.token.length = 3)
    (room : state.out < state.index) (inside : state.index ≤ state.memory.length) :
    ∃ state', qpStep treatNullAsSpace state = some state' ∧ state'.token.length ≤ 2 ∧
      state'.memory.length = state.memory.length ∧
      state'.index + state'.length = state.index + state.length ∧ state'.out ≤ state'.index ∧
      state'.out + state'.token.length ≤ state'.index + 2 ∧
      2 * state'.length + state'.token.length ≤ 2 * state.length + 2 := by
  match shape : state.token, full with
  | [t0, t1, t2], _ =>
    have emits : ∀ (c : UInt8) (token : List UInt8), token.length ≤ 2 →
        ∃ state', ({ state with token := [] } : QPState).emit c = some state' ∧
          state'.token = [] ∧ state'.memory.length = state.memory.length ∧
          state'.index = state.index ∧ state'.length = state.length ∧
          state'.out = state.out + 1 := by
      intro c token _
      obtain ⟨next, emitted, same, length, -⟩ :=
        @emit_spec { state with token := [] } c (by change state.out < state.memory.length; omega)
      refine ⟨next, emitted, ?_, length, ?_, ?_, ?_⟩ <;> rw [same]
    have passes : ∃ state', ({ state with token := [] } : QPState).passThrough [t0, t1, t2] =
        some state' ∧ state'.token.length ≤ 2 ∧ state'.memory.length = state.memory.length ∧
        state'.index + state'.length = state.index + state.length ∧ state'.out ≤ state'.index ∧
        state'.out + state'.token.length ≤ state'.index + 2 ∧
        2 * state'.length + state'.token.length ≤ 2 * state.length + 2 := by
      obtain ⟨memory, out', passed, length, below⟩ :=
        @passThrough_total { state with token := [] } inside (Nat.le_of_lt room) [t0, t1, t2]
      refine ⟨_, passed, Nat.zero_le 2, length, rfl, below, ?_, Nat.le_add_right _ _⟩
      change out' + 0 ≤ state.index + 2
      change out' ≤ state.index at below
      omega
    rw [qpStep, shape]
    dsimp only
    split
    · split
      · split
        · rename_i high _ _ low _
          obtain ⟨next, emitted, token, length, index, left, out⟩ := emits
            (if UInt8.ofNat (high * 16 + low) ≠ 0 then UInt8.ofNat (high * 16 + low)
              else if treatNullAsSpace then 0x20 else UInt8.ofNat (high * 16 + low)) [] (by simp)
          have none : next.token.length = 0 := congrArg List.length token
          refine ⟨next, emitted, ?_, length, ?_, ?_, ?_, ?_⟩ <;> omega
        · exact passes
      · split
        · split
          · refine ⟨_, rfl, Nat.zero_le 2, rfl, rfl, Nat.le_of_lt room, ?_, Nat.le_add_right _ _⟩
            change state.out + 0 ≤ state.index + 2
            omega
          · refine ⟨_, rfl, Nat.zero_le 2, rfl, ?_, ?_, ?_, ?_⟩
            · change state.index - 1 + (state.length + 1) = state.index + state.length
              omega
            · change state.out ≤ state.index - 1
              omega
            · change state.out + 0 ≤ state.index - 1 + 2
              omega
            · change 2 * (state.length + 1) + 0 ≤ 2 * state.length + 2
              omega
        · exact passes
    · obtain ⟨next, emitted, token, length, index, left, out⟩ := emits t0 [t1, t2] (by simp)
      refine ⟨{ next with token := [t1, t2] }, ?_, Nat.le_refl 2, length, ?_, ?_, ?_, ?_⟩
      · rw [emitted]
        rfl
      · change next.index + next.length = state.index + state.length
        omega
      · change next.out ≤ next.index
        omega
      · change next.out + 2 ≤ next.index + 2
        omega
      · change 2 * next.length + 2 ≤ 2 * state.length + 2
        omega

/-- The loop ends inside the buffer; at most two characters are kept. -/
theorem qpLoop_total (fuel : Nat) {state : QPState} (behind : state.Behind)
    (short : state.token.length ≤ 2) (enough : 2 * state.length + state.token.length < fuel) :
    ∃ waiting state', qpLoop treatNullAsSpace fuel state = some (waiting, state') ∧
      (waiting.getD []).length ≤ 2 ∧ state'.out ≤ state'.memory.length := by
  induction fuel generalizing state with
  | zero => omega
  | succ fuel ih =>
    have inside := behind.inside
    have out := behind.out
    have token := behind.token
    rw [qpLoop]
    by_cases goes : state.length > 0 ∨ state.token ≠ []
    · obtain ⟨token', index, length, used, filled, inside', indexEq, -, tokenEq, room, stopped⟩ :=
        qpFill_spec state.length state.index (Nat.le_succ_of_le short) inside
      have tokenLength := congrArg List.length tokenEq
      rw [length_append] at tokenLength
      simp only [if_pos goes, filled, bind_eq_bind, bind_some]
      by_cases few : token'.length < 3
      · rw [if_pos few]
        refine ⟨some token', _, rfl, Nat.le_of_lt_succ few, ?_⟩
        change state.out ≤ state.memory.length
        omega
      · rw [if_neg few]
        obtain ⟨next, stepped, nextShort, sameLength, sum, nextOut, nextToken, less⟩ :=
          @qpStep_total treatNullAsSpace { state with token := token', index, length }
            (Nat.le_antisymm room (Nat.not_lt.mp few)) (by change state.out < index; omega)
            (by change index ≤ state.memory.length; omega)
        rw [stepped, bind_some]
        dsimp only at sum sameLength less
        exact ih ⟨by omega, nextOut, nextToken⟩ nextShort (by omega)
    · rw [if_neg goes]
      refine ⟨none, state, rfl, Nat.zero_le 2, ?_⟩
      omega

lemma decodeQPBuffer_outSize (valid : data.Valid) (short : data.tokenSize ≤ 2) (buffer) :
    ∃ data' calls outSize,
      decodeQPBuffer treatNullAsSpace data buffer = some (data', calls, outSize) ∧
      data'.Valid ∧ data'.tokenSize ≤ 2 ∧ outSize = calls.flatten.length := by
  have size := valid.pending_length
  have all : min 3 data.tokenSize = data.tokenSize := by omega
  have token : data.token.take (min 3 data.tokenSize) = data.pending := by rw [all]; rfl
  have start : QPState.Behind
      { memory := buffer, index := 0, length := buffer.length, out := 0, token := data.pending } := by
    refine ⟨Nat.zero_add _, Nat.le_refl 0, ?_⟩
    change 0 + data.pending.length ≤ 0 + 2
    omega
  obtain ⟨waiting, last, looped, few, inside⟩ :=
    qpLoop_total treatNullAsSpace (2 * buffer.length + data.pending.length + 1) start
      (by change data.pending.length ≤ 2; omega) (Nat.lt_succ_self _)
  obtain ⟨data', stored, stillValid, stillShort⟩ : ∃ data',
      MimeDecoderData.keepWaiting
          { data with tokenSize := data.tokenSize - min 3 data.tokenSize } waiting = some data' ∧
        data'.Valid ∧ data'.tokenSize ≤ 2 := by
    cases waiting with
    | none =>
      have nothing : data.tokenSize - min 3 data.tokenSize = 0 := by omega
      refine ⟨_, rfl, ⟨valid.capacity, ?_⟩, ?_⟩
      · rw [nothing]
        exact Nat.succ_pos 3
      · rw [nothing]
        exact Nat.zero_le 2
    | some token =>
      obtain ⟨kept, stored, keptValid, pending⟩ := MimeDecoderData.Valid.keep valid.capacity
        (Nat.lt_succ_of_lt (Nat.lt_succ_of_le few))
      refine ⟨kept, stored, keptValid, ?_⟩
      rw [← keptValid.pending_length, pending]
      exact few
  refine ⟨data', if last.out > 0 then [last.memory.take last.out] else [], last.out, ?_,
    stillValid, stillShort, ?_⟩
  · rw [decodeQPBuffer, token]
    simp only [looped, stored, bind_eq_bind, bind_some]
  · split
    · rw [flatten_singleton, length_take]
      omega
    · rename_i nothing
      exact Nat.eq_zero_of_not_pos nothing

end CommCentral.Mime
