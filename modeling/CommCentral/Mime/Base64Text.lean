import CommCentral.Mime.Base64Encode
import Mathlib.Data.Nat.Bitwise
import Mathlib.Tactic.IntervalCases

/-! The text that `Base64Encoder` writes: the bytes in triples, four characters
for each, in lines of 72 characters. However the bytes are cut into calls, the
encoder writes the text of all of them and keeps the bytes after the last triple. -/

namespace CommCentral.Mime

open Lib List Option

/-- The four characters of 24 bits. -/
def quadChars (bits : Nat) : List UInt8 :=
  [18, 12, 6, 0].map fun j => (base64Char (bits / 2 ^ j % 64)).getD 0

/-- The characters of one to three bytes, padded. -/
def encodeQuad : List UInt8 → List UInt8
  | [a, b, c] => quadChars ((a.toNat * 256 + b.toNat) * 256 + c.toNat)
  | [a, b] => (quadChars ((a.toNat * 256 + b.toNat) * 256)).take 3 ++ ['='.toUInt8]
  | [a] => (quadChars (a.toNat * 65536)).take 2 ++ ['='.toUInt8, '='.toUInt8]
  | _ => []

/-- The text of the triples on lines of 72 characters, from a column on. -/
def layout : Nat → List (List UInt8) → List UInt8
  | _, [] => []
  | column, triple :: triples =>
    if column + 4 ≥ 72 then encodeQuad triple ++ crlf ++ layout 0 triples
    else encodeQuad triple ++ layout (column + 4) triples

/-- The column after the text of the triples. -/
def endColumn : Nat → List (List UInt8) → Nat
  | column, [] => column
  | column, _ :: triples =>
    if column + 4 ≥ 72 then endColumn 0 triples else endColumn (column + 4) triples

lemma layout_append (column : Nat) (first second) :
    layout column (first ++ second) =
        layout column first ++ layout (endColumn column first) second ∧
      endColumn column (first ++ second) = endColumn (endColumn column first) second := by
  induction first generalizing column with
  | nil => exact ⟨rfl, rfl⟩
  | cons triple first ih =>
    rw [cons_append, layout, layout, endColumn, endColumn]
    split
    · exact ⟨by simp only [(ih 0).1, append_assoc], (ih 0).2⟩
    · exact ⟨by simp only [(ih _).1, append_assoc], (ih _).2⟩

section
variable {bits : UInt32}

lemma base64Char_isSome (small : k < 64) : ∃ c, base64Char k = some c := by
  unfold base64Char
  split_ifs with upper lower digit plus slash
  · exact ⟨_, rfl⟩
  · exact ⟨_, rfl⟩
  · exact ⟨_, rfl⟩
  · exact ⟨_, rfl⟩
  · exact ⟨_, rfl⟩
  · omega

lemma base64Char_sextet (n : Nat) (j : Nat) :
    base64Char (n / 2 ^ j % 64) = some ((base64Char (n / 2 ^ j % 64)).getD 0) := by
  obtain ⟨c, found⟩ := base64Char_isSome (Nat.mod_lt (n / 2 ^ j) (by decide : 0 < 64))
  rw [found, getD_some]

variable (bits : UInt32)

lemma sextet_toNat (j : UInt32) (small : j < 32) :
    ((bits >>> j) &&& 0x3F).toNat = bits.toNat / 2 ^ j.toNat % 64 := by
  have mask : (0x3F : UInt32).toNat = 2 ^ 6 - 1 := rfl
  have shift : j.toNat % 32 = j.toNat := Nat.mod_eq_of_lt small
  rw [UInt32.toNat_and, mask, Nat.and_two_pow_sub_one_eq_mod, UInt32.toNat_shiftRight, shift,
    Nat.shiftRight_eq_div_pow]

/-- Four characters fit, and no six bits are outside the alphabet. -/
theorem base64EncodeBits_eq (room : out.length + 4 ≤ capacity) :
    base64EncodeBits capacity out bits = some (out ++ quadChars bits.toNat) := by
  have step : ∀ (j : UInt32), j < 32 → ∀ written : List UInt8, written.length < capacity →
      ((base64Char ((bits >>> j) &&& 0x3F).toNat).bind fun c => push capacity written c) =
        some (written ++ [(base64Char (bits.toNat / 2 ^ j.toNat % 64)).getD 0]) := by
    intro j small written space
    rw [sextet_toNat bits j small, base64Char_sextet]
    exact push_of_lt space
  simp only [base64EncodeBits, foldlM_cons, foldlM_nil, bind_eq_bind]
  rw [step 18 (by decide) out (by omega), bind_some,
    step 12 (by decide) _ (by simp only [length_append, length_singleton]; omega),
    bind_some,
    step 6 (by decide) _ (by simp only [length_append, length_singleton]; omega),
    bind_some,
    step 0 (by decide) _ (by simp only [length_append, length_singleton]; omega),
    bind_some]
  simp [quadChars]

lemma quadChars_length (bits : Nat) : (quadChars bits).length = 4 := rfl

lemma quadChars_mod (bits : Nat) : quadChars (bits % 2 ^ 24) = quadChars bits := by
  have first : bits % 2 ^ 24 / 2 ^ 18 % 64 = bits / 2 ^ 18 % 64 := by omega
  have second : bits % 2 ^ 24 / 2 ^ 12 % 64 = bits / 2 ^ 12 % 64 := by omega
  have third : bits % 2 ^ 24 / 2 ^ 6 % 64 = bits / 2 ^ 6 % 64 := by omega
  have fourth : bits % 2 ^ 24 / 2 ^ 0 % 64 = bits / 2 ^ 0 % 64 := by omega
  simp only [quadChars, map_cons, map_nil, first, second, third, fourth]

lemma shiftIn_toNat (byte : UInt8) :
    ((bits <<< 8) ||| byte.toUInt32).toNat = (bits.toNat * 256 + byte.toNat) % 2 ^ 32 := by
  have small : byte.toNat < 2 ^ 8 := byte.toNat_lt
  have whole : byte.toNat % 2 ^ 32 = byte.toNat := Nat.mod_eq_of_lt (by omega)
  have shift : (8 : UInt32).toNat % 32 = 8 := rfl
  rw [UInt32.toNat_or, UInt32.toNat_shiftLeft, shift, UInt8.toNat_toUInt32]
  calc bits.toNat <<< 8 % 2 ^ 32 ||| byte.toNat
      = bits.toNat <<< 8 % 2 ^ 32 ||| byte.toNat % 2 ^ 32 := by rw [whole]
    _ = (bits.toNat <<< 8 ||| byte.toNat) % 2 ^ 32 := (Nat.or_mod_two_pow).symm
    _ = (bits.toNat <<< 8 + byte.toNat) % 2 ^ 32 := by rw [Nat.shiftLeft_add_eq_or_of_lt small]
    _ = (bits.toNat * 256 + byte.toNat) % 2 ^ 32 := by rw [Nat.shiftLeft_eq]

end

/-- The bytes as a number, first byte first. -/
def number (bytes : List UInt8) : Nat := bytes.foldl (fun total byte => total * 256 + byte.toNat) 0

lemma number_concat (bytes) (byte : UInt8) :
    number (bytes ++ [byte]) = number bytes * 256 + byte.toNat := by
  simp only [number, foldl_append, foldl_cons, foldl_nil]

lemma encodeQuad_triple (sized : triple.length = 3) :
    encodeQuad triple = quadChars (number triple) := by
  match triple, sized with
  | [a, b, c], _ => simp [encodeQuad, number]

/-- The low bits are those of the bytes that were read. -/
def Carries (bits : UInt32) (bytes : List UInt8) : Prop :=
  bits.toNat % 256 ^ bytes.length = number bytes

lemma carries_nil (bits : UInt32) : Carries bits [] := Nat.mod_one _

lemma Carries.shiftIn {bits : UInt32} {bytes : List UInt8} {byte : UInt8}
    (carries : Carries bits bytes) (room : bytes.length < 3) :
    Carries ((bits <<< 8) ||| byte.toUInt32) (bytes ++ [byte]) := by
  have small : byte.toNat < 256 := byte.toNat_lt
  unfold Carries at carries ⊢
  rw [shiftIn_toNat, length_append, length_singleton, number_concat, ← carries]
  have cases : bytes.length = 0 ∨ bytes.length = 1 ∨ bytes.length = 2 := by omega
  obtain zero | one | two := cases
  · rw [zero]
    omega
  · rw [one]
    omega
  · rw [two]
    omega

lemma accumulate_spec {bytes : List UInt8} {pending : List UInt8} {bits : UInt32} (rest)
    (room : pending.length + bytes.length ≤ 3) (carries : Carries bits pending) :
    ∃ bits', accumulate bytes.length bits (bytes ++ rest) = some (bits', rest) ∧
      Carries bits' (pending ++ bytes) := by
  induction bytes generalizing pending bits with
  | nil => exact ⟨bits, rfl, by rwa [append_nil]⟩
  | cons byte bytes ih =>
    rw [length_cons] at room
    have space : (pending ++ [byte]).length + bytes.length ≤ 3 := by
      rw [length_append, length_singleton]
      omega
    have fits : pending.length < 3 := by omega
    obtain ⟨bits', read, carried⟩ := ih space (carries.shiftIn fits)
    refine ⟨bits', read, ?_⟩
    rwa [append_assoc, singleton_append] at carried

/-- What `out_buffer` holds is on the current line, and lines end before column 72. -/
structure OutputLine.Valid (line : OutputLine) : Prop where
  short : line.column < 72
  quads : line.column % 4 = 0
  onLine : line.out.length ≤ line.column

/-- The text handed out or waiting in `out_buffer`. -/
def OutputLine.text (line : OutputLine) : List UInt8 := line.calls.flatten ++ line.out

/-- One triple: `out_buffer` never runs over. -/
theorem encodeTriple_spec {line : OutputLine} (valid : line.Valid) {bits : UInt32}
    (sized : triple.length = 3) (carries : Carries bits triple) :
    ∃ line', encodeTriple bits line = some line' ∧ line'.Valid ∧
      line'.text = line.text ++ layout line.column [triple] ∧
      line'.column = endColumn line.column [triple] := by
  have short := valid.short
  have onLine := valid.onLine
  have chars : quadChars bits.toNat = encodeQuad triple := by
    unfold Carries at carries
    rw [sized] at carries
    rw [encodeQuad_triple sized, ← carries]
    exact (quadChars_mod _).symm
  have length : (line.out ++ encodeQuad triple).length = line.out.length + 4 := by
    rw [length_append, ← chars, quadChars_length]
  unfold encodeTriple
  rw [base64EncodeBits_eq bits (by omega), chars, bind_eq_bind, bind_some]
  by_cases full : line.column + 4 ≥ 72
  · have fits : (line.out ++ encodeQuad triple).length + crlf.length ≤ 80 := by
      rw [length]
      change line.out.length + 4 + 2 ≤ 80
      omega
    rw [if_pos full, pushAll_of_le fits]
    refine ⟨_, rfl, ⟨Nat.zero_lt_succ 71, rfl, le_refl _⟩, ?_, ?_⟩
    · simp only [OutputLine.text, layout, if_pos full, flatten_append, flatten_cons,
        flatten_nil, append_nil, append_assoc]
    · simp only [endColumn, if_pos full]
  · have quads := valid.quads
    rw [if_neg full]
    refine ⟨_, rfl, ⟨by change line.column + 4 < 72; omega, ?_, ?_⟩, ?_, ?_⟩
    · change (line.column + 4) % 4 = 0
      omega
    · change (line.out ++ encodeQuad triple).length ≤ line.column + 4
      omega
    · simp only [OutputLine.text, layout, if_neg full, append_nil, append_assoc]
    · simp only [endColumn, if_neg full]

lemma encodeLoop_spec (sized : ∀ triple ∈ triples, triple.length = 3)
    (enough : triples.length ≤ fuel) {pending rest : List UInt8}
    (whole : pending ++ rest = triples.flatten) (kept : pending.length < 3)
    (more : rest = [] → pending = []) {bits : UInt32} (carries : Carries bits pending)
    {line : OutputLine} (valid : line.Valid) :
    ∃ line', encodeLoop fuel pending.length bits rest line = some line' ∧ line'.Valid ∧
      line'.text = line.text ++ layout line.column triples ∧
      line'.column = endColumn line.column triples := by
  induction triples generalizing fuel pending rest bits line with
  | nil =>
    obtain ⟨rfl, rfl⟩ := append_eq_nil_iff.mp whole
    refine ⟨line, ?_, valid, by rw [layout, append_nil], rfl⟩
    cases fuel <;> rfl
  | cons triple triples ih =>
    have tripleSized := sized triple (mem_cons_self ..)
    rw [flatten_cons] at whole
    obtain ⟨bytes, rfl, rfl⟩ : ∃ bytes, triple = pending ++ bytes ∧
        rest = bytes ++ triples.flatten := by
      obtain ⟨bytes, front, back⟩ | ⟨bytes, front, back⟩ := append_eq_append_iff.mp whole
      · exact ⟨bytes, front, back⟩
      · have lengths := congrArg List.length front
        rw [length_append] at lengths
        omega
    rw [length_append] at tripleSized
    obtain ⟨bits', read, carried⟩ :=
      accumulate_spec triples.flatten (by omega : pending.length + bytes.length ≤ 3) carries
    obtain ⟨next, encoded, nextValid, text, column⟩ :=
      encodeTriple_spec valid (by rw [length_append]; exact tripleSized) carried
    cases fuel with
    | zero => simp at enough
    | succ fuel =>
      have enough' : triples.length ≤ fuel := by simpa using enough
      obtain ⟨last, looped, lastValid, lastText, lastColumn⟩ :=
        ih (fun other mem => sized other (mem_cons_of_mem _ mem)) enough'
          (nil_append _) (by decide) (fun _ => rfl) (carries_nil bits') nextValid
      have split := layout_append line.column [pending ++ bytes] triples
      rw [singleton_append] at split
      refine ⟨last, ?_, lastValid, ?_, ?_⟩
      · cases bytes with
        | nil =>
          simp only [length_nil] at tripleSized
          omega
        | cons byte bytes =>
          have missing : 3 - pending.length = (byte :: bytes).length := by omega
          rw [cons_append, encodeLoop, missing, ← cons_append, read]
          · simp only [bind_eq_bind, bind_some, encoded]
            exact looped
          · exact cons_ne_nil _ _
      · rw [lastText, text, split.1, column, append_assoc]
      · rw [lastColumn, split.2, column]

/-- An encoder between two calls. -/
structure Base64Encoder.Valid (encoder : Base64Encoder) : Prop where
  capacity : encoder.inBuffer.length = 3
  count : encoder.inBufferCount < 3
  short : encoder.mCurrentColumn < 72
  quads : encoder.mCurrentColumn % 4 = 0

/-- The bytes that wait for the next call. -/
def Base64Encoder.pending (encoder : Base64Encoder) : List UInt8 :=
  encoder.inBuffer.take encoder.inBufferCount

lemma Base64Encoder.init_valid : Base64Encoder.init.Valid where
  capacity := rfl
  count := by decide
  short := by decide
  quads := rfl

section
variable {encoder : Base64Encoder}

lemma Base64Encoder.Valid.pending_length (valid : encoder.Valid) :
    encoder.pending.length = encoder.inBufferCount := by
  have capacity := valid.capacity
  have count := valid.count
  rw [pending, length_take]
  omega

lemma keepBytes_spec (valid : encoder.Valid) (nonempty : buffer ≠ [])
    (small : buffer.length < 3 - encoder.inBufferCount) :
    ∃ next, keepBytes encoder buffer = some next ∧ next.Valid ∧
      next.pending = encoder.pending ++ buffer ∧
      next.mCurrentColumn = encoder.mCurrentColumn := by
  obtain ⟨inBuffer, count, column⟩ := encoder
  obtain ⟨capacity, -, short, quads⟩ := valid
  match inBuffer, capacity with
  | [a, b, c], _ =>
    match buffer, nonempty with
    | [first], _ =>
      have counts : count = 0 ∨ count = 1 := by
        simp only [length_singleton] at small
        omega
      cases counts with
      | inl zero =>
        subst zero
        exact ⟨_, rfl, ⟨rfl, Nat.succ_lt_succ (Nat.succ_pos 1), short, quads⟩, rfl, rfl⟩
      | inr one =>
        subst one
        exact ⟨_, rfl, ⟨rfl, Nat.lt_succ_self 2, short, quads⟩, rfl, rfl⟩
    | [first, second], _ =>
      have zero : count = 0 := by
        simp only [length_cons, length_nil] at small
        omega
      subst zero
      exact ⟨_, rfl, ⟨rfl, Nat.lt_succ_self 2, short, quads⟩, rfl, rfl⟩
    | _ :: _ :: _ :: _, _ =>
      simp only [length_cons] at small
      omega

lemma pendingBits_spec (valid : encoder.Valid) :
    ∃ bits, pendingBits encoder = some bits ∧ Carries bits encoder.pending := by
  obtain ⟨inBuffer, count, column⟩ := encoder
  obtain ⟨capacity, bounded, -, -⟩ := valid
  match inBuffer, capacity with
  | [a, b, c], _ =>
    have single : Carries a.toUInt32 [a] := by
      have small : a.toNat < 256 := a.toNat_lt
      simp only [Carries, number, UInt8.toNat_toUInt32, length_singleton, foldl_cons,
        foldl_nil]
      omega
    match count, bounded with
    | 0, _ => exact ⟨0, rfl, carries_nil 0⟩
    | 1, _ => exact ⟨a.toUInt32, rfl, single⟩
    | 2, _ =>
      have sum : (a.toUInt32 <<< 8) + b.toUInt32 = (a.toUInt32 <<< 8) ||| b.toUInt32 := by
        have shift : (8 : UInt32).toNat % 32 = 8 := rfl
        apply UInt32.toNat_inj.mp
        rw [shiftIn_toNat, UInt32.toNat_add, UInt32.toNat_shiftLeft, shift, Nat.shiftLeft_eq,
          UInt8.toNat_toUInt32, UInt8.toNat_toUInt32]
        omega
      refine ⟨(a.toUInt32 <<< 8) + b.toUInt32, rfl, ?_⟩
      rw [sum]
      exact single.shiftIn (Nat.succ_lt_succ (Nat.succ_pos 1))

lemma putBack_spec (inBuffer) (capacity : inBuffer.length = 3) {excess : Nat} (few : excess < 3)
    (enough : excess ≤ buffer.length) :
    ∃ next, putBack inBuffer buffer excess = some next ∧ next.length = 3 ∧
      next.take excess = buffer.drop (buffer.length - excess) := by
  obtain ⟨front, back, rfl, sized⟩ : ∃ front back, buffer = front ++ back ∧
      back.length = excess := by
    refine ⟨_, _, (take_append_drop (buffer.length - excess) buffer).symm, ?_⟩
    rw [length_drop]
    omega
  subst sized
  match inBuffer, capacity with
  | [a, b, c], _ =>
    match back, few with
    | [], _ => exact ⟨[a, b, c], rfl, rfl, by simp⟩
    | [last], _ =>
      refine ⟨[last, b, c], ?_, rfl, ?_⟩
      · simp [putBack, store]
      · simp
    | [second, last], _ =>
      refine ⟨[second, last, c], ?_, rfl, ?_⟩
      · simp [putBack, store]
      · simp
    | _ :: _ :: _ :: _, few =>
      simp only [length_cons] at few
      omega

/-- What a call of `Write` does: it stays inside its buffers, writes the text of
the triples that are complete, and keeps the other bytes. -/
structure WriteSpec (encoder : Base64Encoder) (buffer : List UInt8)
    (result : Base64Encoder × List (List UInt8)) : Prop where
  valid : result.1.Valid
  pending : result.1.pending = leftover 3 (encoder.pending ++ buffer)
  text : result.2.flatten =
    layout encoder.mCurrentColumn (blocks 3 (encoder.pending ++ buffer))
  column : result.1.mCurrentColumn =
    endColumn encoder.mCurrentColumn (blocks 3 (encoder.pending ++ buffer))

lemma Base64Encoder.write_waits {next : Base64Encoder} (valid : next.Valid)
    (kept : next.pending = encoder.pending ++ buffer)
    (column : next.mCurrentColumn = encoder.mCurrentColumn) :
    WriteSpec encoder buffer (next, []) := by
  have short : (encoder.pending ++ buffer).length < 3 := by
    rw [← kept, valid.pending_length]
    exact valid.count
  refine ⟨valid, ?_, ?_, ?_⟩
  · rw [leftover_short short, kept]
  · rw [blocks_short short, layout, flatten_nil]
  · rw [blocks_short short, endColumn, column]

lemma Base64Encoder.write_spec (valid : encoder.Valid) (buffer) :
    ∃ result, encoder.write buffer = some result ∧ WriteSpec encoder buffer result := by
  have pendingLength := valid.pending_length
  have count := valid.count
  by_cases empty : buffer.length = 0
  · have nothing : buffer = [] := eq_nil_of_length_eq_zero empty
    refine ⟨(encoder, []), ?_, write_waits valid ?_ rfl⟩
    · rw [write]
      exact if_pos empty
    · rw [nothing, append_nil]
  by_cases small : buffer.length < 3 - encoder.inBufferCount
  · have nonempty : buffer ≠ [] := fun nothing => empty (by rw [nothing]; rfl)
    obtain ⟨next, kept, nextValid, pending, column⟩ := keepBytes_spec valid nonempty small
    refine ⟨(next, []), ?_, write_waits nextValid pending column⟩
    rw [write]
    simp only [if_neg empty, if_pos small, kept, map_some]
  · have total : (encoder.pending ++ buffer).length =
        buffer.length + encoder.inBufferCount := by
      rw [length_append, pendingLength, Nat.add_comm]
    have remainder : (buffer.length + encoder.inBufferCount) % 3 ≤ 2 :=
      Nat.le_of_lt_succ (Nat.mod_lt _ (by decide))
    obtain ⟨front, back⟩ := blocks_split (by decide : 0 < 3) (encoder.pending ++ buffer)
    rw [total] at front back
    generalize excessEq : (buffer.length + encoder.inBufferCount) % 3 = excess at *
    have cut : buffer.length + encoder.inBufferCount - excess =
        encoder.pending.length + (buffer.length - excess) := by omega
    rw [cut, take_length_add_append] at front
    rw [cut, drop_length_add_append] at back
    obtain ⟨bits, started, carries⟩ := pendingBits_spec valid
    obtain ⟨inBuffer, putBackEq, capacity, taken⟩ :=
      putBack_spec encoder.inBuffer valid.capacity (Nat.lt_succ_of_le remainder)
        (by omega : excess ≤ buffer.length)
    have sized := (blocks_decompose (by decide : 0 < 3) (encoder.pending ++ buffer)).1
    have lengths := flatten_length sized
    rw [front, length_append, length_take, pendingLength] at lengths
    have lineValid : OutputLine.Valid
        { column := encoder.mCurrentColumn, out := [], calls := [] } :=
      ⟨valid.short, valid.quads, Nat.zero_le _⟩
    obtain ⟨line, looped, nextValid, text, column⟩ :=
      encodeLoop_spec sized (by omega : (blocks 3 (encoder.pending ++ buffer)).length ≤ buffer.length)
        front.symm (by omega) (by
          intro nothing
          have noBytes := congrArg List.length nothing
          rw [length_take, length_nil] at noBytes
          apply eq_nil_of_length_eq_zero
          omega) carries lineValid
    rw [pendingLength] at looped
    refine ⟨({ inBuffer, inBufferCount := excess, mCurrentColumn := line.column },
      if line.out = [] then line.calls else line.calls ++ [line.out]), ?_, ?_⟩
    · rw [write]
      simp only [if_neg empty, if_neg small, started, excessEq, putBackEq, looped,
        bind_eq_bind, bind_some]
    · refine ⟨⟨capacity, Nat.lt_succ_of_le remainder, nextValid.short, nextValid.quads⟩, ?_, ?_,
        column⟩
      · rw [back]
        exact taken
      · rw [OutputLine.text, OutputLine.text, flatten_nil, nil_append,
          nil_append] at text
        change (if line.out = [] then line.calls else line.calls ++ [line.out]).flatten = _
        split
        · rename_i nothing
          rwa [nothing, append_nil] at text
        · rwa [flatten_append, flatten_singleton]

/-- Any cut of the bytes into calls. -/
theorem Base64Encoder.writeAll_spec (valid : encoder.Valid) (buffers : List (List UInt8)) :
    ∃ result, encoder.writeAll buffers = some result ∧
      WriteSpec encoder buffers.flatten result := by
  induction buffers generalizing encoder with
  | nil => exact ⟨(encoder, []), rfl, write_waits valid (by simp) rfl⟩
  | cons buffer buffers ih =>
    obtain ⟨⟨next, calls⟩, written, spec⟩ := write_spec valid buffer
    obtain ⟨⟨last, more⟩, rest, restSpec⟩ := ih spec.valid
    obtain ⟨allBlocks, allLeft⟩ :=
      blocks_append (by decide : 0 < 3) (encoder.pending ++ buffer) buffers.flatten
    have kept : next.pending = leftover 3 (encoder.pending ++ buffer) := spec.pending
    have column : next.mCurrentColumn =
        endColumn encoder.mCurrentColumn (blocks 3 (encoder.pending ++ buffer)) := spec.column
    refine ⟨(last, calls ++ more), ?_, restSpec.valid, ?_, ?_, ?_⟩
    · simp only [writeAll, written, rest, bind_eq_bind, bind_some]
    · rw [restSpec.pending, kept, flatten_cons, ← append_assoc, allLeft]
    · rw [flatten_append, spec.text, restSpec.text, flatten_cons, ← append_assoc,
        allBlocks, (layout_append _ _ _).1, kept, column]
    · rw [restSpec.column, flatten_cons, ← append_assoc, allBlocks,
        (layout_append _ _ _).2, kept, column]

end

lemma Base64Encoder.flush_spec {encoder : Base64Encoder} (valid : encoder.Valid) :
    ∃ calls, encoder.flush = some calls ∧ calls.flatten = encodeQuad encoder.pending := by
  obtain ⟨inBuffer, count, column⟩ := encoder
  obtain ⟨capacity, bounded, -, -⟩ := valid
  match inBuffer, capacity with
  | [a, b, c], _ =>
    have aSmall : a.toNat < 256 := a.toNat_lt
    have shift : (16 : UInt32).toNat % 32 = 16 := rfl
    have first : (a.toUInt32 <<< 16).toNat = a.toNat * 65536 := by
      rw [UInt32.toNat_shiftLeft, shift, Nat.shiftLeft_eq, UInt8.toNat_toUInt32]
      omega
    match count, bounded with
    | 0, _ => exact ⟨[], rfl, rfl⟩
    | 1, _ =>
      have bits : flushBits ⟨[a, b, c], 1, column⟩ = some (a.toUInt32 <<< 16) := rfl
      have encoded := base64EncodeBits_eq (a.toUInt32 <<< 16)
        (by decide : ([] : List UInt8).length + 4 ≤ 4)
      rw [first] at encoded
      refine ⟨[encodeQuad [a]], ?_, by simp [pending]⟩
      simp only [flush, bits, encoded, bind_eq_bind, bind_some]
      rfl
    | 2, _ =>
      have bits : flushBits ⟨[a, b, c], 2, column⟩ =
          some ((a.toUInt32 <<< 16) ||| (b.toUInt32 <<< 8)) := rfl
      have both : ((a.toUInt32 <<< 16) ||| (b.toUInt32 <<< 8)).toNat =
          (a.toNat * 256 + b.toNat) * 256 := by
        have bSmall : b.toNat < 256 := b.toNat_lt
        have shiftB : (8 : UInt32).toNat % 32 = 8 := rfl
        have second : (b.toUInt32 <<< 8).toNat = b.toNat * 256 := by
          rw [UInt32.toNat_shiftLeft, shiftB, Nat.shiftLeft_eq, UInt8.toNat_toUInt32]
          omega
        have low : b.toNat * 256 < 2 ^ 16 := by omega
        have joined : a.toNat * 65536 + b.toNat * 256 = a.toNat * 65536 ||| b.toNat * 256 := by
          have whole := Nat.shiftLeft_add_eq_or_of_lt low a.toNat
          rw [Nat.shiftLeft_eq] at whole
          exact whole
        rw [UInt32.toNat_or, first, second, ← joined]
        omega
      have encoded := base64EncodeBits_eq ((a.toUInt32 <<< 16) ||| (b.toUInt32 <<< 8))
        (by decide : ([] : List UInt8).length + 4 ≤ 4)
      rw [both] at encoded
      refine ⟨[encodeQuad [a, b]], ?_, by simp [pending]⟩
      simp only [flush, bits, encoded, bind_eq_bind, bind_some]
      rfl

end CommCentral.Mime
