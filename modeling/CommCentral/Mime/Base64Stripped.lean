import CommCentral.Mime.Base64RoundTrip
import Mathlib.Data.List.DropRight

/-! Base64 text without its padding. `MimeDecoderDestroy` pads the token that waits
and hands out the four characters as they are, without decoding them. -/

namespace CommCentral.Mime

open Lib List

/-- The characters of some bytes, on one line. -/
def base64Text (bytes : List UInt8) : List UInt8 :=
  (blocks 3 bytes).flatMap encodeQuad ++ encodeQuad (leftover 3 bytes)

/-- A text without the `=` characters at its end. -/
def stripPadding (text : List UInt8) : List UInt8 := text.rdropWhile (· == '='.toUInt8)

/-- The calls of `MimeDecoderWrite` and then `MimeDecoderDestroy` hand out these bytes. -/
def Delivers (pieces : List (List UInt8)) (bytes : List UInt8) : Prop :=
  ∃ decoder decoded flushed, decodeAll MimeDecoderData.init pieces = some (decoder, decoded) ∧
    decoder.destroy = some flushed ∧ (decoded ++ flushed).flatten = bytes

/-- What is left of the last quad: two or three characters, none of them padding. -/
theorem stripPadding_encodeQuad {bytes : List UInt8} (some : bytes ≠ []) (few : bytes.length < 3)
    (front : List UInt8) :
    ∃ kept, stripPadding (front ++ encodeQuad bytes) = front ++ kept ∧ kept ≠ [] ∧
      kept.length < 4 ∧ (∀ c ∈ kept, isBase64 c = true) ∧ kept.head? ≠ .some '='.toUInt8 := by
  match bytes, some with
  | [a], _ =>
    obtain ⟨w, x, y, z, quad, ⟨wEq, xEq, -, -⟩, -⟩ := quadChars_eq (a.toNat * 65536)
    have text : encodeQuad [a] = [w, x] ++ ['='.toUInt8] ++ ['='.toUInt8] := by
      rw [encodeQuad, quad]
      rfl
    have inAlphabet : ∀ c ∈ [w, x], isBase64 c = true := by
      intro c mem
      apply encodeQuad_isBase64 [a]
      rw [text]
      exact mem_append_left _ (mem_append_left _ mem)
    refine ⟨[w, x], ?_, by simp, by simp, inAlphabet, by simpa using wEq⟩
    have last : front ++ [w, x] = (front ++ [w]) ++ [x] := by simp
    rw [text, ← append_assoc, ← append_assoc, stripPadding,
      rdropWhile_concat_pos _ _ _ rfl, rdropWhile_concat_pos _ _ _ rfl, last,
      rdropWhile_concat_neg]
    simpa using xEq
  | [a, b], _ =>
    obtain ⟨w, x, y, z, quad, ⟨wEq, xEq, yEq, -⟩, -⟩ := quadChars_eq ((a.toNat * 256 + b.toNat) * 256)
    have text : encodeQuad [a, b] = [w, x, y] ++ ['='.toUInt8] := by
      rw [encodeQuad, quad]
      rfl
    have inAlphabet : ∀ c ∈ [w, x, y], isBase64 c = true := by
      intro c mem
      apply encodeQuad_isBase64 [a, b]
      rw [text]
      exact mem_append_left _ mem
    refine ⟨[w, x, y], ?_, by simp, by simp, inAlphabet, by simpa using wEq⟩
    have last : front ++ [w, x, y] = (front ++ [w, x]) ++ [y] := by simp
    rw [text, ← append_assoc, stripPadding, rdropWhile_concat_pos _ _ _ rfl, last,
      rdropWhile_concat_neg]
    simpa using yEq
  | _ :: _ :: _ :: _, _ =>
    simp only [length_cons] at few
    omega

lemma encodeQuad_unpadded (sized : triple.length = 3) :
    ∀ c ∈ encodeQuad triple, c ≠ '='.toUInt8 := by
  intro c mem
  rw [encodeQuad_triple sized] at mem
  obtain ⟨j, -, rfl⟩ := mem_map.mp mem
  exact (sextet_spec _ j).2.1

lemma stripPadding_unpadded {text : List UInt8} (unpadded : ∀ c ∈ text, c ≠ '='.toUInt8) :
    stripPadding text = text := by
  apply rdropWhile_eq_self_iff.mpr
  intro some padded
  exact unpadded _ (getLast_mem some) (by simpa using padded)

lemma blocks_triples (bytes : List UInt8) :
    ∀ part ∈ blocks 3 bytes, part ≠ [] ∧ part.length ≤ 3 := by
  intro part mem
  have sized := (blocks_decompose (by decide : 0 < 3) bytes).1 part mem
  refine ⟨?_, sized.le⟩
  intro nothing
  rw [nothing] at sized
  cases sized

lemma triples_isBase64 (bytes) : ∀ c ∈ (blocks 3 bytes).flatMap encodeQuad, isBase64 c = true := by
  intro c mem
  obtain ⟨part, -, inQuad⟩ := mem_flatMap.mp mem
  exact encodeQuad_isBase64 part c inQuad

lemma decodeAll_triples {bytes rest : List UInt8} (short : rest.length < 4)
    (inAlphabet : ∀ c ∈ rest, isBase64 c = true)
    (received : Inserted ((blocks 3 bytes).flatMap encodeQuad ++ rest) pieces.flatten) :
    ∃ decoder decoded, decodeAll MimeDecoderData.init pieces = some (decoder, decoded) ∧
      decoder.Valid ∧ decoder.pending = rest ∧ decoded.flatten = (blocks 3 bytes).flatten := by
  obtain ⟨decoder, decoded, read, valid, pending, output⟩ :=
    decodeAll_spec MimeDecoderData.init_valid pieces
  have characters : MimeDecoderData.init.pending ++ pieces.flatten.filter isBase64 =
      ((blocks 3 bytes).map encodeQuad).flatten ++ rest := by
    rw [received.filter_eq, filter_append,
      filter_eq_self.mpr (triples_isBase64 bytes), filter_eq_self.mpr inAlphabet,
      ← flatMap_def]
    rfl
  have quads : ∀ quad ∈ (blocks 3 bytes).map encodeQuad, quad.length = 4 := by
    intro quad mem
    obtain ⟨part, partIn, rfl⟩ := mem_map.mp mem
    exact encodeQuad_length (blocks_triples bytes part partIn).1 (blocks_triples bytes part partIn).2
  obtain ⟨whole, left⟩ := blocks_unique (by decide : 0 < 4) quads short
  obtain ⟨bare, -⟩ := blocks_unique (by decide : 0 < 4) quads (by decide : ([] : List UInt8).length < 4)
  obtain ⟨-, original⟩ := quads_decode (blocks_triples bytes)
  rw [append_nil] at bare
  rw [bare] at original
  rw [characters] at pending output
  refine ⟨decoder, decoded, read, valid, by rw [pending, left], ?_⟩
  rw [output, whole, original]

/-- A token that waits is handed out as four characters. -/
theorem destroy_pending {decoder : MimeDecoderData} (valid : decoder.Valid)
    (waits : decoder.pending ≠ []) (unpadded : decoder.pending.head? ≠ some '='.toUInt8) :
    ∃ token, decoder.destroy = some [token] ∧ token.length = 4 := by
  have capacity := valid.capacity
  have size := valid.size
  have positive : decoder.tokenSize > 0 := by
    apply Nat.pos_of_ne_zero
    intro zero
    exact waits (by rw [MimeDecoderData.pending, zero, take_zero])
  obtain ⟨c, rest, shape⟩ : ∃ c rest, decoder.token = c :: rest := by
    apply exists_cons_of_ne_nil
    intro nothing
    rw [nothing] at capacity
    cases capacity
  have read : decoder.token[0]? = some c := by
    rw [shape]
    rfl
  have first : c ≠ '='.toUInt8 := by
    intro padding
    apply unpadded
    rw [MimeDecoderData.pending, head?_take, if_neg (by omega), head?_eq_getElem?, read,
      padding]
  refine ⟨decoder.token.take decoder.tokenSize ++
    List.replicate (4 - decoder.tokenSize) '='.toUInt8, ?_, ?_⟩
  · rw [MimeDecoderData.destroy, if_pos positive, read, Option.bind_eq_bind, Option.bind_some,
      if_pos first]
  · rw [length_append, length_take, length_replicate]
    omega

/-- Stripped base64 is decoded completely exactly when nothing was stripped: two or three
characters that wait for the padding are handed out undecoded. -/
theorem strippedDecodes_iff (bytes : List UInt8) (pieces : List (List UInt8))
    (received : Inserted (stripPadding (base64Text bytes)) pieces.flatten) :
    Delivers pieces bytes ↔ bytes.length % 3 = 0 := by
  obtain ⟨sized, short, joined⟩ := blocks_decompose (by decide : 0 < 3) bytes
  have length : bytes.length = 3 * (blocks 3 bytes).length + (leftover 3 bytes).length := by
    conv => lhs; rw [← joined]
    rw [length_append, flatten_length sized, Nat.mul_comm]
  by_cases whole : leftover 3 bytes = []
  · have unpadded : ∀ c ∈ (blocks 3 bytes).flatMap encodeQuad, c ≠ '='.toUInt8 := by
      intro c mem
      obtain ⟨part, partIn, inQuad⟩ := mem_flatMap.mp mem
      exact encodeQuad_unpadded (sized part partIn) c inQuad
    have text : stripPadding (base64Text bytes) = (blocks 3 bytes).flatMap encodeQuad ++ [] := by
      rw [base64Text, whole, encodeQuad, append_nil, stripPadding_unpadded unpadded]
      all_goals simp
    rw [text] at received
    obtain ⟨decoder, decoded, read, valid, pending, output⟩ :=
      decodeAll_triples (by decide) (by simp) received
    rw [whole, append_nil] at joined
    rw [whole, length_nil] at length
    constructor
    · intro _
      omega
    · intro _
      refine ⟨decoder, decoded, [], read, ?_, by rw [append_nil, output, joined]⟩
      have nothing : decoder.tokenSize = 0 := by
        have capacity := valid.capacity
        have lengths := congrArg List.length pending
        rw [MimeDecoderData.pending, length_take, length_nil] at lengths
        have size := valid.size
        omega
      rw [MimeDecoderData.destroy, nothing]
      rfl
  · obtain ⟨kept, stripped, some, few, inAlphabet, unpadded⟩ :=
      stripPadding_encodeQuad whole short ((blocks 3 bytes).flatMap encodeQuad)
    rw [base64Text, stripped] at received
    obtain ⟨decoder, decoded, read, valid, pending, output⟩ :=
      decodeAll_triples few inAlphabet received
    obtain ⟨token, destroyed, four⟩ :=
      destroy_pending valid (by rw [pending]; exact some) (by rw [pending]; exact unpadded)
    have nonempty := length_pos_iff.mpr whole
    constructor
    · rintro ⟨decoder', decoded', flushed', read', destroyed', delivered⟩
      rw [read] at read'
      cases read'
      rw [destroyed] at destroyed'
      cases destroyed'
      have total := congrArg List.length delivered
      rw [flatten_append, output, length_append, flatten_singleton, four,
        flatten_length sized] at total
      omega
    · intro aligned
      omega

lemma stripped_oneByte : stripPadding (base64Text [0x61]) = [0x59, 0x51] := by
  have few : ([0x61] : List UInt8).length < 3 := by decide
  rw [base64Text, blocks_short few, leftover_short few]
  decide

lemma received_oneByte :
    Inserted (stripPadding (base64Text [0x61])) [([0x59, 0x51] : List UInt8)].flatten := by
  rw [stripped_oneByte]
  exact .keep _ (.keep _ .nil)

/-- Of `a`, stripped to `YQ`, the characters `YQ==` are handed out. -/
theorem stripped_not_decoded :
    ¬ ∀ (bytes : List UInt8) (pieces : List (List UInt8)),
      Inserted (stripPadding (base64Text bytes)) pieces.flatten → Delivers pieces bytes := by
  intro claim
  obtain ⟨decoder, decoded, flushed, read, destroyed, delivered⟩ := claim _ _ received_oneByte
  have reads : decodeAll MimeDecoderData.init [([0x59, 0x51] : List UInt8)] =
      some ({ token := [0x59, 0x51, 0, 0], tokenSize := 2 }, []) := by rfl
  rw [reads] at read
  cases read
  have flushes : MimeDecoderData.destroy { token := [0x59, 0x51, 0, 0], tokenSize := 2 } =
      some [[0x59, 0x51, 0x3D, 0x3D]] := by rfl
  rw [flushes] at destroyed
  cases destroyed
  cases delivered

theorem strippedDecodes_iff_oneByte :
    Delivers [[0x59, 0x51]] [0x61] ↔ ([0x61] : List UInt8).length % 3 = 0 :=
  strippedDecodes_iff [0x61] [[0x59, 0x51]] received_oneByte

end CommCentral.Mime
