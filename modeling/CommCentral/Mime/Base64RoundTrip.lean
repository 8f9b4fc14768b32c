import CommCentral.Mime.Base64Text
import CommCentral.Mime.Base64Decode

/-! What `Base64Encoder` writes, `MimeDecoderWrite` reads back: whatever the cuts into
calls on either side, and whatever other characters are inserted on the way. -/

namespace CommCentral.Mime

open Lib List

/-- The received text is the sent one with characters inserted that are not part
of the encoding. -/
inductive Inserted : List UInt8 → List UInt8 → Prop where
  | nil : Inserted [] []
  | keep (c : UInt8) (rest : Inserted sent received) : Inserted (c :: sent) (c :: received)
  | insert (c : UInt8) (other : isBase64 c = false) (rest : Inserted sent received) :
      Inserted sent (c :: received)

lemma Inserted.filter_eq (inserted : Inserted sent received) :
    received.filter isBase64 = sent.filter isBase64 := by
  induction inserted with
  | nil => rfl
  | keep c rest ih => rw [filter_cons, filter_cons, ih]
  | insert c other rest ih => rw [filter_cons, other, if_neg Bool.false_ne_true, ih]

/-- Each of the 64 characters is of the encoding, is no padding, and has its value. -/
theorem base64Char_spec (k : Nat) (small : k < 64) :
    isBase64 ((base64Char k).getD 0) = true ∧ (base64Char k).getD 0 ≠ '='.toUInt8 ∧
      base64Value ((base64Char k).getD 0) = k := by
  revert k
  decide

lemma sextet_spec (n j : Nat) :
    isBase64 ((base64Char (n / 2 ^ j % 64)).getD 0) = true ∧
      (base64Char (n / 2 ^ j % 64)).getD 0 ≠ '='.toUInt8 ∧
      base64Value ((base64Char (n / 2 ^ j % 64)).getD 0) = n / 2 ^ j % 64 :=
  base64Char_spec _ (Nat.mod_lt _ (by decide))

lemma quadChars_isBase64 (bits : Nat) : ∀ c ∈ quadChars bits, isBase64 c = true := by
  intro c mem
  obtain ⟨j, -, rfl⟩ := mem_map.mp mem
  exact (sextet_spec bits j).1

lemma encodeQuad_isBase64 (bytes) : ∀ c ∈ encodeQuad bytes, isBase64 c = true := by
  intro c mem
  unfold encodeQuad at mem
  split at mem
  · exact quadChars_isBase64 _ c mem
  · obtain inQuad | padding := mem_append.mp mem
    · exact quadChars_isBase64 _ c (mem_of_mem_take inQuad)
    · rw [mem_singleton.mp padding]
      rfl
  · obtain inQuad | padding := mem_append.mp mem
    · exact quadChars_isBase64 _ c (mem_of_mem_take inQuad)
    · have same : c = '='.toUInt8 := by simpa using padding
      rw [same]
      rfl
  · exact absurd mem not_mem_nil

variable {bytes : List UInt8}

lemma encodeQuad_length (some : bytes ≠ []) (few : bytes.length ≤ 3) :
    (encodeQuad bytes).length = 4 := by
  match bytes, some with
  | [_], _ => rfl
  | [_, _], _ => rfl
  | [_, _, _], _ => rfl
  | _ :: _ :: _ :: _ :: _, _ =>
    simp only [length_cons] at few
    omega

lemma quadChars_eq (bits : Nat) : ∃ w x y z, quadChars bits = [w, x, y, z] ∧
    (w ≠ '='.toUInt8 ∧ x ≠ '='.toUInt8 ∧ y ≠ '='.toUInt8 ∧ z ≠ '='.toUInt8) ∧
    base64Value w = bits / 2 ^ 18 % 64 ∧ base64Value x = bits / 2 ^ 12 % 64 ∧
    base64Value y = bits / 2 ^ 6 % 64 ∧ base64Value z = bits % 64 := by
  have last : bits / 2 ^ 0 % 64 = bits % 64 := by rw [Nat.pow_zero, Nat.div_one]
  refine ⟨_, _, _, _, rfl, ⟨(sextet_spec bits 18).2.1, (sextet_spec bits 12).2.1,
    (sextet_spec bits 6).2.1, ?_⟩, (sextet_spec bits 18).2.2, (sextet_spec bits 12).2.2,
    (sextet_spec bits 6).2.2, ?_⟩
  · exact (sextet_spec bits 0).2.1
  · exact (sextet_spec bits 0).2.2.trans last

/-- Six bits at a time give the number back. -/
theorem regroup {bits : Nat} (small : bits < 2 ^ 24) :
    ((bits / 2 ^ 18 % 64 * 64 + bits / 2 ^ 12 % 64) * 64 + bits / 2 ^ 6 % 64) * 64 + bits % 64 =
      bits := by
  omega

lemma ofNat_toNat_eq (byte : UInt8) (same : n = byte.toNat) : UInt8.ofNat n = byte := by
  rw [same, UInt8.ofNat_toNat]

lemma encodeQuad_length_le (few : bytes.length ≤ 3) :
    (encodeQuad bytes).length ≤ 4 := by
  by_cases nothing : bytes = []
  · rw [nothing]
    exact Nat.zero_le 4
  · exact (encodeQuad_length nothing few).le

lemma decodeQuad_encodeQuad (some : bytes ≠ []) (few : bytes.length ≤ 3) :
    decodeQuad (encodeQuad bytes) = bytes := by
  have padding : base64Value '='.toUInt8 = 0 := by decide
  match bytes, some with
  | [a], _ =>
    have aSmall : a.toNat < 256 := a.toNat_lt
    obtain ⟨w, x, y, z, quad, ⟨wEq, xEq, -, -⟩, wVal, xVal, -, -⟩ := quadChars_eq (a.toNat * 65536)
    have count : [w, x, '='.toUInt8, '='.toUInt8].count '='.toUInt8 = 2 := by
      simp [wEq, xEq]
    have text : encodeQuad [a] = [w, x, '='.toUInt8, '='.toUInt8] := by
      rw [encodeQuad, quad]
      rfl
    rw [text, decodeQuad, decodeBase64Token]
    simp only [count, wVal, xVal, padding]
    exact congrArg (fun byte => [byte]) (ofNat_toNat_eq a (by omega))
  | [a, b], _ =>
    have aSmall : a.toNat < 256 := a.toNat_lt
    have bSmall : b.toNat < 256 := b.toNat_lt
    obtain ⟨w, x, y, z, quad, ⟨wEq, xEq, yEq, -⟩, wVal, xVal, yVal, -⟩ :=
      quadChars_eq ((a.toNat * 256 + b.toNat) * 256)
    have count : [w, x, y, '='.toUInt8].count '='.toUInt8 = 1 := by
      simp [wEq, xEq, yEq]
    have text : encodeQuad [a, b] = [w, x, y, '='.toUInt8] := by
      rw [encodeQuad, quad]
      rfl
    rw [text, decodeQuad, decodeBase64Token]
    simp only [count, wVal, xVal, yVal, padding]
    have whole : (a.toNat * 256 + b.toNat) * 256 < 2 ^ 24 := by omega
    have aligned : (a.toNat * 256 + b.toNat) * 256 % 64 = 0 := by omega
    have joined := regroup whole
    rw [aligned] at joined
    rw [joined, ofNat_toNat_eq a (by omega), ofNat_toNat_eq b (by omega)]
    rfl
  | [a, b, c], _ =>
    have aSmall : a.toNat < 256 := a.toNat_lt
    have bSmall : b.toNat < 256 := b.toNat_lt
    have cSmall : c.toNat < 256 := c.toNat_lt
    obtain ⟨w, x, y, z, quad, ⟨wEq, xEq, yEq, zEq⟩, wVal, xVal, yVal, zVal⟩ :=
      quadChars_eq ((a.toNat * 256 + b.toNat) * 256 + c.toNat)
    have count : [w, x, y, z].count '='.toUInt8 = 0 := by
      simp [wEq, xEq, yEq, zEq]
    have text : encodeQuad [a, b, c] = [w, x, y, z] := by
      rw [encodeQuad, quad]
    rw [text, decodeQuad, decodeBase64Token]
    simp only [count, wVal, xVal, yVal, zVal]
    have whole : (a.toNat * 256 + b.toNat) * 256 + c.toNat < 2 ^ 24 := by omega
    rw [regroup whole, ofNat_toNat_eq a (by omega), ofNat_toNat_eq b (by omega),
      ofNat_toNat_eq c (by omega)]
    rfl
  | _ :: _ :: _ :: _ :: _, _ =>
    simp only [length_cons] at few
    omega

lemma crlf_filter : crlf.filter isBase64 = [] := by decide

lemma layout_filter (column : Nat) (triples) :
    (layout column triples).filter isBase64 = (triples.map encodeQuad).flatten := by
  induction triples generalizing column with
  | nil => rfl
  | cons triple triples ih =>
    have kept : (encodeQuad triple).filter isBase64 = encodeQuad triple :=
      filter_eq_self.mpr (encodeQuad_isBase64 triple)
    rw [layout]
    split
    · rw [filter_append, filter_append, kept, crlf_filter, append_nil, ih]
      rfl
    · rw [filter_append, kept, ih]
      rfl

lemma quads_decode {parts : List (List UInt8)}
    (sized : ∀ part ∈ parts, part ≠ [] ∧ part.length ≤ 3) :
    leftover 4 (parts.map encodeQuad).flatten = [] ∧
      (blocks 4 (parts.map encodeQuad).flatten).flatMap decodeQuad = parts.flatten := by
  have quads : ∀ quad ∈ parts.map encodeQuad, quad.length = 4 := by
    intro quad mem
    obtain ⟨part, partIn, rfl⟩ := mem_map.mp mem
    exact encodeQuad_length (sized part partIn).1 (sized part partIn).2
  obtain ⟨sameBlocks, sameRest⟩ :=
    blocks_unique (by decide) quads (by decide : ([] : List UInt8).length < 4)
  rw [append_nil] at sameBlocks sameRest
  refine ⟨sameRest, ?_⟩
  rw [sameBlocks, flatMap_map]
  have identity : ∀ part ∈ parts, decodeQuad (encodeQuad part) = part := fun part mem =>
    decodeQuad_encodeQuad (sized part mem).1 (sized part mem).2
  rw [flatMap_congr identity, flatMap_id']

variable (bytes : List UInt8)

lemma text_quads :
    ∃ parts : List (List UInt8), (∀ part ∈ parts, part ≠ [] ∧ part.length ≤ 3) ∧
      parts.flatten = bytes ∧
      (layout 0 (blocks 3 bytes) ++ encodeQuad (leftover 3 bytes)).filter isBase64 =
        (parts.map encodeQuad).flatten := by
  obtain ⟨sized, short, joined⟩ := blocks_decompose (by decide : 0 < 3) bytes
  have blockValid : ∀ part ∈ blocks 3 bytes, part ≠ [] ∧ part.length ≤ 3 := by
    intro part mem
    have three := sized part mem
    refine ⟨?_, three.le⟩
    intro nothing
    rw [nothing] at three
    cases three
  have kept : (encodeQuad (leftover 3 bytes)).filter isBase64 = encodeQuad (leftover 3 bytes) :=
    filter_eq_self.mpr (encodeQuad_isBase64 _)
  rw [filter_append, kept, layout_filter]
  by_cases nothing : leftover 3 bytes = []
  · rw [nothing, append_nil] at joined
    refine ⟨blocks 3 bytes, blockValid, joined, ?_⟩
    rw [nothing]
    exact append_nil _
  · refine ⟨blocks 3 bytes ++ [leftover 3 bytes], ?_, ?_, ?_⟩
    · intro part mem
      obtain inBlocks | last := mem_append.mp mem
      · exact blockValid part inBlocks
      · rw [mem_singleton.mp last]
        exact ⟨nothing, Nat.le_of_lt short⟩
    · rw [flatten_append, flatten_singleton, joined]
    · rw [map_append, flatten_append, map_singleton, flatten_singleton]

lemma encodeQuad_unbroken : Unbroken (encodeQuad bytes) := by
  intro c mem inCrlf
  have inAlphabet := encodeQuad_isBase64 bytes c mem
  have kept : c ∈ crlf.filter isBase64 := mem_filter.mpr ⟨inCrlf, inAlphabet⟩
  rw [crlf_filter] at kept
  exact absurd kept not_mem_nil

lemma layout_lines (aligned : column % 4 = 0) (short : column < 72)
    (onLine : front.length = column) (unbroken : Unbroken front)
    (sized : ∀ triple ∈ triples, triple.length = 3) :
    ∃ (lines : List (List UInt8)) (last : List UInt8),
      front ++ layout column triples = (lines.map fun line => line ++ crlf).flatten ++ last ∧
      (∀ line ∈ lines, line.length = 72 ∧ Unbroken line) ∧
      last.length ≤ 68 ∧ Unbroken last := by
  induction triples generalizing column front with
  | nil => exact ⟨[], front, append_nil _, by simp, by omega, unbroken⟩
  | cons triple triples ih =>
    have tripleSized := sized triple (mem_cons_self ..)
    have quadLength : (encodeQuad triple).length = 4 := by
      apply encodeQuad_length
      · intro nothing
        rw [nothing] at tripleSized
        cases tripleSized
      · omega
    have grown : (front ++ encodeQuad triple).length = column + 4 := by
      rw [length_append, onLine, quadLength]
    have grownUnbroken := unbroken.append (encodeQuad_unbroken triple)
    have restSized : ∀ other ∈ triples, other.length = 3 := fun other mem =>
      sized other (mem_cons_of_mem _ mem)
    rw [layout]
    by_cases full : column + 4 ≥ 72
    · rw [if_pos full]
      obtain ⟨lines, last, text, linesValid, lastShort, lastUnbroken⟩ :=
        ih rfl (by decide) length_nil Unbroken.nil restSized
      refine ⟨(front ++ encodeQuad triple) :: lines, last, ?_, ?_, lastShort, lastUnbroken⟩
      · rw [nil_append] at text
        rw [text]
        simp only [map_cons, flatten_cons, append_assoc]
      · intro line mem
        cases mem_cons.mp mem with
        | inl head =>
          rw [head]
          exact ⟨by omega, grownUnbroken⟩
        | inr tail => exact linesValid line tail
    · rw [if_neg full, ← append_assoc]
      exact ih (by omega) (by omega) grown grownUnbroken restSized

/-- Base64 text survives any buffering on both sides. For all calls of `Write` and
`Flush`, all calls of `MimeDecoderWrite` on what they wrote, other characters
inserted or not, and `MimeDecoderDestroy`: no access leaves a buffer, all lines
but the last have 72 characters, and the bytes decoded are those encoded. -/
theorem base64_roundTrip (chunks : List (List UInt8)) :
    ∃ encoder calls flushed,
      Base64Encoder.init.writeAll chunks = some (encoder, calls) ∧
      encoder.flush = some flushed ∧
      (∃ (lines : List (List UInt8)) (last : List UInt8),
        (calls ++ flushed).flatten = (lines.map fun line => line ++ crlf).flatten ++ last ∧
        (∀ line ∈ lines, line.length = 72 ∧ Unbroken line) ∧
        last.length ≤ 72 ∧ Unbroken last) ∧
      ∀ pieces : List (List UInt8), Inserted (calls ++ flushed).flatten pieces.flatten →
        ∃ decoder decoded,
          decodeAll MimeDecoderData.init pieces = some (decoder, decoded) ∧
          decoder.destroy = some [] ∧ decoded.flatten = chunks.flatten := by
  obtain ⟨⟨encoder, calls⟩, written, spec⟩ :=
    Base64Encoder.writeAll_spec Base64Encoder.init_valid chunks
  obtain ⟨flushed, flushEq, flushText⟩ := Base64Encoder.flush_spec spec.valid
  have text : (calls ++ flushed).flatten =
      layout 0 (blocks 3 chunks.flatten) ++ encodeQuad (leftover 3 chunks.flatten) := by
    have callsText : calls.flatten = layout 0 (blocks 3 chunks.flatten) := spec.text
    have waiting : encoder.pending = leftover 3 chunks.flatten := spec.pending
    rw [flatten_append, flushText, callsText, waiting]
  obtain ⟨sized, tailShort, joined⟩ := blocks_decompose (by decide : 0 < 3) chunks.flatten
  refine ⟨encoder, calls, flushed, written, flushEq, ?_, ?_⟩
  · obtain ⟨lines, last, body, linesValid, lastShort, lastUnbroken⟩ :=
      layout_lines rfl (by decide : 0 < 72) length_nil Unbroken.nil sized
    refine ⟨lines, last ++ encodeQuad (leftover 3 chunks.flatten), ?_, linesValid, ?_,
      lastUnbroken.append (encodeQuad_unbroken _)⟩
    · rw [nil_append] at body
      rw [text, body, append_assoc]
    · have padded := encodeQuad_length_le (Nat.le_of_lt tailShort)
      rw [length_append]
      omega
  · intro pieces inserted
    obtain ⟨decoder, decoded, read, valid, pending, output⟩ :=
      decodeAll_spec MimeDecoderData.init_valid pieces
    obtain ⟨parts, partsValid, whole, quads⟩ := text_quads chunks.flatten
    obtain ⟨noRest, bytes⟩ := quads_decode partsValid
    have received : MimeDecoderData.init.pending ++ pieces.flatten.filter isBase64 =
        (parts.map encodeQuad).flatten := by
      rw [inserted.filter_eq, text, quads]
      rfl
    rw [received] at pending output
    rw [noRest] at pending
    refine ⟨decoder, decoded, read, ?_, by rw [output, bytes, whole]⟩
    have nothing : decoder.tokenSize = 0 := by
      have capacity := valid.capacity
      have size := valid.size
      have lengths := congrArg List.length pending
      rw [MimeDecoderData.pending, length_take, length_nil] at lengths
      omega
    rw [MimeDecoderData.destroy, nothing]
    rfl

end CommCentral.Mime
