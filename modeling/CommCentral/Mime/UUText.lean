import CommCentral.Mime.UULine
import CommCentral.Mime.LineFeed
import CommCentral.Lib.Decision
import Mathlib.Data.List.Forall2
import Mathlib.Data.Nat.Bitwise

/-! Uuencoded text, whose lines may have lost spaces at their ends, and what
`mime_decode_uue_buffer` makes of one of its lines: the bytes that the characters left
stand for in full, and nulls in the place of the others. -/

namespace CommCentral.Mime

open Lib List

/-- A character for six bits; a zero has two. -/
inductive Codes : UInt8 → Nat → Prop where
  | char (c : UInt8) (bits : Nat) (small : bits < 64) (value : c.toNat = 32 + bits) : Codes c bits
  | backtick : Codes '`'.toUInt8 0

/-- Three bytes as four times six bits. -/
def fourSextets (a b c : UInt8) : List Nat :=
  [a.toNat / 4, a.toNat % 4 * 16 + b.toNat / 16, b.toNat % 16 * 4 + c.toNat / 64, c.toNat % 64]

/-- The last bytes are filled up with nulls. -/
def sextets : List UInt8 → List Nat
  | [] => []
  | [a] => fourSextets a 0 0
  | [a, b] => fourSextets a b 0
  | a :: b :: c :: bytes => fourSextets a b c ++ sextets bytes

/-- A line of the text for some bytes: a character for their number, and those for the
bytes, without some of the spaces at the end. -/
structure UueLine where
  bytes : List UInt8
  text : List UInt8
  lineBreak : List UInt8
  number : 1 ≤ bytes.length ∧ bytes.length ≤ 45
  encodes : ∃ first chars stripped, Codes first bytes.length ∧
    List.Forall₂ Codes chars (sextets bytes) ∧
    first :: chars = text ++ List.replicate stripped ' '.toUInt8
  breaks : IsLineBreak lineBreak

structure UueText where
  header : List UInt8
  headerBreak : List UInt8
  lines : List UueLine
  endBreak : List UInt8
  begins : header.take 6 = asciiBytes ['b', 'e', 'g', 'i', 'n', ' ']
  plain : ∀ c ∈ header, c ≠ 0
  oneLine : ∀ c ∈ header, isLineEnd c = false
  headerBreaks : IsLineBreak headerBreak
  endBreaks : IsLineBreak endBreak

def UueText.body (lines : List UueLine) : List UInt8 :=
  (lines.map fun line => line.text ++ line.lineBreak).flatten

def UueText.text (encoded : UueText) : List UInt8 :=
  encoded.header ++ encoded.headerBreak ++
    (UueText.body encoded.lines ++ (asciiBytes ['e', 'n', 'd'] ++ encoded.endBreak))

def UueText.bytes (encoded : UueText) : List UInt8 := (encoded.lines.map UueLine.bytes).flatten

lemma dec_of_codes {bits : Nat} (codes : Codes c bits) : dec c = bits := by
  cases codes with
  | char c bits small value =>
    rw [dec, value]
    omega
  | backtick => rfl

section
variable {a b c : UInt8} {chars : List UInt8}

lemma ofNat_eq_of_mod (same : n % 256 = a.toNat) : UInt8.ofNat n = a := by
  apply UInt8.toNat_inj.mp
  rw [UInt8.toNat_ofNat']
  exact same

lemma byteOne_of_sextets (first : dec (chars.getD 0 0) = a.toNat / 4)
    (second : dec (chars.getD 1 0) = a.toNat % 4 * 16 + b.toNat / 16) : byteOne chars = a := by
  have small := a.toNat_lt
  have smallB := b.toNat_lt
  apply ofNat_eq_of_mod
  rw [first, second]
  have low : (a.toNat % 4 * 16 + b.toNat / 16) / 16 < 2 ^ 2 := by omega
  have joined := Nat.shiftLeft_add_eq_or_of_lt low (a.toNat / 4)
  rw [Nat.shiftLeft_eq] at joined
  change (a.toNat / 4 * 2 ^ 2 ||| _) % 256 = _
  rw [← joined]
  omega

lemma byteTwo_of_sextets (second : dec (chars.getD 1 0) = a.toNat % 4 * 16 + b.toNat / 16)
    (third : dec (chars.getD 2 0) = b.toNat % 16 * 4 + c.toNat / 64) : byteTwo chars = b := by
  have small := a.toNat_lt
  have smallB := b.toNat_lt
  have smallC := c.toNat_lt
  apply ofNat_eq_of_mod
  rw [second, third]
  have low : (b.toNat % 16 * 4 + c.toNat / 64) / 4 < 2 ^ 4 := by omega
  have joined := Nat.shiftLeft_add_eq_or_of_lt low (a.toNat % 4 * 16 + b.toNat / 16)
  rw [Nat.shiftLeft_eq] at joined
  change ((a.toNat % 4 * 16 + b.toNat / 16) * 2 ^ 4 ||| _) % 256 = _
  rw [← joined]
  omega

lemma byteThree_of_sextets (third : dec (chars.getD 2 0) = b.toNat % 16 * 4 + c.toNat / 64)
    (fourth : dec (chars.getD 3 0) = c.toNat % 64) : byteThree chars = c := by
  have smallC := c.toNat_lt
  apply ofNat_eq_of_mod
  rw [third, fourth]
  have low : c.toNat % 64 < 2 ^ 6 := Nat.mod_lt _ (by decide)
  have joined := Nat.shiftLeft_add_eq_or_of_lt low (b.toNat % 16 * 4 + c.toNat / 64)
  rw [Nat.shiftLeft_eq] at joined
  change ((b.toNat % 16 * 4 + c.toNat / 64) * 2 ^ 6 ||| _) % 256 = _
  rw [← joined]
  omega

end

lemma fourSextets_bytes {a b c : UInt8} {chars : List UInt8} {rest : List Nat}
    (codes : List.Forall₂ Codes chars (fourSextets a b c ++ rest)) :
    byteOne chars = a ∧ byteTwo chars = b ∧ byteThree chars = c ∧
      List.Forall₂ Codes (chars.drop 4) rest := by
  obtain _ | ⟨first, _ | ⟨second, _ | ⟨third, _ | ⟨fourth, codes⟩⟩⟩⟩ := codes
  exact ⟨byteOne_of_sextets (dec_of_codes first) (dec_of_codes second),
    byteTwo_of_sextets (dec_of_codes second) (dec_of_codes third),
    byteThree_of_sextets (dec_of_codes third) (dec_of_codes fourth), codes⟩

lemma groupBytes_sextets {bytes chars : List UInt8}
    (codes : List.Forall₂ Codes chars (sextets bytes)) : groupBytes bytes.length chars = bytes := by
  induction bytes using sextets.induct generalizing chars with
  | case1 => rfl
  | case2 a =>
    obtain ⟨one, -⟩ := @fourSextets_bytes a 0 0 chars [] codes
    rw [length_singleton, groupBytes, one]
  | case3 a b =>
    obtain ⟨one, two, -⟩ := @fourSextets_bytes a b 0 chars [] codes
    rw [length_cons, length_singleton, groupBytes, one, two]
  | case4 a b c bytes ih =>
    obtain ⟨one, two, three, rest⟩ := fourSextets_bytes codes
    rw [length_cons, length_cons, length_cons, groupBytes, one, two, three, ih rest]

lemma groupBytes_take (le : i ≤ n) (chars) : groupBytes i chars = (groupBytes n chars).take i := by
  induction n, chars using groupBytes.induct generalizing i with
  | case1 =>
    cases Nat.le_zero.mp le
    rfl
  | case2 chars =>
    rcases i with _ | _ | i
    · rfl
    · rfl
    · omega
  | case3 chars =>
    rcases i with _ | _ | _ | i
    · rfl
    · rfl
    · rfl
    · omega
  | case4 n chars ih =>
    rcases i with _ | _ | _ | i
    · rfl
    · rfl
    · rfl
    · rw [groupBytes, groupBytes, take_succ_cons, take_succ_cons, take_succ_cons,
        ih (by omega)]

/-- The bytes that the characters left behind the first one stand for in full. -/
def UueLine.kept (line : UueLine) : Nat := (line.text.length - 1) * 3 / 4

def UueLine.decoded (line : UueLine) : List UInt8 :=
  line.bytes.take line.kept ++ List.replicate (line.bytes.length - line.kept) 0

/-- The bytes of a line behind those are nulls. -/
def UueLine.Restored (line : UueLine) : Prop := ∀ c ∈ line.bytes.drop line.kept, c = 0

variable (line : UueLine)

lemma UueLine.decoded_length : line.decoded.length = line.bytes.length := by
  rw [decoded, length_append, length_take, length_replicate]
  omega

lemma UueLine.decoded_eq_iff : line.decoded = line.bytes ↔ line.Restored := by
  have whole := take_append_drop line.kept line.bytes
  rw [decoded, Restored, ← length_drop]
  constructor
  · intro same
    have zeros := append_cancel_left (same.trans whole.symm)
    intro c mem
    rw [← zeros] at mem
    exact eq_of_mem_replicate mem
  · intro zeros
    have same := eq_replicate_iff.mpr ⟨rfl, zeros⟩
    rw [← same, whole]

lemma codes_plain {bits : Nat} (codes : Codes c bits) : c ≠ 0 ∧ isLineEnd c = false := by
  have above : 32 ≤ c.toNat := by
    cases codes with
    | char c bits small value => exact value ▸ Nat.le_add_right 32 bits
    | backtick => decide
  have other : ∀ d : UInt8, d.toNat < 32 → c ≠ d := by
    intro d below same
    rw [same] at above
    exact absurd above (Nat.not_le.mpr below)
  refine ⟨other 0 (by decide), ?_⟩
  rw [isLineEnd, decide_eq_false (other CR (by decide)), decide_eq_false (other LF (by decide))]
  rfl

lemma sextets_length (bytes) : (sextets bytes).length = 4 * ((bytes.length + 2) / 3) := by
  induction bytes using sextets.induct with
  | case1 => rfl
  | case2 a => rw [sextets, length_singleton, fourSextets]; rfl
  | case3 a b => rw [sextets, length_cons, length_singleton, fourSextets]; rfl
  | case4 a b c bytes ih =>
    rw [sextets, length_append, ih]
    change 4 + _ = _
    rw [length_cons, length_cons, length_cons]
    omega

lemma forall_left_of_forall₂ {related : α → β → Prop} {property : α → Prop}
    (holds : ∀ a b, related a b → property a) (pairs : List.Forall₂ related as bs) :
    ∀ a ∈ as, property a := by
  induction pairs with
  | nil => exact fun a mem => absurd mem not_mem_nil
  | cons first _ ih => exact forall_mem_cons.mpr ⟨holds _ _ first, ih⟩

lemma UueLine.shape :
    ∃ first chars, line.text = first :: chars ∧ dec first = line.bytes.length ∧
      first ≠ 'e'.toUInt8 ∧ chars.length ≤ 60 ∧
      (∀ c ∈ line.text, c ≠ 0 ∧ isLineEnd c = false) ∧
      ∀ i ≤ line.bytes.length, i ≤ chars.length * 3 / 4 → ∀ more : List UInt8,
        groupBytes i (chars ++ more) = line.bytes.take i := by
  obtain ⟨first, full, stripped, codes, pairs, whole⟩ := line.encodes
  have number := line.number
  have value : first.toNat = 32 + line.bytes.length := by
    cases shape : line.bytes.length with
    | zero =>
      rw [shape] at number
      exact absurd number.1 (Nat.not_succ_le_zero 0)
    | succ n =>
      rw [shape] at codes
      cases codes with
      | char c bits small value => exact value
  cases shape : line.text with
  | nil =>
    rw [shape, nil_append] at whole
    have blank : first = ' '.toUInt8 := eq_of_mem_replicate (whole ▸ mem_cons_self ..)
    rw [blank] at value
    change 32 = 32 + line.bytes.length at value
    omega
  | cons c chars =>
    rw [shape, cons_append] at whole
    obtain ⟨rfl, rfl⟩ := cons_eq_cons.mp whole
    have lengths := List.Forall₂.length_eq pairs
    rw [sextets_length, length_append] at lengths
    have plain : ∀ c ∈ chars ++ List.replicate stripped ' '.toUInt8, c ≠ 0 ∧ isLineEnd c = false :=
      forall_left_of_forall₂ (fun _ _ codes => codes_plain codes) pairs
    refine ⟨first, chars, rfl, dec_of_codes codes, ?_, by omega, ?_, ?_⟩
    · intro same
      rw [same] at value
      change 101 = 32 + line.bytes.length at value
      omega
    · exact forall_mem_cons.mpr
        ⟨codes_plain codes, (forall_mem_append.mp plain).1⟩
    · intro i few inside more
      have same : groupBytes i (chars ++ more) =
          groupBytes i (chars ++ List.replicate stripped ' '.toUInt8) := by
        apply groupBytes_congr
        intro k small
        have here : k < chars.length := by omega
        rw [getD_append _ _ _ _ here, getD_append _ _ _ _ here]
      rw [same, groupBytes_take few, groupBytes_sextets pairs]

lemma uueAction_line (c : UInt8) :
    uueAction .dsBody (line.text ++ [c]) = some (.body line.decoded) := by
  obtain ⟨first, chars, shape, number, other, short, -, bytes⟩ := line.shape
  have notEnd : ¬ ((first :: (chars ++ [c])).take 3 = asciiBytes ['e', 'n', 'd']) := by
    intro same
    rw [take_succ_cons] at same
    exact other (cons_eq_cons.mp same).1
  have kept : line.kept = chars.length * 3 / 4 := by
    rw [UueLine.kept, shape, length_cons, Nat.add_sub_cancel]
  have inside : (chars ++ [c]).length < uueBufferSize := by
    rw [length_append, length_singleton]
    change chars.length + 1 < 128
    omega
  have usable : ((chars ++ [c]).length - 1) * 3 / 4 = line.kept := by
    rw [length_append, length_singleton, Nat.add_sub_cancel, kept]
  rw [shape, cons_append, uueAction, if_neg (fun ends => notEnd ends.2.1),
    if_neg (by decide), decodeUueLine_cons first inside, usable, number,
    bytes _ (Nat.min_le_left _ _) (kept ▸ Nat.min_le_right _ _)]
  have short := length_take_le' line.kept line.bytes
  rw [Option.map_some, UueLine.decoded, ← take_take, take_of_length_le short]

end CommCentral.Mime
