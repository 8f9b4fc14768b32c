import CommCentral.Jsmime.HeaderEmitter
import CommCentral.Jsmime.WordDecoder

/-! The two forms of an encoded word, and that the octets are read back from either. -/

namespace CommCentral.Jsmime

open Lib List

/-- The values of the base64 characters of some octets. -/
def sextets : List UInt8 → List Nat
  | [] => []
  | [a] => [a.toNat / 4, a.toNat * 16]
  | [a, b] => [a.toNat / 4, a.toNat * 16 + b.toNat / 16, b.toNat * 4]
  | a :: b :: c :: rest =>
    a.toNat / 4 :: (a.toNat * 16 + b.toNat / 16) :: (b.toNat * 4 + c.toNat / 64) :: c.toNat ::
      sextets rest

/-- The number of `=` behind the last group. -/
def paddingOf (octets : List UInt8) : Nat := (3 - octets.length % 3) % 3

lemma paddingOf_triple (a b c : UInt8) (rest) :
    paddingOf (a :: b :: c :: rest) = paddingOf rest := by
  rw [paddingOf, paddingOf, length_cons, length_cons, length_cons]
  omega

lemma btoa_eq (octets) :
    btoa octets =
      (sextets octets).map base64Digit ++ List.replicate (paddingOf octets) charEquals := by
  fun_induction btoa octets with
  | case1 => rfl
  | case2 => rfl
  | case3 => rfl
  | case4 a b c rest ih =>
    rw [ih, paddingOf_triple]
    rfl

lemma sextets_length (octets) : ((sextets octets).length + paddingOf octets) % 4 = 0 := by
  fun_induction sextets octets with
  | case1 => decide
  | case2 a => exact (by decide : (2 + 2) % 4 = 0)
  | case3 a b => exact (by decide : (3 + 1) % 4 = 0)
  | case4 a b c rest ih =>
    rw [paddingOf_triple, length_cons, length_cons, length_cons, length_cons]
    omega

lemma paddingOf_lt (octets) : paddingOf octets < 3 := Nat.mod_lt _ (by decide)

lemma base64Digit_spec (value : Nat) :
    base64Value? (base64Digit value).toUInt8 = some (value % 64) ∧ base64Digit value < 0x80 := by
  have all : ∀ v < 64, base64Value? (base64Digits.getD v 0).toUInt8 = some v ∧
      base64Digits.getD v 0 < 0x80 := by decide +kernel
  exact all (value % 64) (Nat.mod_lt _ (by decide))

lemma ofNat_eq_of_mod (same : n % 256 = octet.toNat) : UInt8.ofNat n = octet :=
  UInt8.toNat_inj.mp ((UInt8.toNat_ofNat' ..).trans same)

lemma base64Octets_sextets (octets) : base64Octets ((sextets octets).map (· % 64)) = octets := by
  fun_induction sextets octets with
  | case1 => rfl
  | case2 a =>
    have boundA := a.toNat_lt
    have first : UInt8.ofNat (a.toNat / 4 % 64 * 4 + a.toNat * 16 % 64 / 16) = a :=
      ofNat_eq_of_mod (by omega)
    change [UInt8.ofNat _] = [a]
    rw [first]
  | case3 a b =>
    have boundA := a.toNat_lt
    have boundB := b.toNat_lt
    have first : UInt8.ofNat (a.toNat / 4 % 64 * 4 + (a.toNat * 16 + b.toNat / 16) % 64 / 16) =
        a := ofNat_eq_of_mod (by omega)
    have second : UInt8.ofNat ((a.toNat * 16 + b.toNat / 16) % 64 * 16 + b.toNat * 4 % 64 / 4) =
        b := ofNat_eq_of_mod (by omega)
    change [UInt8.ofNat _, UInt8.ofNat _] = [a, b]
    rw [first, second]
  | case4 a b c rest ih =>
    have boundA := a.toNat_lt
    have boundB := b.toNat_lt
    have boundC := c.toNat_lt
    have first : UInt8.ofNat (a.toNat / 4 % 64 * 4 + (a.toNat * 16 + b.toNat / 16) % 64 / 16) =
        a := ofNat_eq_of_mod (by omega)
    have second : UInt8.ofNat ((a.toNat * 16 + b.toNat / 16) % 64 * 16 +
        (b.toNat * 4 + c.toNat / 64) % 64 / 4) = b := ofNat_eq_of_mod (by omega)
    have third : UInt8.ofNat ((b.toNat * 4 + c.toNat / 64) % 64 * 64 + c.toNat % 64) = c :=
      ofNat_eq_of_mod (by omega)
    change UInt8.ofNat _ :: UInt8.ofNat _ :: UInt8.ofNat _ :: base64Octets _ = _
    rw [first, second, third, ih]

lemma sanitize_of_padded {text : BinaryString} (padded : Padded text padding) :
    sanitize text = text := by
  have count := padded.rtakeWhile
  obtain ⟨body, rfl, known⟩ := padded
  have kept : (body ++ List.replicate padding octetEquals).filter
      (fun c => (base64Value? c).isSome || c == octetEquals) =
        body ++ List.replicate padding octetEquals := by
    rw [filter_eq_self]
    intro c mem
    rcases mem_append.mp mem with inBody | inPadding
    · rw [known c inBody, Bool.true_or]
    · rw [eq_of_mem_replicate inPadding, beq_self_eq_true, Bool.or_true]
  have ends : (body ++ List.replicate padding octetEquals).rtakeWhile (· == octetEquals) =
      List.replicate padding octetEquals := by
    apply eq_replicate_iff.mpr
    refine ⟨count, ?_⟩
    intro c mem
    have ends : (c == octetEquals) = true := mem_rtakeWhile_imp (p := (· == octetEquals)) mem
    exact beq_iff_eq.mp ends
  have front : (body ++ List.replicate padding octetEquals).filter (· != octetEquals) = body := by
    rw [filter_append, filter_eq_self.mpr, filter_eq_nil_iff.mpr, append_nil]
    · intro c mem
      rw [eq_of_mem_replicate mem, bne_self_eq_false]
      exact Bool.false_ne_true
    · intro c mem
      exact bne_iff_ne.mpr (ne_equals_of_isSome (known c mem))
  rw [sanitize, kept, ends, front]

lemma wholeGroups_of_padded {text : BinaryString} (padded : Padded text padding)
    (short : padding < 4) (whole : text.length % 4 = 0) : wholeGroups text = text := by
  have none : padding / 4 * 4 = 0 := by omega
  rw [wholeGroups, whole, Nat.sub_zero, take_length, padded.rtakeWhile, none, Nat.sub_zero,
    take_length]

lemma mapM_eq_some {α β : Type} {f : α → Option β} {g : α → β} {list : List α}
    (each : ∀ item ∈ list, f item = some (g item)) : list.mapM f = some (list.map g) := by
  induction list with
  | nil => rfl
  | cons first rest ih =>
    obtain ⟨ofFirst, ofRest⟩ := forall_mem_cons.mp each
    rw [mapM_cons, ofFirst, ih ofRest]
    rfl

lemma decodeBase64_btoa (octets) :
    decodeBase64 ((btoa octets).map UInt16.toUInt8) false = some (octets, []) := by
  let body : BinaryString := (sextets octets).map fun value => (base64Digit value).toUInt8
  have text : (btoa octets).map UInt16.toUInt8 =
      body ++ List.replicate (paddingOf octets) octetEquals := by
    rw [btoa_eq, map_append, map_map, map_replicate]
    rfl
  have known : ∀ c ∈ body, (base64Value? c).isSome := by
    intro c mem
    obtain ⟨value, -, rfl⟩ := mem_map.mp mem
    rw [(base64Digit_spec value).1]
    rfl
  have padded : Padded (body ++ List.replicate (paddingOf octets) octetEquals) (paddingOf octets) :=
    ⟨body, rfl, known⟩
  have whole : (body.length + paddingOf octets) % 4 = 0 := by
    rw [length_map]
    exact sextets_length octets
  have short := paddingOf_lt octets
  have visible : (body ++ List.replicate (paddingOf octets) octetEquals).filter
      (· ∉ asciiWhiteSpace) = body ++ List.replicate (paddingOf octets) octetEquals := by
    rw [filter_eq_self]
    intro c mem
    apply decide_eq_true
    intro space
    have unknown : ∀ c ∈ asciiWhiteSpace, base64Value? c = none ∧ c ≠ octetEquals := by decide
    rcases mem_append.mp mem with inBody | inPadding
    · have some := known c inBody
      rw [(unknown c space).1] at some
      cases some
    · exact (unknown c space).2 (eq_of_mem_replicate inPadding)
  have values : body.mapM base64Value? = some ((sextets octets).map (· % 64)) := by
    rw [mapM_map]
    exact mapM_eq_some fun value _ => (base64Digit_spec value).1
  have decoded : atob (body ++ List.replicate (paddingOf octets) octetEquals) = some octets := by
    rw [atob, visible, dropPadding_eq known short whole, if_neg, values]
    · exact congrArg some (base64Octets_sextets octets)
    · omega
  rw [text, decodeBase64, sanitize_of_padded padded,
    wholeGroups_of_padded padded (by omega) (by simpa using whole), decoded]
  rfl

lemma btoa_isBase64Char (octets) : (btoa octets).all isBase64Char := by
  rw [btoa_eq, all_append, Bool.and_eq_true]
  constructor
  · rw [all_eq_true]
    intro c mem
    obtain ⟨value, -, rfl⟩ := mem_map.mp mem
    obtain ⟨known, ascii⟩ := base64Digit_spec value
    simp [isBase64Char, known, ascii]
  · rw [all_eq_true]
    intro c mem
    rw [eq_of_mem_replicate mem]
    decide

/-- The text of some octets in the Q form. -/
inductive QForm : List UInt8 → JsString → Prop
  | nil : QForm [] []
  | literal (octet : UInt8) {octets : List UInt8} {text : JsString}
      (printable : 0x21 ≤ octet ∧ octet ≤ 0x7E)
      (plain : octet ≠ 0x3D ∧ octet ≠ 0x3F ∧ octet ≠ 0x5F) (rest : QForm octets text) :
      QForm (octet :: octets) (octet.toUInt16 :: text)
  | space {octets : List UInt8} {text : JsString} (rest : QForm octets text) :
      QForm (0x20 :: octets) (charUnderscore :: text)
  | escaped (octet : UInt8) {octets : List UInt8} {text : JsString} {high low : UInt16}
      (ofHigh : hexDigitValue? high = some (octet.toNat / 16))
      (ofLow : hexDigitValue? low = some (octet.toNat % 16)) (rest : QForm octets text) :
      QForm (octet :: octets) (charEquals :: high :: low :: text)

section
variable {text : JsString}

lemma hexDigit_plain {c : UInt16} {value : Nat} (known : hexDigitValue? c = some value) :
    c ≠ charUnderscore ∧ c ≠ charQuestion := by
  constructor
  · rintro rfl
    cases known
  · rintro rfl
    cases known

lemma literal_plain {octet : UInt8} (plain : octet ≠ 0x3D ∧ octet ≠ 0x3F ∧ octet ≠ 0x5F) :
    octet.toUInt16 ≠ charEquals ∧ octet.toUInt16 ≠ charQuestion ∧
      octet.toUInt16 ≠ charUnderscore := by
  have back : ∀ c : UInt16, octet.toUInt16 = c → octet = c.toUInt8 := by
    rintro c rfl
    exact (UInt8.toUInt8_toUInt16 octet).symm
  exact ⟨fun same => plain.1 (back _ same), fun same => plain.2.1 (back _ same),
    fun same => plain.2.2 (back _ same)⟩

lemma QForm.noQuestion (form : QForm octets text) : charQuestion ∉ text := by
  induction form with
  | nil => exact not_mem_nil
  | literal octet printable plain rest ih =>
    exact not_mem_cons_of_ne_of_not_mem (Ne.symm (literal_plain plain).2.1) ih
  | space rest ih => exact not_mem_cons_of_ne_of_not_mem (by decide) ih
  | escaped octet ofHigh ofLow rest ih =>
    apply not_mem_cons_of_ne_of_not_mem (by decide)
    apply not_mem_cons_of_ne_of_not_mem (Ne.symm (hexDigit_plain ofHigh).2)
    exact not_mem_cons_of_ne_of_not_mem (Ne.symm (hexDigit_plain ofLow).2) ih

lemma QForm.decode (form : QForm octets text) :
    decodeQpFrom 0 (text.map fun c => if c = charUnderscore then 0x20 else c) =
      octets.map UInt8.toUInt16 := by
  induction form with
  | nil => rfl
  | literal octet printable plain rest ih =>
    obtain ⟨notEquals, -, notUnderscore⟩ := literal_plain plain
    rw [map_cons, if_neg notUnderscore, decodeQpFrom, if_neg notEquals, ih, map_cons]
  | space rest ih =>
    rw [map_cons, if_pos rfl, decodeQpFrom, if_neg (by decide), ih]
    rfl
  | @escaped octet octets text high low ofHigh ofLow rest ih =>
    have value : UInt16.ofNat (octet.toNat / 16 * 16 + octet.toNat % 16) = octet.toUInt16 := by
      rw [Nat.div_add_mod']
      exact UInt16.toNat_inj.mp (by simp)
    rw [map_cons, map_cons, map_cons, if_neg (by decide),
      if_neg (hexDigit_plain ofHigh).1, if_neg (hexDigit_plain ofLow).1, decodeQpFrom, if_pos rfl,
      qpEscape?]
    simp only [ofHigh, ofLow]
    rw [value, decodeQpFrom, decodeQpFrom, ih]
    rfl

end

/-- `=?UTF-8?encoding?text?=` -/
def wordText (encoding : UInt16) (text : JsString) : JsString :=
  js "=?UTF-8?" ++ encoding :: charQuestion :: (text ++ js "?=")

/-- Some octets and an encoded word that carries them. -/
structure EncodedWord where
  octets : List UInt8
  encoding : UInt16
  body : JsString
  shape : (encoding = 0x42 ∨ encoding = 0x62) ∧ body = btoa octets ∨
    (encoding = 0x51 ∨ encoding = 0x71) ∧ QForm octets body

namespace EncodedWord

def text (word : EncodedWord) : JsString := wordText word.encoding word.body

variable (word : EncodedWord)

lemma isEncoding : Jsmime.isEncoding word.encoding = true := by
  rcases word.shape with ⟨named | named, -⟩ | ⟨named | named, -⟩
  all_goals
    rw [named]
    rfl

lemma noQuestion : charQuestion ∉ word.body := by
  rcases word.shape with ⟨-, base64⟩ | ⟨-, form⟩
  · intro mem
    have allowed := all_eq_true.mp (btoa_isBase64Char word.octets) _ (base64 ▸ mem)
    exact absurd allowed (by decide)
  · exact form.noQuestion

lemma wordBuffer :
    Jsmime.wordBuffer [word.encoding] word.body =
      some (some (word.octets.map UInt8.toUInt16)) := by
  rcases word.shape with ⟨named, base64⟩ | ⟨named, form⟩
  · have allowed := btoa_isBase64Char word.octets
    have chosen : [word.encoding] = js "B" ∨ [word.encoding] = js "b" :=
      named.imp (congrArg fun c => [c]) (congrArg fun c => [c])
    rw [Jsmime.wordBuffer, if_pos chosen, base64, if_pos allowed, decodeBase64_btoa]
    rfl
  · have other : ¬ ([word.encoding] = js "B" ∨ [word.encoding] = js "b") := by
      rcases named with named | named
      all_goals
        rw [named]
        decide
    have chosen : [word.encoding] = js "Q" ∨ [word.encoding] = js "q" :=
      named.imp (congrArg fun c => [c]) (congrArg fun c => [c])
    rw [Jsmime.wordBuffer, if_neg other, if_pos chosen, form.decode]

end EncodedWord

end CommCentral.Jsmime
