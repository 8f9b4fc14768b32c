import CommCentral.Jsmime.EncodedWords
import CommCentral.Jsmime.WordDecoder

/-! Text that is encoded in UTF-8 and decoded again. -/

namespace CommCentral.Jsmime

open Lib List

def Surrogate (c : UInt16) : Prop := 0xD800 ≤ c ∧ c ≤ 0xDFFF

instance (c : UInt16) : Decidable (Surrogate c) := inferInstanceAs (Decidable (_ ∧ _))

/-- No surrogate is without its other half. -/
def WellPaired : JsString → Prop
  | [] => True
  | [c] => ¬ Surrogate c
  | c :: d :: rest =>
    if 0xD800 ≤ c ∧ c ≤ 0xDBFF ∧ 0xDC00 ≤ d ∧ d ≤ 0xDFFF then WellPaired rest
    else ¬ Surrogate c ∧ WellPaired (d :: rest)

instance decidableWellPaired : (text : JsString) → Decidable (WellPaired text)
  | [] => isTrue trivial
  | [c] => inferInstanceAs (Decidable (¬ Surrogate c))
  | c :: d :: rest =>
    have := decidableWellPaired rest
    have := decidableWellPaired (d :: rest)
    inferInstanceAs (Decidable (if 0xD800 ≤ c ∧ c ≤ 0xDBFF ∧ 0xDC00 ≤ d ∧ d ≤ 0xDFFF then
      WellPaired rest else ¬ Surrogate c ∧ WellPaired (d :: rest)))

/-- A code point that is no surrogate. -/
def Scalar (codePoint : Nat) : Prop :=
  codePoint < 0x110000 ∧ ¬ (0xD800 ≤ codePoint ∧ codePoint ≤ 0xDFFF)

lemma scalar_of_not_surrogate (other : ¬ Surrogate c) : Scalar c.toNat := by
  have bound := c.toNat_lt
  refine ⟨by omega, ?_⟩
  intro both
  exact other ⟨UInt16.le_iff_toNat_le.mpr both.1, UInt16.le_iff_toNat_le.mpr both.2⟩

lemma utf16Units_toNat (c : UInt16) : utf16Units c.toNat = [c] := by
  rw [utf16Units, if_pos c.toNat_lt, UInt16.ofNat_toNat]

lemma pair_spec (pair : 0xD800 ≤ c ∧ c ≤ 0xDBFF ∧ 0xDC00 ≤ d ∧ d ≤ 0xDFFF) :
    let codePoint := 0x10000 + (c.toNat - 0xD800) * 0x400 + (d.toNat - 0xDC00)
    Scalar codePoint ∧ 0x10000 ≤ codePoint ∧ utf16Units codePoint = [c, d] := by
  obtain ⟨low1, high1, low2, high2⟩ := pair
  rw [UInt16.le_iff_toNat_le] at low1 high1 low2 high2
  change 0xD800 ≤ _ at low1
  change _ ≤ 0xDBFF at high1
  change 0xDC00 ≤ _ at low2
  change _ ≤ 0xDFFF at high2
  refine ⟨⟨by omega, by omega⟩, by omega, ?_⟩
  have first : UInt16.ofNat (0xD800 + (0x10000 + (c.toNat - 0xD800) * 0x400 + (d.toNat - 0xDC00) -
      0x10000) / 0x400) = c := by
    apply UInt16.toNat_inj.mp
    rw [UInt16.toNat_ofNat']
    omega
  have second : UInt16.ofNat (0xDC00 + (0x10000 + (c.toNat - 0xD800) * 0x400 +
      (d.toNat - 0xDC00) - 0x10000) % 0x400) = d := by
    apply UInt16.toNat_inj.mp
    rw [UInt16.toNat_ofNat']
    omega
  rw [utf16Units, if_neg (by omega), first, second]

lemma ofNat_toNat (small : n < 0x100) : (UInt8.ofNat n).toNat = n :=
  (UInt8.toNat_ofNat' ..).trans (Nat.mod_eq_of_lt small)

/-- An octet between the bounds goes on with the character. -/
theorem step_continuation {state : Utf8State} {n value : Nat} (needed : state.needed ≠ 0)
    (low : state.lower.toNat ≤ 0x80 + n % 0x40) (high : 0x80 + n % 0x40 ≤ state.upper.toNat)
    (bits : state.codePoint * 0x40 + n % 0x40 = value) :
    state.step (UInt8.ofNat (0x80 + n % 0x40)) =
      if state.needed = 1 then ([value], {})
      else ([], { needed := state.needed - 1, codePoint := value }) := by
  have octet : (UInt8.ofNat (0x80 + n % 0x40)).toNat = 0x80 + n % 0x40 := ofNat_toNat (by omega)
  have within : ¬ (UInt8.ofNat (0x80 + n % 0x40) < state.lower ∨
      state.upper < UInt8.ofNat (0x80 + n % 0x40)) := by
    rw [UInt8.lt_iff_toNat_lt, UInt8.lt_iff_toNat_lt, octet]
    omega
  have low : (0x80 + n % 0x40) % 0x40 = n % 0x40 := by omega
  rw [Utf8State.step, if_neg needed, if_neg within, octet, low, bits]

lemma le_upper (n : Nat) : 0x80 + n % 0x40 ≤ (0xBF : UInt8).toNat := by
  change _ ≤ 0xBF
  omega

lemma lead_ofNat (small : n < 0x100) :
    Utf8State.lead (UInt8.ofNat n) =
      if n < 0x80 then ([n], {})
      else if n < 0xC2 then ([replacement], {})
      else if n < 0xE0 then ([], { needed := 1, codePoint := n % 0x20 })
      else if n < 0xF0 then
        ([], { needed := 2
               lower := if n = 0xE0 then 0xA0 else 0x80
               upper := if n = 0xED then 0x9F else 0xBF
               codePoint := n % 0x10 })
      else if n < 0xF5 then
        ([], { needed := 3
               lower := if n = 0xF0 then 0x90 else 0x80
               upper := if n = 0xF4 then 0x8F else 0xBF
               codePoint := n % 0x8 })
      else ([replacement], {}) := by
  simp only [Utf8State.lead, UInt8.lt_iff_toNat_lt, ← UInt8.toNat_inj, ofNat_toNat small]
  rfl

lemma step_lead (octet : UInt8) : Utf8State.step {} octet = Utf8State.lead octet := if_pos rfl

lemma step_last (n : Nat) :
    Utf8State.step { needed := 1, codePoint := n / 0x40 } (UInt8.ofNat (0x80 + n % 0x40)) =
      ([n], {}) := by
  exact step_continuation (Nat.succ_ne_zero 0) (Nat.le_add_right ..) (le_upper _)
    (Nat.div_add_mod' ..)

lemma step_next (n : Nat) :
    Utf8State.step { needed := 2, codePoint := n / 0x40 } (UInt8.ofNat (0x80 + n % 0x40)) =
      ([], { needed := 1, codePoint := n }) := by
  exact step_continuation (Nat.succ_ne_zero 1) (Nat.le_add_right ..) (le_upper _)
    (Nat.div_add_mod' ..)

section

lemma run_two (more : ¬ codePoint < 0x80) (two : codePoint < 0x800) :
    Utf8State.run {} [UInt8.ofNat (0xC0 + codePoint / 0x40), UInt8.ofNat (0x80 + codePoint % 0x40)] =
      ([codePoint], {}) := by
  have lead : Utf8State.lead (UInt8.ofNat (0xC0 + codePoint / 0x40)) =
      ([], { needed := 1, codePoint := codePoint / 0x40 }) := by
    have bits : (0xC0 + codePoint / 0x40) % 0x20 = codePoint / 0x40 := by omega
    rw [lead_ofNat (by omega), if_neg (by omega), if_neg (by omega), if_pos (by omega), bits]
  simp only [Utf8State.run, step_lead, lead, step_last, nil_append, append_nil]

lemma run_three (more : ¬ codePoint < 0x800) (three : codePoint < 0x10000)
    (noSurrogate : ¬ (0xD800 ≤ codePoint ∧ codePoint ≤ 0xDFFF)) :
    Utf8State.run {} [UInt8.ofNat (0xE0 + codePoint / 0x1000),
        UInt8.ofNat (0x80 + codePoint / 0x40 % 0x40), UInt8.ofNat (0x80 + codePoint % 0x40)] =
      ([codePoint], {}) := by
  let state : Utf8State :=
    { needed := 2
      lower := if 0xE0 + codePoint / 0x1000 = 0xE0 then 0xA0 else 0x80
      upper := if 0xE0 + codePoint / 0x1000 = 0xED then 0x9F else 0xBF
      codePoint := codePoint / 0x1000 }
  have lead : Utf8State.lead (UInt8.ofNat (0xE0 + codePoint / 0x1000)) = ([], state) := by
    have bits : (0xE0 + codePoint / 0x1000) % 0x10 = codePoint / 0x1000 := by omega
    rw [lead_ofNat (by omega), if_neg (by omega), if_neg (by omega), if_neg (by omega),
      if_pos (by omega), bits]
  -- The second octet is bounded so that no longer form and no surrogate is read.
  have low : state.lower.toNat ≤ 0x80 + codePoint / 0x40 % 0x40 := by
    change (if 0xE0 + codePoint / 0x1000 = 0xE0 then (0xA0 : UInt8) else 0x80).toNat ≤ _
    split
    · change 0xA0 ≤ _
      omega
    · exact Nat.le_add_right ..
  have high : 0x80 + codePoint / 0x40 % 0x40 ≤ state.upper.toNat := by
    change _ ≤ (if 0xE0 + codePoint / 0x1000 = 0xED then (0x9F : UInt8) else 0xBF).toNat
    split
    · change _ ≤ 0x9F
      omega
    · exact le_upper _
  have second : state.step (UInt8.ofNat (0x80 + codePoint / 0x40 % 0x40)) =
      ([], { needed := 1, codePoint := codePoint / 0x40 }) := by
    have value : codePoint / 0x1000 * 0x40 + codePoint / 0x40 % 0x40 = codePoint / 0x40 := by
      omega
    exact step_continuation (Nat.succ_ne_zero 1) low high value
  simp only [Utf8State.run, step_lead, lead, second, step_last, nil_append, append_nil]

lemma run_four (more : ¬ codePoint < 0x10000) (four : codePoint < 0x110000) :
    Utf8State.run {} [UInt8.ofNat (0xF0 + codePoint / 0x40000),
        UInt8.ofNat (0x80 + codePoint / 0x1000 % 0x40),
        UInt8.ofNat (0x80 + codePoint / 0x40 % 0x40), UInt8.ofNat (0x80 + codePoint % 0x40)] =
      ([codePoint], {}) := by
  let state : Utf8State :=
    { needed := 3
      lower := if 0xF0 + codePoint / 0x40000 = 0xF0 then 0x90 else 0x80
      upper := if 0xF0 + codePoint / 0x40000 = 0xF4 then 0x8F else 0xBF
      codePoint := codePoint / 0x40000 }
  have lead : Utf8State.lead (UInt8.ofNat (0xF0 + codePoint / 0x40000)) = ([], state) := by
    have bits : (0xF0 + codePoint / 0x40000) % 0x8 = codePoint / 0x40000 := by omega
    rw [lead_ofNat (by omega), if_neg (by omega), if_neg (by omega), if_neg (by omega),
      if_neg (by omega), if_pos (by omega), bits]
  have low : state.lower.toNat ≤ 0x80 + codePoint / 0x1000 % 0x40 := by
    change (if 0xF0 + codePoint / 0x40000 = 0xF0 then (0x90 : UInt8) else 0x80).toNat ≤ _
    split
    · change 0x90 ≤ _
      omega
    · exact Nat.le_add_right ..
  have high : 0x80 + codePoint / 0x1000 % 0x40 ≤ state.upper.toNat := by
    change _ ≤ (if 0xF0 + codePoint / 0x40000 = 0xF4 then (0x8F : UInt8) else 0xBF).toNat
    split
    · change _ ≤ 0x8F
      omega
    · exact le_upper _
  have second : state.step (UInt8.ofNat (0x80 + codePoint / 0x1000 % 0x40)) =
      ([], { needed := 2, codePoint := codePoint / 0x40 / 0x40 }) := by
    have value : codePoint / 0x40000 * 0x40 + codePoint / 0x1000 % 0x40 =
        codePoint / 0x40 / 0x40 := by omega
    exact step_continuation (Nat.succ_ne_zero 2) low high value
  simp only [Utf8State.run, step_lead, lead, second, step_next, step_last, nil_append,
    append_nil]

lemma run_utf8Octets (scalar : Scalar codePoint) :
    Utf8State.run {} (utf8Octets codePoint) = ([codePoint], {}) := by
  obtain ⟨small, noSurrogate⟩ := scalar
  rw [utf8Octets]
  split
  · rename_i one
    simp only [Utf8State.run, step_lead, lead_ofNat (n := codePoint) (by omega), if_pos one,
      append_nil]
  · split
    · exact run_two ‹_› ‹_›
    · split
      · exact run_three ‹_› ‹_› noSurrogate
      · exact run_four ‹_› small

end

lemma run_flatMap_utf8Octets (scalars : ∀ c ∈ characters, Scalar c) :
    Utf8State.run {} (characters.flatMap utf8Octets) = (characters, {}) := by
  induction characters with
  | nil => rfl
  | cons c characters ih =>
    obtain ⟨first, others⟩ := forall_mem_cons.mp scalars
    rw [flatMap_cons, Utf8State.run_append, run_utf8Octets first, ih others]
    rfl

lemma codePoints_spec {text : JsString} (paired : WellPaired text) :
    (∀ c ∈ codePoints text, Scalar c) ∧ (codePoints text).flatMap utf16Units = text ∧
      ((codePoints text).head? = some 0xFEFF → text.head? = some 0xFEFF) := by
  fun_induction codePoints text with
  | case1 =>
    refine ⟨fun c mem => absurd mem not_mem_nil, rfl, ?_⟩
    intro none
    cases none
  | case2 c =>
    have other : ¬ Surrogate c := paired
    have value : (if 0xD800 ≤ c ∧ c ≤ 0xDFFF then 0xFFFD else c.toNat) = c.toNat := if_neg other
    rw [value, flatMap_singleton, utf16Units_toNat]
    refine ⟨forall_mem_singleton.mpr (scalar_of_not_surrogate other), rfl, ?_⟩
    intro same
    exact congrArg some (UInt16.toNat_inj.mp (Option.some.inj same))
  | case3 c d rest pair ih =>
    rw [WellPaired, if_pos pair] at paired
    obtain ⟨scalars, units, -⟩ := ih paired
    obtain ⟨scalar, large, ofPair⟩ := pair_spec pair
    refine ⟨forall_mem_cons.mpr ⟨scalar, scalars⟩, ?_, ?_⟩
    · rw [flatMap_cons, ofPair, units]
      rfl
    · intro same
      have value := Option.some.inj same
      omega
  | case4 c d rest notPair ih =>
    rw [WellPaired, if_neg notPair] at paired
    obtain ⟨other, paired⟩ := paired
    obtain ⟨scalars, units, -⟩ := ih paired
    have value : (if 0xD800 ≤ c ∧ c ≤ 0xDFFF then 0xFFFD else c.toNat) = c.toNat := if_neg other
    rw [value]
    refine ⟨forall_mem_cons.mpr ⟨scalar_of_not_surrogate other, scalars⟩, ?_, ?_⟩
    · rw [flatMap_cons, utf16Units_toNat, units]
      rfl
    · intro same
      exact congrArg some (UInt16.toNat_inj.mp (Option.some.inj same))

/-- Text without lone surrogates and without a byte order mark is read back from UTF-8. -/
theorem utf8Decode_utf8Encode {text : JsString} (paired : WellPaired text)
    (noBom : text.head? ≠ some 0xFEFF) : utf8Decode (utf8Encode text) = text := by
  obtain ⟨scalars, units, bom⟩ := codePoints_spec paired
  have kept : withoutBom false (codePoints text) = codePoints text :=
    if_neg fun both => noBom (bom both.2)
  have whole := run_flatMap_utf8Octets scalars
  rw [utf8Decode, Utf8TextDecoder.decode, utf8Encode, whole]
  change ((withoutBom false (codePoints text ++ [])).flatMap utf16Units) = text
  rw [append_nil, kept, units]

end CommCentral.Jsmime
