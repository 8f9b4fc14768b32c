import CommCentral.Jsmime.HeaderEmitter
import Mathlib.Data.List.GetD

/-! The loop that cuts a phrase into encoded words: every later word takes some octets, so
the loop ends. -/
namespace CommCentral.Jsmime

open Lib List

variable (text : JsString)

lemma codePoints_lt : ∀ c ∈ codePoints text, c < 0x110000 := by
  fun_induction codePoints text with
  | case1 =>
    intro c mem
    cases mem
  | case2 c =>
    intro d mem
    rw [mem_singleton.mp mem]
    have bound := c.toNat_lt
    split <;> omega
  | case3 c d rest pair ih =>
    intro e mem
    cases mem_cons.mp mem with
    | inl same =>
      have high : c.toNat ≤ 0xDBFF := UInt16.le_iff_toNat_le.mp pair.2.1
      have low : d.toNat ≤ 0xDFFF := UInt16.le_iff_toNat_le.mp pair.2.2.2
      omega
    | inr later => exact ih e later
  | case4 c d rest other ih =>
    intro e mem
    cases mem_cons.mp mem with
    | inl same =>
      have bound := c.toNat_lt
      rw [same]
      split <;> omega
    | inr later => exact ih e later

lemma lead_not_continuation (octet : Nat) (small : octet < 0x100)
    (lead : octet < 0x80 ∨ 0xC0 ≤ octet) : ¬ isContinuation (UInt8.ofNat octet) := by
  revert octet
  decide +kernel

/-- A character has at most four octets, of which the first is no continuation. -/
theorem utf8Octets_spec (codePoint : Nat) (valid : codePoint < 0x110000) :
    (utf8Octets codePoint).length ≤ 4 ∧
      ¬ isContinuation ((utf8Octets codePoint).getD 0 0) := by
  rw [utf8Octets]
  split
  · exact ⟨Nat.le_add_left 1 3, lead_not_continuation codePoint (by omega) (.inl ‹_›)⟩
  · split
    · exact ⟨Nat.le_add_left 2 2, lead_not_continuation (0xC0 + codePoint / 0x40) (by omega) (by omega)⟩
    · split
      · exact ⟨Nat.le_add_left 3 1,
          lead_not_continuation (0xE0 + codePoint / 0x1000) (by omega) (by omega)⟩
      · exact ⟨le_refl 4,
          lead_not_continuation (0xF0 + codePoint / 0x40000) (by omega) (by omega)⟩

/-- At every octet, or at most three octets before it, a character starts. -/
def Aligned (encodedText : List UInt8) : Prop :=
  ∀ i < encodedText.length, ∃ k ≤ i, i ≤ k + 3 ∧ ¬ isContinuation (encodedText.getD k 0)

lemma Aligned.append (short : first.length ≤ 4) (lead : ¬ isContinuation (first.getD 0 0))
    (aligned : Aligned second) : Aligned (first ++ second) := by
  intro i inside
  by_cases inFirst : i < first.length
  · refine ⟨0, Nat.zero_le i, by omega, ?_⟩
    rw [getD_append _ _ _ _ (by omega)]
    exact lead
  · rw [length_append] at inside
    obtain ⟨k, within, near, start⟩ := aligned (i - first.length) (by omega)
    refine ⟨first.length + k, by omega, by omega, ?_⟩
    rw [getD_append_right _ _ _ _ (Nat.le_add_right _ _), Nat.add_sub_cancel_left]
    exact start

lemma utf8Encode_aligned : Aligned (utf8Encode text) := by
  have valid := codePoints_lt text
  rw [utf8Encode]
  generalize codePoints text = characters at valid
  induction characters with
  | nil =>
    intro i inside
    cases inside
  | cons codePoint rest ih =>
    obtain ⟨short, lead⟩ := utf8Octets_spec codePoint (valid codePoint mem_cons_self)
    rw [flatMap_cons]
    exact Aligned.append short lead (ih fun c mem => valid c (mem_cons_of_mem _ mem))

lemma le_characterStart (within : k ≤ i) (start : ¬ isContinuation (encodedText.getD k 0)) :
    k ≤ characterStart encodedText i := by
  induction i with
  | zero => exact within
  | succ i ih =>
    rw [characterStart]
    split
    case isTrue continuation =>
      apply ih
      by_contra beyond
      obtain rfl : k = i + 1 := by omega
      exact start continuation
    case isFalse => exact within

lemma characterStart_le (encodedText) (i : Nat) : characterStart encodedText i ≤ i := by
  induction i with
  | zero => exact le_refl 0
  | succ i ih =>
    rw [characterStart]
    split
    · exact ih.trans (Nat.le_succ i)
    · exact le_refl _

/-- Where the loop stands: the length counts the octets since `start`, and every word but
the first has the room of a new line. -/
structure EncodeState (settings : Settings) (encodedText : List UInt8) (first : Bool)
    (i start b64Len : Nat) (maxChars : Int) : Prop where
  order : start ≤ i
  inside : i ≤ encodedText.length
  counted : b64Len ≤ 4 * ((i - start + 2) / 3)
  beginning : first → start = 0
  room : first = false → maxChars = settings.softMargin - b64Prelude.length - 3

/-- The steps the loop still needs at most. -/
def encodeSteps (encodedText : List UInt8) (first : Bool) (i start : Nat) : Nat :=
  2 * (encodedText.length - start) + 1 - (i - start) + if first then 4 else 0

variable {i start b64Len qpLen : Nat}

section

variable (state : EncodeState settings encodedText first i start b64Len maxChars)
include state

lemma EncodeState.wordEnd (aligned : Aligned encodedText) (more : i < encodedText.length)
    (full : maxChars < b64Len + (if (i - start) % 3 = 0 then 4 else 0 : Nat)) :
    EncodeState settings encodedText false (characterStart encodedText i)
        (characterStart encodedText i) 0 (settings.softMargin - b64Prelude.length - 3) ∧
      encodeSteps encodedText false (characterStart encodedText i)
        (characterStart encodedText i) < encodeSteps encodedText first i start := by
  obtain ⟨k, within, near, starts⟩ := aligned i more
  have downTo := le_characterStart within starts
  have upTo := characterStart_le encodedText i
  have margin := settings.softMargin_ge
  have prelude : b64Prelude.length = 10 := by decide
  have counted := state.counted
  have order := state.order
  refine ⟨⟨le_refl _, upTo.trans state.inside, Nat.zero_le _, nofun, fun _ => rfl⟩, ?_⟩
  rw [encodeSteps, encodeSteps]
  cases first with
  | true =>
    have beginning := state.beginning rfl
    simp only [if_true, Bool.false_eq_true, if_false]
    omega
  | false =>
    have room := state.room rfl
    simp only [Bool.false_eq_true, if_false]
    have long : 12 ≤ i - start := by
      split at full <;> omega
    omega

lemma EncodeState.octet (more : i < encodedText.length) :
    EncodeState settings encodedText first (i + 1) start
        (b64Len + if (i - start) % 3 = 0 then 4 else 0) maxChars ∧
      encodeSteps encodedText first (i + 1) start < encodeSteps encodedText first i start := by
  have counted := state.counted
  have order := state.order
  refine ⟨⟨by omega, by omega, ?_, state.beginning, state.room⟩, ?_⟩
  · split <;> omega
  · rw [encodeSteps, encodeSteps]
    split <;> omega

end

lemma encodeLoop_fuel (aligned : Aligned encodedText) (mayBreakAfter : Bool) (fuel : Nat)
    (state : EncodeState settings encodedText first i start b64Len maxChars)
    (enough : encodeSteps encodedText first i start ≤ fuel) :
    encodeLoop settings encodedText mayBreakAfter (fuel + 1) i start b64Len qpLen maxChars =
      encodeLoop settings encodedText mayBreakAfter fuel i start b64Len qpLen maxChars := by
  induction fuel generalizing i start b64Len qpLen maxChars first with
  | zero =>
    have inside := state.inside
    have order := state.order
    rw [encodeSteps] at enough
    omega
  | succ fuel ih =>
    conv_lhs => rw [encodeLoop]
    conv_rhs => rw [encodeLoop]
    cases found : encodedText[i]? with
    | none => dsimp only
    | some octet =>
      have more : i < encodedText.length := (List.getElem?_eq_some_iff.mp found).1
      dsimp only
      by_cases full :
          maxChars < b64Len + (if (i - start) % 3 = 0 then 4 else 0 : Nat) ∧
            maxChars < qpLen + (if qpEncoded octet then 3 else 1 : Nat)
      · obtain ⟨next, fewer⟩ := state.wordEnd aligned more full.1
        rw [if_pos full, if_pos full, ih next (by omega)]
      · obtain ⟨next, fewer⟩ := state.octet more
        rw [if_neg full, if_neg full]
        exact ih next (by omega)

lemma encodeRFC2047Phrase_fuel (mayBreakAfter : Bool) (length extra : Nat) :
    encodeLoop settings (utf8Encode text) mayBreakAfter (encodeFuel (utf8Encode text) + extra)
        0 0 0 0 (settings.softMargin - length - (b64Prelude.length + 2)) =
      encodeLoop settings (utf8Encode text) mayBreakAfter (encodeFuel (utf8Encode text))
        0 0 0 0 (settings.softMargin - length - (b64Prelude.length + 2)) := by
  induction extra with
  | zero => rfl
  | succ extra ih =>
    have state : EncodeState settings (utf8Encode text) true 0 0 0
        (settings.softMargin - length - (b64Prelude.length + 2)) :=
      ⟨le_refl 0, Nat.zero_le _, Nat.zero_le _, fun _ => rfl, nofun⟩
    rw [← ih, ← Nat.add_assoc]
    apply encodeLoop_fuel (utf8Encode_aligned text) mayBreakAfter _ state
    rw [encodeSteps, encodeFuel, if_pos rfl]
    omega

end CommCentral.Jsmime
