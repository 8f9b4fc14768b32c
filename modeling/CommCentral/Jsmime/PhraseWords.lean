import CommCentral.Lib.Decision
import CommCentral.Jsmime.EncodedWords
import CommCentral.Jsmime.WordForms
import Mathlib

/-! The words into which a phrase is cut: each carries whole characters and fits into the
room of its line. -/

namespace CommCentral.Jsmime

open Lib List

lemma hexString_spec (value : Nat) (small : value < 16) :
    hexDigitValue? (hexString.getD value 0) = some value := by
  revert value
  decide

lemma literal_of_not_qpEncoded (octet : UInt8) (literal : ¬ qpEncoded octet = true)
    (notSpace : octet ≠ 0x20) :
    (0x21 ≤ octet ∧ octet ≤ 0x7E) ∧ octet ≠ 0x3D ∧ octet ≠ 0x3F ∧ octet ≠ 0x5F := by
  have all : ∀ n < 256, ¬ qpEncoded (UInt8.ofNat n) = true → UInt8.ofNat n ≠ 0x20 →
      (0x21 ≤ UInt8.ofNat n ∧ UInt8.ofNat n ≤ 0x7E) ∧ UInt8.ofNat n ≠ 0x3D ∧
        UInt8.ofNat n ≠ 0x3F ∧ UInt8.ofNat n ≠ 0x5F := by decide +kernel
  have ofOctet := all octet.toNat octet.toNat_lt
  rw [UInt8.ofNat_toNat] at ofOctet
  exact ofOctet literal notSpace

lemma QForm.octet (octet : UInt8) {text : JsString} (rest : QForm octets text) :
    QForm (octet :: octets) (qpOctet octet ++ text) := by
  have bound := octet.toNat_lt
  rw [qpOctet]
  by_cases encoded : qpEncoded octet = true
  · rw [if_pos encoded]
    exact .escaped octet (hexString_spec _ (by omega)) (hexString_spec _ (by omega)) rest
  · rw [if_neg encoded]
    by_cases space : octet = 0x20
    · rw [if_pos space, space]
      exact .space rest
    · rw [if_neg space]
      obtain ⟨printable, plain⟩ := literal_of_not_qpEncoded octet encoded space
      exact .literal octet printable plain rest

lemma qForm_octets (octets) : QForm octets (octets.flatMap qpOctet) := by
  induction octets with
  | nil => exact .nil
  | cons octet octets ih => exact ih.octet octet

/-- The word that `_addRFC2047Word` makes. -/
def phraseWord (octets : List UInt8) (useQP : Bool) : EncodedWord where
  octets := octets
  encoding := if useQP then 0x51 else 0x42
  body := if useQP then octets.flatMap qpOctet else btoa octets
  shape := by
    cases useQP with
    | true => exact .inr ⟨.inl rfl, qForm_octets octets⟩
    | false => exact .inl ⟨.inl rfl, rfl⟩

lemma phraseWord_text (octets) (useQP : Bool) :
    (phraseWord octets useQP).text = rfc2047Word octets useQP := by
  cases useQP with
  | true => rfl
  | false => rfl

/-- The length of an octet in the Q form. -/
def qpLength (octet : UInt8) : Nat := if qpEncoded octet then 3 else 1

lemma qpOctet_length (octet : UInt8) : (qpOctet octet).length = qpLength octet := by
  rw [qpOctet, qpLength]
  split
  · rfl
  · split
    · rfl
    · rfl

lemma btoa_length (octets) : (btoa octets).length = 4 * ((octets.length + 2) / 3) := by
  fun_induction btoa octets with
  | case1 => rfl
  | case2 a => exact (by decide : 4 = 4 * ((1 + 2) / 3))
  | case3 a b => exact (by decide : 4 = 4 * ((2 + 2) / 3))
  | case4 a b c rest ih =>
    rw [length_append, ih]
    simp only [length_cons, length_nil]
    omega

lemma phraseWord_length (octets) (useQP : Bool) :
    (phraseWord octets useQP).text.length =
      12 + if useQP then (octets.map qpLength).sum else 4 * ((octets.length + 2) / 3) := by
  rw [phraseWord_text, rfc2047Word, length_append]
  cases useQP with
  | true =>
    simp only [if_true, length_append, length_flatMap, qpOctet_length]
    change 10 + (octets.map qpLength).sum + 2 = 12 + (octets.map qpLength).sum
    omega
  | false =>
    simp only [Bool.false_eq_true, if_false, length_append, btoa_length]
    change 10 + _ + 2 = 12 + _
    omega

lemma octets_continuation (value : Nat) :
    isContinuation (UInt8.ofNat (0x80 + value % 0x40)) = true := by
  have all : ∀ n < 0x40, isContinuation (UInt8.ofNat (0x80 + n)) = true := by decide +kernel
  exact all (value % 0x40) (Nat.mod_lt _ (by decide))

lemma utf8Octets_shape (codePoint : Nat) :
    ∃ lead later, utf8Octets codePoint = lead :: later ∧
      ∀ octet ∈ later, isContinuation octet = true := by
  rw [utf8Octets]
  split
  · exact ⟨_, [], rfl, fun octet mem => absurd mem not_mem_nil⟩
  · split
    · refine ⟨_, _, rfl, forall_mem_singleton.mpr (octets_continuation _)⟩
    · split
      · refine ⟨_, _, rfl, forall_mem_cons.mpr ⟨octets_continuation _, ?_⟩⟩
        exact forall_mem_singleton.mpr (octets_continuation _)
      · refine ⟨_, _, rfl, forall_mem_cons.mpr ⟨octets_continuation _, ?_⟩⟩
        refine forall_mem_cons.mpr ⟨octets_continuation _, ?_⟩
        exact forall_mem_singleton.mpr (octets_continuation _)

lemma utf8Octets_later (codePoint : Nat) (later : 0 < k)
    (inside : k < (utf8Octets codePoint).length) :
    isContinuation ((utf8Octets codePoint).getD k 0) = true := by
  obtain ⟨lead, octets, shape, continuations⟩ := utf8Octets_shape codePoint
  obtain ⟨k, rfl⟩ := Nat.exists_eq_add_of_lt later
  rw [shape, Nat.zero_add] at inside ⊢
  rw [getD_cons_succ, getD_eq_getElem _ _ (Nat.lt_of_succ_lt_succ inside)]
  exact continuations _ (getElem_mem _)

lemma exists_cut {characters : List Nat}
    (starts : ¬ isContinuation ((characters.flatMap utf8Octets).getD k 0) = true) :
    ∃ front back, characters = front ++ back ∧
      (characters.flatMap utf8Octets).take k = front.flatMap utf8Octets ∧
      (characters.flatMap utf8Octets).drop k = back.flatMap utf8Octets := by
  induction characters generalizing k with
  | nil => exact ⟨[], [], rfl, take_nil, drop_nil⟩
  | cons c characters ih =>
    rw [flatMap_cons] at starts ⊢
    rcases Nat.eq_zero_or_pos k with rfl | later
    · exact ⟨[], c :: characters, rfl, rfl, rfl⟩
    · by_cases inside : k < (utf8Octets c).length
      · rw [getD_append _ _ _ _ inside] at starts
        exact absurd (utf8Octets_later c later inside) starts
      · rw [getD_append_right _ _ _ _ (by omega)] at starts
        obtain ⟨front, back, rfl, taken, dropped⟩ := ih starts
        refine ⟨c :: front, back, rfl, ?_, ?_⟩
        · rw [take_append, take_of_length_le (by omega), taken, flatMap_cons]
        · rw [drop_append, drop_of_length_le (by omega), dropped, nil_append]

lemma characterStart_starts {encodedText : List UInt8} (within : k ≤ i)
    (start : ¬ isContinuation (encodedText.getD k 0)) :
    ¬ isContinuation (encodedText.getD (characterStart encodedText i) 0) := by
  induction i with
  | zero =>
    rw [Nat.le_zero.mp within] at start
    exact start
  | succ i ih =>
    rw [characterStart]
    split
    · rename_i continuation
      apply ih
      by_contra beyond
      obtain rfl : k = i + 1 := by omega
      exact start continuation
    · assumption

/-- The words carry whole characters. -/
def CutInto (characters : List Nat) (words : List EncodedWord) : Prop :=
  ∃ pieces : List (List Nat), pieces.flatten = characters ∧
    words.map EncodedWord.octets = pieces.map fun piece => piece.flatMap utf8Octets

section
variable (settings : Settings) (mayBreakAfter : Bool)

/-- The words are put out one after the other. -/
def emitWords : List EncodedWord → EmitM Unit
  | [] => pure ()
  | [word] => addText settings word.text mayBreakAfter
  | word :: next :: words => do
    addText settings word.text true
    emitWords (next :: words)

/-- The first word has the room that is given, each later one that of a new line. -/
structure WordsFit (maxChars : Int) (words : List EncodedWord) : Prop where
  first : ∀ word, words.head? = some word → (word.text.length : Int) ≤ 12 + max maxChars 0
  later : ∀ word ∈ words.tail, word.text.length + 1 ≤ settings.softMargin

end

/-- The two lengths of the octets since `start`, of which one is within the room. -/
structure EncodeCounts (encodedText : List UInt8) (start i b64Len qpLen : Nat) (maxChars : Int) :
    Prop where
  b64 : b64Len = 4 * ((i - start + 2) / 3)
  qp : qpLen = (((encodedText.take i).drop start).map qpLength).sum
  fits : (min b64Len qpLen : Nat) ≤ max maxChars 0

section
variable {characters : List Nat} {start i b64Len qpLen : Nat}

lemma emitWords_cons (word) {words : List EncodedWord} (some : words ≠ []) :
    emitWords settings mayBreakAfter (word :: words) =
      (do addText settings word.text true; emitWords settings mayBreakAfter words) := by
  cases words with
  | nil => exact absurd rfl some
  | cons next words => rfl

/-- The shorter one of the two forms is within the room. -/
theorem EncodeCounts.word_fits (counts : EncodeCounts encodedText start i b64Len qpLen maxChars)
    (front : octets <+: (encodedText.take i).drop start) :
    ((phraseWord octets (qpLen ≤ b64Len)).text.length : Int) ≤ 12 + max maxChars 0 := by
  obtain ⟨b64, qp, fits⟩ := counts
  have few : octets.length ≤ i - start := by
    have most := front.length_le
    rw [length_drop, length_take] at most
    omega
  obtain ⟨behind, shape⟩ := front
  rw [← shape, map_append, sum_append] at qp
  rw [phraseWord_length]
  by_cases shorter : qpLen ≤ b64Len
  · rw [decide_eq_true shorter, if_pos rfl]
    omega
  · rw [decide_eq_false shorter, if_neg Bool.false_ne_true]
    omega

lemma EncodeCounts.octet {octet : UInt8} (order : start ≤ i)
    (counts : EncodeCounts encodedText start i b64Len qpLen maxChars)
    (found : encodedText[i]? = some octet)
    (within : ¬ (maxChars < b64Len + (if (i - start) % 3 = 0 then 4 else 0 : Nat) ∧
      maxChars < qpLen + (if qpEncoded octet then 3 else 1 : Nat))) :
    EncodeCounts encodedText start (i + 1) (b64Len + if (i - start) % 3 = 0 then 4 else 0)
      (qpLen + if qpEncoded octet then 3 else 1) maxChars := by
  obtain ⟨b64, qp, fits⟩ := counts
  have inside : i < encodedText.length := (List.getElem?_eq_some_iff.mp found).1
  have chunk : (encodedText.take (i + 1)).drop start =
      (encodedText.take i).drop start ++ [octet] := by
    rw [take_add_one, found, Option.toList_some, drop_append_of_le_length]
    rw [length_take]
    omega
  refine ⟨?_, ?_, ?_⟩
  · split <;> omega
  · rw [chunk, map_append, sum_append, qp]
    rfl
  · omega

lemma cut_before (valid : ∀ c ∈ characters, c < 0x110000) (aligned : Aligned encodedText)
    (rest : encodedText.drop start = characters.flatMap utf8Octets) (order : start ≤ i)
    (inside : i < encodedText.length) :
    start ≤ characterStart encodedText i ∧
      ∃ front back, characters = front ++ back ∧
        (encodedText.take (characterStart encodedText i)).drop start = front.flatMap utf8Octets ∧
        encodedText.drop (characterStart encodedText i) = back.flatMap utf8Octets := by
  have opening : ¬ isContinuation (encodedText.getD start 0) = true := by
    cases characters with
    | nil =>
      have none := drop_eq_nil_iff.mp rest
      omega
    | cons c characters =>
      have first := (utf8Octets_spec c (valid c mem_cons_self)).2
      obtain ⟨lead, later, shape, -⟩ := utf8Octets_shape c
      have head : encodedText.getD start 0 = (encodedText.drop start).getD 0 0 := by
        rw [getD_eq_getElem?_getD, getD_eq_getElem?_getD, getElem?_drop]
        rfl
      rw [head, rest, flatMap_cons, shape]
      rw [shape] at first
      exact first
  obtain ⟨k, within, -, starts⟩ := aligned i inside
  have boundary := characterStart_starts within starts
  have order := le_characterStart order opening
  refine ⟨order, ?_⟩
  have relative : (encodedText.drop start).getD (characterStart encodedText i - start) 0 =
      encodedText.getD (characterStart encodedText i) 0 := by
    rw [getD_eq_getElem?_getD, getD_eq_getElem?_getD, getElem?_drop,
      Nat.add_sub_cancel' order]
  rw [← relative, rest] at boundary
  obtain ⟨front, back, shape, taken, dropped⟩ := exists_cut boundary
  refine ⟨front, back, shape, ?_, ?_⟩
  · rw [← taken, ← rest, drop_take]
  · rw [← dropped, ← rest, drop_drop, Nat.add_sub_cancel' order]

lemma encodeLoop_words (mayBreakAfter : Bool) (aligned : Aligned encodedText)
    (valid : ∀ c ∈ characters, c < 0x110000)
    (rest : encodedText.drop start = characters.flatMap utf8Octets)
    (state : EncodeState settings encodedText first i start b64Len maxChars)
    (counts : EncodeCounts encodedText start i b64Len qpLen maxChars)
    (enough : encodeSteps encodedText first i start < fuel) :
    ∃ words, words ≠ [] ∧ CutInto characters words ∧ WordsFit settings maxChars words ∧
      encodeLoop settings encodedText mayBreakAfter fuel i start b64Len qpLen maxChars =
        emitWords settings mayBreakAfter words := by
  induction fuel generalizing characters first start i b64Len qpLen maxChars with
  | zero => exact absurd enough (Nat.not_lt_zero _)
  | succ fuel ih =>
    rw [encodeLoop]
    cases found : encodedText[i]? with
    | none =>
      have all : encodedText.take i = encodedText :=
        take_of_length_le (List.getElem?_eq_none_iff.mp found)
      have whole : encodedText.drop start <+: (encodedText.take i).drop start :=
        (congrArg (List.drop start) all) ▸ prefix_refl _
      refine ⟨[phraseWord (encodedText.drop start) (qpLen ≤ b64Len)], cons_ne_nil _ _,
        ⟨[characters], flatten_singleton, ?_⟩, ⟨?_, ?_⟩, ?_⟩
      · rw [map_singleton, map_singleton, ← rest]
        rfl
      · intro word same
        rw [← Option.some.inj same]
        exact counts.word_fits whole
      · intro word mem
        exact absurd mem not_mem_nil
      · rw [emitWords, phraseWord_text]
        rfl
    | some octet =>
      dsimp only
      have more : i < encodedText.length := (List.getElem?_eq_some_iff.mp found).1
      by_cases full :
          maxChars < b64Len + (if (i - start) % 3 = 0 then 4 else 0 : Nat) ∧
            maxChars < qpLen + (if qpEncoded octet then 3 else 1 : Nat)
      · obtain ⟨next, fewer⟩ := state.wordEnd aligned more full.1
        rw [if_pos full]
        obtain ⟨order, front, back, shape, taken, dropped⟩ :=
          cut_before valid aligned rest state.order more
        have upTo := characterStart_le encodedText i
        have fresh : EncodeCounts encodedText (characterStart encodedText i)
            (characterStart encodedText i) 0 0 (settings.softMargin - b64Prelude.length - 3) := by
          refine ⟨by omega, ?_, by omega⟩
          rw [drop_of_length_le (by rw [length_take]; omega)]
          rfl
        rw [shape, forall_mem_append] at valid
        obtain ⟨words, some, ⟨pieces, joined, carried⟩, fit, loop⟩ :=
          ih valid.2 dropped next fresh (by omega)
        have chunk : (encodedText.take (characterStart encodedText i)).drop start <+:
            (encodedText.take i).drop start := by
          rw [drop_take, drop_take]
          exact take_prefix_take_left (by omega)
        refine ⟨phraseWord ((encodedText.take (characterStart encodedText i)).drop start)
          (qpLen ≤ b64Len) :: words, cons_ne_nil _ _, ⟨front :: pieces, ?_, ?_⟩, ⟨?_, ?_⟩, ?_⟩
        · rw [flatten_cons, joined, shape]
        · rw [map_cons, map_cons, carried, ← taken]
          rfl
        · intro word same
          rw [← Option.some.inj same]
          exact counts.word_fits chunk
        · obtain ⟨word, words, rfl⟩ := exists_cons_of_ne_nil some
          have room := fit.first word rfl
          have margin := settings.softMargin_ge
          have prelude : b64Prelude.length = 10 := by decide
          exact forall_mem_cons.mpr ⟨by omega, fit.later⟩
        · rw [emitWords_cons _ some, loop, phraseWord_text]
          rfl
      · obtain ⟨next, fewer⟩ := state.octet more
        rw [if_neg full]
        exact ih valid rest next (counts.octet state.order found full) (by omega)

end

end CommCentral.Jsmime
