import CommCentral.Jsmime.WordForms
import Mathlib.Data.List.Infix

/-! A group of encoded words in UTF-8 is decoded as one text, wherever the octets are cut. -/

namespace CommCentral.Jsmime

open Lib List

/-- No encoded word is found in the text. -/
def PlainText (text : JsString) : Prop := ∀ behind ∈ text.tails, wordLength? behind = none

instance (text : JsString) : Decidable (PlainText text) :=
  inferInstanceAs (Decidable (∀ behind ∈ text.tails, wordLength? behind = none))

/-- Linear white space. -/
def Separator (text : JsString) : Prop := ∀ c ∈ text, c ∈ js " \t\r\n"

/-- White space alone is dropped. -/
def keptText (text : JsString) : JsString := if isBlank text then [] else text

section
variable {charset body before behind text rest : JsString}

lemma untilQuestion_of_plain (plain : charQuestion ∉ text) (rest) :
    untilQuestion (text ++ charQuestion :: rest) = some (text, rest) := by
  induction text with
  | nil => rfl
  | cons c text ih =>
    rw [mem_cons, not_or] at plain
    rw [cons_append, untilQuestion, if_neg (Ne.symm plain.1), ih plain.2]
    rfl

lemma wordLength?_word (ofCharset : charQuestion ∉ charset) (ofBody : charQuestion ∉ body)
    (known : isEncoding encoding = true) (rest) :
    wordLength? (charEquals :: charQuestion :: (charset ++ charQuestion :: encoding ::
      charQuestion :: (body ++ charQuestion :: charEquals :: rest))) =
        some (charset.length + body.length + 7) := by
  rw [wordLength?, if_pos ⟨rfl, rfl⟩, untilQuestion_of_plain ofCharset]
  simp only [Option.bind_eq_bind, Option.bind_some, known, and_self, if_true,
    untilQuestion_of_plain ofBody, head?_cons]

/-- A word does not begin in plain text and end in a word. -/
theorem wordLength?_before (plain : wordLength? (before ++ [charEquals]) = none)
    (nonempty : before ≠ []) (rest : JsString) :
    wordLength? (before ++ charEquals :: charQuestion :: 0x55 :: rest) = none := by
  -- The first `?` of the word is the next one behind a text without any.
  have next : ∀ text : JsString, charQuestion ∉ text →
      untilQuestion (text ++ charEquals :: charQuestion :: 0x55 :: rest) =
        some (text ++ [charEquals], 0x55 :: rest) := by
    intro text none
    rw [← untilQuestion_of_plain (by simpa using ⟨none, by decide⟩), append_assoc]
    rfl
  match before, nonempty with
  | [c], _ => exact if_neg fun both => absurd both.2 (by decide)
  | c :: d :: before, _ =>
    by_cases starts : c = charEquals ∧ d = charQuestion
    · obtain ⟨rfl, rfl⟩ := starts
      by_cases more : charQuestion ∈ before
      · obtain ⟨charset, before, rfl, ofCharset⟩ := eq_append_cons_of_mem more
        rw [cons_append, cons_append, append_assoc, cons_append, wordLength?,
          if_pos ⟨rfl, rfl⟩, untilQuestion_of_plain ofCharset] at plain ⊢
        match before with
        | [] => rfl
        | [x] => exact if_neg fun both => absurd both.2 (by decide)
        | x :: y :: before =>
          by_cases known : isEncoding x = true ∧ y = charQuestion
          · by_cases more : charQuestion ∈ before
            · obtain ⟨body, before, rfl, ofBody⟩ := eq_append_cons_of_mem more
              simp only [Option.bind_eq_bind, Option.bind_some, cons_append, if_pos known,
                append_assoc, untilQuestion_of_plain ofBody] at plain ⊢
              cases before with
              | nil => exact absurd plain (by simp)
              | cons z before => exact plain
            · simp only [Option.bind_eq_bind, Option.bind_some, cons_append, if_pos known,
                next before more]
              rfl
          · exact if_neg known
      · rw [cons_append, cons_append, wordLength?, if_pos ⟨rfl, rfl⟩, next before more]
        cases rest with
        | nil => rfl
        | cons e rest =>
          have other : ¬ (isEncoding 0x55 = true ∧ e = charQuestion) := fun both =>
            absurd both.1 (by decide)
          simp only [Option.bind_eq_bind, Option.bind_some, if_neg other]
    · exact if_neg starts

/-- Nor does one begin in white space. -/
theorem wordLength?_separator (blank : c ∈ js " \t\r\n") (rest : JsString) :
    wordLength? (c :: rest) = none := by
  have other : ∀ c ∈ js " \t\r\n", c ≠ charEquals := by decide
  cases rest with
  | nil => rfl
  | cons d rest => exact if_neg fun both => other c blank both.1

lemma componentsFrom_skip (text rest) :
    componentsFrom text.length before (text ++ rest) = componentsFrom 0 before rest := by
  induction text with
  | nil => rfl
  | cons c text ih => exact ih

lemma componentsFrom_plain
    (plain : ∀ front back, text = front ++ back → back ≠ [] → wordLength? (back ++ rest) = none) :
    componentsFrom 0 before (text ++ rest) = componentsFrom 0 (before ++ text) rest := by
  induction text generalizing before with
  | nil => rw [append_nil]; rfl
  | cons c text ih =>
    have here := plain [] (c :: text) rfl (cons_ne_nil _ _)
    rw [cons_append] at here ⊢
    rw [componentsFrom, here]
    dsimp only
    rw [ih, append_assoc, singleton_append]
    intro front back shape
    exact plain (c :: front) back (congrArg _ shape)

end

namespace EncodedWord

variable (word : EncodedWord) (before rest : JsString)

lemma text_append : word.text ++ rest =
    charEquals :: charQuestion :: (js "UTF-8" ++ charQuestion :: word.encoding :: charQuestion ::
      (word.body ++ charQuestion :: charEquals :: rest)) := by
  change (js "=?UTF-8?" ++ word.encoding :: charQuestion :: (word.body ++ js "?=")) ++ rest = _
  simp [js, charEquals, charQuestion]

lemma text_cons : ∃ behind, word.text = charEquals :: behind := ⟨_, rfl⟩

lemma componentsFrom_text : componentsFrom 0 before (word.text ++ rest) =
    before :: word.text :: componentsFrom 0 [] rest := by
  have length : wordLength? (word.text ++ rest) = some word.text.length := by
    rw [text_append, wordLength?_word (by decide) word.noQuestion word.isEncoding]
    rw [text, wordText, length_append, length_cons, length_cons, length_append]
    change some (5 + word.body.length + 7) = some (8 + (word.body.length + 2 + 1 + 1))
    congr 1
    omega
  obtain ⟨behind, shape⟩ := word.text_cons
  have taken : (word.text ++ rest).take word.text.length = word.text := take_left
  rw [shape, cons_append] at length taken ⊢
  rw [componentsFrom, length]
  dsimp only
  rw [taken, length_cons, Nat.add_sub_cancel, componentsFrom_skip]

lemma startsLikeWord : Jsmime.startsLikeWord word.text = true := by
  have front := word.text_append []
  rw [append_nil] at front
  rw [front]
  rfl

end EncodedWord

/-- The words behind the first one, each with the white space before it. -/
abbrev LaterWords := List (JsString × EncodedWord)

def LaterWords.text (words : LaterWords) : JsString :=
  words.flatMap fun word => word.1 ++ word.2.text

def LaterWords.octets (words : LaterWords) : List UInt8 := words.flatMap fun word => word.2.octets

def LaterWords.components (words : LaterWords) : List JsString :=
  words.flatMap fun word => [word.1, word.2.text]

lemma componentsFrom_later {words : LaterWords} (separated : ∀ word ∈ words, Separator word.1)
    {after : JsString} (plainAfter : PlainText after) :
    componentsFrom 0 [] (words.text ++ after) = words.components ++ [after] := by
  induction words with
  | nil =>
    have plain : ∀ front back, after = front ++ back → back ≠ [] →
        wordLength? (back ++ []) = none := by
      intro front back shape _
      rw [append_nil]
      exact plainAfter back ((mem_tails ..).mpr ⟨front, shape.symm⟩)
    have whole : componentsFrom 0 [] (_ ++ []) = componentsFrom 0 ([] ++ _) [] :=
      componentsFrom_plain plain
    rw [append_nil, nil_append] at whole
    exact whole
  | cons word words ih =>
    obtain ⟨first, others⟩ := forall_mem_cons.mp separated
    have blank : ∀ front back, word.1 = front ++ back → back ≠ [] → ∀ rest,
        wordLength? (back ++ rest) = none := by
      intro front back shape nonempty rest
      cases back with
      | nil => exact absurd rfl nonempty
      | cons c back =>
        have mem : c ∈ word.1 := by
          rw [shape]
          exact mem_append_right front mem_cons_self
        exact wordLength?_separator (first c mem) _
    rw [LaterWords.text, flatMap_cons, append_assoc, append_assoc,
      componentsFrom_plain fun front back shape nonempty => blank front back shape nonempty _,
      word.2.componentsFrom_text]
    change _ :: _ :: componentsFrom 0 [] (LaterWords.text words ++ after) = _
    rw [ih others]
    rfl

lemma componentsFrom_group {before after : JsString} (first : EncodedWord) {words : LaterWords}
    (plainBefore : PlainText (before ++ [charEquals]))
    (separated : ∀ word ∈ words, Separator word.1) (plainAfter : PlainText after) :
    componentsFrom 0 [] (before ++ (first.text ++ (words.text ++ after))) =
      before :: first.text :: (words.components ++ [after]) := by
  rw [componentsFrom_plain, nil_append, first.componentsFrom_text,
    componentsFrom_later separated plainAfter]
  intro front back shape nonempty
  rw [first.text_append]
  apply wordLength?_before (plainBefore _ _) nonempty
  rw [shape, append_assoc]
  exact (mem_tails ..).mpr (suffix_append front _)

lemma withoutBom_append (bomSeen : Bool) (first second) :
    withoutBom bomSeen (first ++ second) =
      withoutBom bomSeen first ++ withoutBom (bomSeen || !first.isEmpty) second := by
  cases first with
  | nil =>
    have none : withoutBom bomSeen [] = [] := ite_self _
    rw [none, isEmpty_nil, Bool.not_true, Bool.or_false, nil_append, nil_append]
  | cons c first =>
    have kept : withoutBom (bomSeen || !(c :: first).isEmpty) second = second := by
      rw [isEmpty_cons, Bool.not_false, Bool.or_true]
      exact if_neg fun both => absurd both.1 (by decide)
    rw [kept, withoutBom, withoutBom]
    by_cases mark : (!bomSeen) = true ∧ c = 0xFEFF
    · have found : ∀ rest : List Nat, (!bomSeen) = true ∧ (c :: rest).head? = some 0xFEFF :=
        fun _ => ⟨mark.1, congrArg some mark.2⟩
      rw [if_pos (found first), cons_append, if_pos (found (first ++ second))]
      rfl
    · have missing : ∀ rest : List Nat, ¬ ((!bomSeen) = true ∧ (c :: rest).head? = some 0xFEFF) :=
        fun _ both => mark ⟨both.1, Option.some.inj both.2⟩
      rw [if_neg (missing first), cons_append, if_neg (missing (first ++ second))]

lemma Utf8TextDecoder.decode_append (decoder : Utf8TextDecoder) (first second : List UInt8)
    (stream : Bool) :
    decoder.decode (first ++ second) stream =
      ((decoder.decode first true).1 ++ ((decoder.decode first true).2.decode second stream).1,
        ((decoder.decode first true).2.decode second stream).2) := by
  have seen : ∀ characters later : List Nat, (decoder.bomSeen || !(characters ++ later).isEmpty) =
      (decoder.bomSeen || !characters.isEmpty || !later.isEmpty) := by
    intro characters later
    cases characters with
    | nil => rw [nil_append, isEmpty_nil, Bool.not_true, Bool.or_false]
    | cons c characters => simp
  cases stream with
  | true =>
    simp only [decode, if_true, Utf8State.run_append, withoutBom_append, flatMap_append, seen]
  | false =>
    simp only [decode, if_true, Bool.false_eq_true, if_false, Utf8State.run_append,
      append_assoc, withoutBom_append, flatMap_append]

lemma splitAtChar_of_plain {text : JsString} (plain : c ∉ text) (rest) :
    splitAtChar c (text ++ c :: rest) = text :: splitAtChar c rest := by
  induction text with
  | nil => exact if_pos rfl
  | cons d text ih =>
    rw [mem_cons, not_or] at plain
    rw [cons_append, splitAtChar, if_neg (Ne.symm plain.1), ih plain.2]
    rfl

lemma splitAtChar_ne_nil (c : UInt16) (text) : splitAtChar c text ≠ [] := by
  induction text with
  | nil => exact cons_ne_nil _ _
  | cons d text ih =>
    rw [splitAtChar]
    split
    · exact cons_ne_nil _ _
    · exact fun none => ih (modifyHead_eq_nil_iff.mp none)

lemma splitAtChar_pieces (c : UInt16) (text) :
    [c].intercalate (splitAtChar c text) = text ∧ ∀ piece ∈ splitAtChar c text, c ∉ piece := by
  induction text with
  | nil => exact ⟨rfl, forall_mem_singleton.mpr not_mem_nil⟩
  | cons d text ih =>
    rw [splitAtChar]
    cases pieces : splitAtChar c text with
    | nil => exact absurd pieces (splitAtChar_ne_nil c text)
    | cons piece others =>
      rw [pieces] at ih
      obtain ⟨joined, plain⟩ := ih
      obtain ⟨first, rest⟩ := forall_mem_cons.mp plain
      by_cases found : d = c
      · rw [if_pos found]
        refine ⟨?_, forall_mem_cons.mpr ⟨not_mem_nil, plain⟩⟩
        rw [intercalate_cons_cons, joined, found]
        rfl
      · rw [if_neg found]
        refine ⟨?_, forall_mem_cons.mpr ⟨?_, rest⟩⟩
        · cases others with
          | nil => exact congrArg (d :: ·) joined
          | cons next others =>
            rw [intercalate_cons_cons] at joined
            rw [modifyHead_cons, intercalate_cons_cons, cons_append, cons_append,
              joined]
        · exact not_mem_cons_of_ne_of_not_mem (Ne.symm found) first

section
variable {σ : Type} {state : WordState σ}

/-- The decoder for the next word in UTF-8. -/
def WordState.Continues (state : WordState σ) (decoder : Utf8TextDecoder) : Prop :=
  state = { lastCharset := js "UTF-8", currentDecoder := some (.utf8 decoder) } ∨
    state = {} ∧ decoder = {}

/-- The state behind a word in UTF-8. -/
def afterWord (decoder : Utf8TextDecoder) : WordState σ where
  lastCharset := js "UTF-8"
  currentDecoder := some (.utf8 decoder)

lemma decodeBuffer_utf8 (continues : state.Continues decoder) (octets) (isLastToken : Bool) :
    decodeBuffer others state (js "UTF-8") (octets.map UInt8.toUInt16) isLastToken =
      (some (decoder.decode octets (!isLastToken)).1,
        afterWord (decoder.decode octets (!isLastToken)).2) := by
  have back : (octets.map UInt8.toUInt16).map UInt16.toUInt8 = octets := by
    rw [map_map]
    exact map_id'' UInt8.toUInt8_toUInt16 octets
  have utf8 : ∀ buffer, returnsToAscii (js "UTF-8") buffer = false := fun buffer =>
    decide_eq_false fun both => absurd both.1 (by decide)
  rcases continues with rfl | ⟨rfl, rfl⟩
  · simp only [decodeBuffer, ne_eq, not_true_eq_false, if_false,
      Option.some_or, MimeTextDecoder.decode, Option.getD_some, back, utf8, Bool.or_false,
      nil_append]
    rfl
  · have other : js "UTF-8" ≠ [] := by decide
    simp only [decodeBuffer, if_pos other, WordState.flush, Option.elim_none, Option.none_or,
      MimeTextDecoder.construct, if_true, MimeTextDecoder.decode, Option.getD_some, back, utf8,
      Bool.or_false, nil_append]
    rfl

variable (word : EncodedWord)

lemma decode2047Token_word (continues : state.Continues decoder) (isLastToken : Bool) :
    decode2047Token others state word.text isLastToken =
      some (some (decoder.decode word.octets (!isLastToken)).1,
        afterWord (decoder.decode word.octets (!isLastToken)).2) := by
  have parts : splitAtChar charQuestion word.text =
      [[charEquals], js "UTF-8", [word.encoding], word.body, [charEquals]] := by
    have shape := word.text_append []
    rw [append_nil] at shape
    have encoding : charQuestion ∉ [word.encoding] := by
      intro mem
      have known := word.isEncoding
      rw [← mem_singleton.mp mem] at known
      cases known
    rw [shape]
    change splitAtChar charQuestion ([charEquals] ++ charQuestion :: (js "UTF-8" ++ charQuestion ::
      ([word.encoding] ++ charQuestion :: (word.body ++ charQuestion :: [charEquals])))) = _
    rw [splitAtChar_of_plain (by decide), splitAtChar_of_plain (by decide),
      splitAtChar_of_plain encoding, splitAtChar_of_plain word.noQuestion]
    rfl
  have charset : (js "UTF-8").takeWhile (· != charStar) = js "UTF-8" := by decide
  rw [decode2047Token, parts]
  simp only [if_true, word.wordBuffer, charset]
  exact congrArg some (decodeBuffer_utf8 continues word.octets isLastToken)

lemma wordBuffer_of_unknown (text) (unknown : ∀ c, encoding = [c] → isEncoding c = false) :
    wordBuffer encoding text = some none := by
  have other : ∀ c, isEncoding c = true → encoding ≠ [c] := by
    intro c known same
    rw [unknown c same] at known
    cases known
  have notB : ¬ (encoding = js "B" ∨ encoding = js "b") := by
    rintro (same | same)
    · exact other 0x42 (by decide) same
    · exact other 0x62 (by decide) same
  have notQ : ¬ (encoding = js "Q" ∨ encoding = js "q") := by
    rintro (same | same)
    · exact other 0x51 (by decide) same
    · exact other 0x71 (by decide) same
  rw [wordBuffer, if_neg notB, if_neg notQ]

lemma front_of_startsLikeWord {front behind : JsString} (plain : charQuestion ∉ front)
    (starts : startsLikeWord (front ++ charQuestion :: behind) = true) : front = [charEquals] := by
  have two := of_decide_eq_true starts
  match front with
  | [] => exact absurd (List.cons.inj two).1 (by decide)
  | [c] => rw [(List.cons.inj two).1]
  | c :: d :: front =>
    have second : d = charQuestion := (List.cons.inj (List.cons.inj two).2).1
    rw [second] at plain
    exact absurd (mem_cons_of_mem _ mem_cons_self) plain

lemma decode2047Token_plain (tail) (plain : wordLength? (component ++ tail) = none)
    (starts : startsLikeWord component = true) (isLastToken : Bool) :
    decode2047Token others state component isLastToken = some (none, state) := by
  obtain ⟨joined, pieces⟩ := splitAtChar_pieces charQuestion component
  rw [decode2047Token]
  split
  · rename_i front charset encoding text behind shape
    rw [shape] at joined pieces
    simp only [forall_mem_cons] at pieces
    obtain ⟨ofFront, ofCharset, ofEncoding, ofText, -⟩ := pieces
    split
    · rename_i ends
      have unknown : ∀ c, encoding = [c] → isEncoding c = false := by
        intro c same
        subst same ends
        have whole : component = front ++ charQuestion :: (charset ++ charQuestion :: c ::
            charQuestion :: (text ++ charQuestion :: [charEquals])) := by
          rw [← joined]
          simp [List.intercalate]
        have front : front = [charEquals] := front_of_startsLikeWord ofFront (whole ▸ starts)
        by_contra known
        rw [whole, front] at plain
        have found := wordLength?_word ofCharset ofText (Bool.not_eq_false _ ▸ known) tail
        simp only [cons_append, nil_append, append_assoc] at plain
        rw [found] at plain
        cases plain
      rw [wordBuffer_of_unknown text unknown]
      rfl
    · rfl
  · rfl

lemma not_startsLikeWord_of_isBlank (blank : isBlank component = true) :
    startsLikeWord component = false := by
  cases component with
  | nil => rfl
  | cons c component =>
    apply decide_eq_false
    intro two
    have first := all_eq_true.mp blank c mem_cons_self
    rw [(List.cons.inj two).1] at first
    exact absurd first (by decide)

lemma decodeComponents_word (continues : state.Continues decoder) (later) :
    decodeComponents others state (word.text :: later) =
      (decodeComponents others (afterWord (decoder.decode word.octets (later.any startsLikeWord)).2)
        later).map ((decoder.decode word.octets (later.any startsLikeWord)).1 ++ ·) := by
  rw [decodeComponents, if_pos word.startsLikeWord, decode2047Token_word word continues,
    Bool.not_not]
  simp only [Option.bind_eq_bind, Option.bind_some]
  cases decodeComponents others _ later with
  | none => rfl
  | some text => rfl

lemma decodeComponents_plain (tail) (plain : wordLength? (component ++ tail) = none) (later) :
    decodeComponents others state (component :: later) =
      if isBlank component then decodeComponents others state later
      else (decodeComponents others {} later).map (state.flush others ++ component ++ ·) := by
  rw [decodeComponents]
  by_cases blank : isBlank component = true
  · rw [if_neg (Bool.eq_false_iff.mp (not_startsLikeWord_of_isBlank blank)), if_pos blank,
      if_pos blank]
    simp only [Option.bind_eq_bind, Option.bind_some]
    cases decodeComponents others state later with
    | none => rfl
    | some text => rfl
  · by_cases starts : startsLikeWord component = true
    · rw [if_pos starts, decode2047Token_plain tail plain starts, if_neg blank]
      simp only [Option.bind_eq_bind, Option.bind_some]
      cases decodeComponents others {} later with
      | none => rfl
      | some text => rfl
    · rw [if_neg starts, if_neg blank, if_neg blank]
      simp only [Option.bind_eq_bind, Option.bind_some]
      cases decodeComponents others {} later with
      | none => rfl
      | some text => rfl

lemma decodeComponents_after {after : JsString} (plain : wordLength? after = none) :
    decodeComponents others (afterWord decoder) [after] =
      some (if isBlank after then [] else (decoder.decode [] false).1 ++ after) := by
  rw [decodeComponents_plain [] (by rwa [append_nil])]
  split
  · rfl
  · rw [decodeComponents, Option.map_some, append_nil]
    rfl

lemma decodeComponents_group {words : LaterWords} {after : JsString} (first : EncodedWord)
    (separated : ∀ word ∈ words, Separator word.1) (plain : wordLength? after = none)
    (continues : state.Continues decoder) :
    decodeComponents others state (first.text :: (words.components ++ [after])) =
      some ((decoder.decode (first.octets ++ words.octets) false).1 ++ keptText after) := by
  induction words generalizing first state decoder with
  | nil =>
    have single : ∀ p : JsString → Bool, [after].any p = p after := fun p => Bool.or_false _
    change decodeComponents others state [first.text, after] = _
    rw [decodeComponents_word first continues, decodeComponents_after plain, Option.map_some,
      single, keptText]
    change _ = some ((decoder.decode (first.octets ++ []) false).1 ++ _)
    cases starts : startsLikeWord after with
    | true =>
      have kept : ¬ isBlank after = true := by
        intro blank
        rw [not_startsLikeWord_of_isBlank blank] at starts
        cases starts
      rw [if_neg kept, if_neg kept, decoder.decode_append, append_assoc]
    | false =>
      rw [append_nil]
      split
      · rfl
      · rfl
  | cons word words ih =>
    obtain ⟨separator, others'⟩ := forall_mem_cons.mp separated
    have blank : isBlank word.1 = true := all_eq_true.mpr fun c mem =>
      contains_iff_mem.mpr (separator c mem)
    have streamed : (word.1 :: word.2.text :: (LaterWords.components words ++ [after])).any
        startsLikeWord = true := by
      rw [any_cons, any_cons, word.2.startsLikeWord, Bool.true_or, Bool.or_true]
    change decodeComponents others state
      (first.text :: word.1 :: word.2.text :: (LaterWords.components words ++ [after])) = _
    have noWord : wordLength? (word.1 ++ []) = none := by
      cases shape : word.1 with
      | nil => rfl
      | cons c front => exact wordLength?_separator (separator c (shape ▸ mem_cons_self)) _
    have next : (afterWord (decoder.decode first.octets true).2 : WordState σ).Continues _ :=
      .inl rfl
    have octets : LaterWords.octets (word :: words) = word.2.octets ++ LaterWords.octets words :=
      rfl
    rw [decodeComponents_word first continues, streamed, decodeComponents_plain [] noWord,
      if_pos blank, ih word.2 others' next, Option.map_some, octets,
      decoder.decode_append first.octets, append_assoc]

end

/-- The octets of a group of words in UTF-8 are decoded as one text, between the texts around
the group. -/
theorem decodeRFC2047Words_group {σ : Type} (others : OtherDecoders σ) {before after : JsString}
    (first : EncodedWord) {words : LaterWords} (plainBefore : PlainText (before ++ [charEquals]))
    (separated : ∀ word ∈ words, Separator word.1) (plainAfter : PlainText after) :
    decodeRFC2047Words others (before ++ (first.text ++ (words.text ++ after))) =
      some (keptText before ++ (utf8Decode (first.octets ++ words.octets) ++ keptText after)) := by
  have plain : wordLength? (before ++ [charEquals]) = none :=
    plainBefore _ ((mem_tails ..).mpr (suffix_refl _))
  have start : ({} : WordState σ).Continues {} := .inr ⟨rfl, rfl⟩
  have group : decodeComponents others {} (first.text :: (words.components ++ [after])) =
      some (utf8Decode (first.octets ++ words.octets) ++ keptText after) :=
    decodeComponents_group first separated
      (plainAfter _ ((mem_tails ..).mpr (suffix_refl _))) start
  rw [decodeRFC2047Words, componentsFrom_group first plainBefore separated plainAfter,
    decodeComponents_plain [charEquals] plain, group]
  by_cases blank : isBlank before = true
  · have kept : keptText before = [] := if_pos blank
    rw [if_pos blank, kept, nil_append]
  · have kept : keptText before = before := if_neg blank
    rw [if_neg blank, kept]
    rfl

instance (text : JsString) : Decidable (Separator text) :=
  inferInstanceAs (Decidable (∀ c ∈ text, c ∈ js " \t\r\n"))

/-- `a =?UTF-8?Q?=c3?= =?UTF-8?B?qQ==?= b` -/
theorem decodeRFC2047Words_group_cut :
    decodeRFC2047Words ⟨fun _ => none, fun (decoder : Unit) _ _ => ([], decoder)⟩
      (js "a " ++ (js "=?UTF-8?Q?=c3?=" ++ (js " =?UTF-8?B?qQ==?=" ++ js " b"))) =
        some (js "a " ++ ([0xE9] ++ js " b")) :=
  let words : LaterWords := [(js " ", ⟨[0xA9], 0x42, btoa [0xA9], .inl ⟨.inl rfl, rfl⟩⟩)]
  have separated : ∀ word ∈ words, Separator word.1 := by decide
  decodeRFC2047Words_group _ ⟨[0xC3], 0x51, js "=c3", .inr ⟨.inl rfl, .escaped 0xC3 rfl rfl .nil⟩⟩
    (by decide) separated (by decide)

/-- ` =?UTF-8?Q?a?=` -/
theorem decodeRFC2047Words_group_blank :
    ¬ ∀ (others : OtherDecoders Unit) (before after : JsString) (first : EncodedWord)
        (words : LaterWords), PlainText (before ++ [charEquals]) →
      (∀ word ∈ words, Separator word.1) → PlainText after →
      decodeRFC2047Words others (before ++ (first.text ++ (words.text ++ after))) =
        some (before ++ (utf8Decode (first.octets ++ words.octets) ++ after)) := by
  intro all
  have whole := all ⟨fun _ => none, fun decoder _ _ => ([], decoder)⟩ (js " ") []
    ⟨[0x61], 0x51, js "a", .inr ⟨.inl rfl, .literal 0x61 (by decide) (by decide) .nil⟩⟩ []
    (by decide) (by decide) (by decide)
  exact absurd whole (by decide)

end CommCentral.Jsmime
