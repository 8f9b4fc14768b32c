import CommCentral.Jsmime.Folding
import CommCentral.Jsmime.PhraseWords
import CommCentral.Jsmime.WordGroups
import CommCentral.Jsmime.Utf8RoundTrip

/-! The lines that the words of a phrase are put on, and the phrase read back from them. -/

namespace CommCentral.Jsmime

open Lib List

def HoldsOneWord (line : JsString) : Prop := ∃ word : EncodedWord, line = 0x20 :: word.text

def WithinMargin (settings : Settings) (line : JsString) : Prop :=
  HoldsOneWord line → line.length ≤ settings.softMargin

/-- Words with a space between them. -/
def phraseText : List EncodedWord → JsString
  | [] => []
  | first :: words => first.text ++ words.flatMap fun word => 0x20 :: word.text

lemma phraseText_concat {words : List EncodedWord} (some : words ≠ []) (word) :
    phraseText (words ++ [word]) = phraseText words ++ 0x20 :: word.text := by
  cases words with
  | nil => exact absurd rfl some
  | cons first words =>
    rw [cons_append, phraseText, flatMap_append, flatMap_singleton, phraseText,
      append_assoc]

lemma forall_tail_concat {α : Type} {p : α → Prop} {lines : List α} {last : α}
    (all : ∀ line ∈ lines.tail, p line) (ofLast : lines ≠ [] → p last) :
    ∀ line ∈ (lines ++ [last]).tail, p line := by
  cases lines with
  | nil => exact fun line mem => absurd mem not_mem_nil
  | cons first lines =>
    exact forall_mem_append.mpr
      ⟨all, forall_mem_singleton.mpr (ofLast (cons_ne_nil _ _))⟩

section
variable {emitter : Emitter} {lines : List JsString}

/-- The emitter before the words, with the lines that went out since it was `initial`. -/
structure Ready (settings : Settings) (initial emitter : Emitter) (lines : List JsString) : Prop where
  delivered : emitter.delivered = initial.delivered ++ lines
  visible : solid (lines.flatten ++ emitter.currentLine) = solid initial.currentLine
  short : emitter.currentLine.length ≤ settings.softMargin
  within : ∀ line ∈ lines.tail, line.length ≤ settings.softMargin

lemma ready_start (short : initial.currentLine.length ≤ settings.softMargin) :
    Ready settings initial initial [] where
  delivered := (append_nil _).symm
  visible := rfl
  short := short
  within := nofun

section

variable (ready : Ready settings initial emitter lines)
include ready

lemma Ready.commitLine {count : Nat} (some : 0 < count ∨ emitter.currentLine.length ≤ count) :
    Ready settings initial (emitter.commitLine count)
      (lines ++ [trimRight (emitter.currentLine.take count)]) := by
  have margin := settings.softMargin_ge
  have short := ready.short
  have rest : (trimLeft (emitter.currentLine.drop count)).length ≤
      emitter.currentLine.length - count := by
    rw [← length_drop]
    exact (dropWhile_suffix _).length_le
  have line : (trimRight (emitter.currentLine.take count)).length ≤ emitter.currentLine.length :=
    ( rdropWhile_prefix _ _).length_le.trans (length_take_le' ..)
  have continuation : solid (0x20 :: trimLeft (emitter.currentLine.drop count)) =
      solid (emitter.currentLine.drop count) := solid_trimLeft _
  constructor
  · rw [← append_assoc, ← ready.delivered]
    rfl
  · rw [← ready.visible]
    change solid ((lines ++ [_]).flatten ++ 0x20 :: _) = _
    rw [flatten_append, flatten_singleton, solid_append, solid_append, solid_trimRight,
      continuation, append_assoc, ← solid_append, take_append_drop, ← solid_append]
  · change (0x20 :: trimLeft (emitter.currentLine.drop count)).length ≤ _
    rw [length_cons]
    omega
  · exact forall_tail_concat ready.within fun _ => line.trans short

lemma Ready.breakPreferred : ∃ lines, Ready settings initial emitter.breakPreferred lines := by
  rw [Emitter.breakPreferred]
  split
  · exact ⟨_, ready.commitLine (.inl ‹_›)⟩
  · exact ⟨lines, ready⟩

lemma Ready.breakEmergency : ∃ lines, Ready settings initial emitter.breakEmergency lines := by
  rw [Emitter.breakEmergency]
  split
  · exact ⟨_, ready.commitLine (.inl ‹_›)⟩
  · exact ⟨lines, ready⟩

lemma Ready.reserve (length : Nat) :
    ∃ lines, Ready settings initial (emitter.reserve settings length).2 lines := by
  rw [reserve_emitter]
  obtain ⟨broken, preferred⟩ := ready.breakPreferred
  split
  · split
    · exact preferred.breakEmergency
    · exact ⟨broken, preferred⟩
  · exact ⟨lines, ready⟩

end

lemma reserve_preferredBreakpoint (emitter : Emitter) (length : Nat) :
    (emitter.reserve settings length).2.preferredBreakpoint = 0 ∨
      (emitter.reserve settings length).2.currentLine.length + length ≤ settings.softMargin := by
  have preferred : emitter.breakPreferred.preferredBreakpoint = 0 := by
    rw [Emitter.breakPreferred]
    split
    · rfl
    · omega
  rw [reserve_emitter]
  split
  · left
    split
    · rw [Emitter.breakEmergency]
      split
      · rfl
      · exact preferred
    · exact preferred
  · right
    omega

variable (word : EncodedWord)

lemma EncodedWord.text_getLast? : word.text.getLast? = some charEquals := by
  rw [text, wordText, getLast?_append_of_ne_nil _ (cons_ne_nil _ _)]
  change (word.encoding :: charQuestion :: (word.body ++ [charQuestion, charEquals])).getLast? = _
  rw [getLast?_cons_cons, getLast?_cons, getLast?_append]
  rfl

lemma EncodedWord.text_length : word.text.length = 12 + word.body.length := by
  rw [text, wordText, length_append, length_cons, length_cons, length_append]
  change 8 + (word.body.length + 2 + 1 + 1) = _
  omega

lemma EncodedWord.count_question : word.text.count charQuestion = 4 := by
  have encoding : charQuestion ≠ word.encoding := by
    intro same
    have known := word.isEncoding
    rw [← same] at known
    cases known
  rw [text, wordText, count_append, count_cons_of_ne (Ne.symm encoding), count_cons_self,
    count_append, count_eq_zero.mpr word.noQuestion]
  rfl

/-- A line with more than a space before the word does not hold the word alone. -/
theorem not_holdsOneWord (long : 2 < front.length) (word : EncodedWord) :
    ¬ HoldsOneWord (front ++ word.text) := by
  rintro ⟨other, same⟩
  match front, long with
  | c :: x :: y :: front, _ =>
    have texts : (x :: y :: front) ++ word.text = other.text := (List.cons.inj same).2
    have count := congrArg (List.count charQuestion) texts
    rw [count_append, word.count_question, other.count_question] at count
    have shape := other.text_append []
    rw [append_nil, ← texts] at shape
    have second : y = charQuestion := (List.cons.inj (List.cons.inj shape).2).1
    rw [second, count_cons, count_cons_self] at count
    omega

lemma addText_reserved {text : JsString}
    (outcome : emitter.reserve settings text.length = (true, reserved)) :
    ∃ reservations, addText settings text mayBreakAfter emitter =
      (.ok (), Emitter.append { reserved with reservations := reservations } text
        mayBreakAfter) := by
  have first : reserveTokenSpace settings text.length emitter =
      (.ok true, { reserved with
        reservations := emitter.reservations ++ [emitter.reservation text.length] }) := by
    rw [reserveTokenSpace, outcome]
  refine ⟨emitter.reservations ++ [emitter.reservation text.length], ?_⟩
  rw [addText]
  change Attempt.bind _ _ _ = _
  rw [Attempt.bind, first]
  rfl

/-- The emitter behind some words: `line` is the current line up to the last one. -/
structure Written (settings : Settings) (initial emitter : Emitter) (words : List EncodedWord)
    (mayBreakAfter : Bool) (lines : List JsString) (line : JsString) : Prop where
  delivered : emitter.delivered = initial.delivered ++ lines
  currentLine : emitter.currentLine = line ++ if mayBreakAfter then [0x20] else []
  breakpoint : mayBreakAfter = true → emitter.preferredBreakpoint = line.length
  ends : line.getLast? = some charEquals
  text : ∃ front, (lines ++ [line]).flatten =
      front ++ phraseText words ∧
    solid front = solid initial.currentLine
  within : ∀ each ∈ (lines ++ [line]).tail, WithinMargin settings each

lemma append_word (emitter : Emitter) (word : EncodedWord) (mayBreakAfter : Bool) :
    (emitter.append word.text mayBreakAfter).currentLine =
        emitter.currentLine ++ word.text ++ (if mayBreakAfter then [0x20] else []) ∧
      (mayBreakAfter = true → (emitter.append word.text mayBreakAfter).preferredBreakpoint =
        (emitter.currentLine ++ word.text).length) := by
  cases mayBreakAfter with
  | false =>
    refine ⟨(append_nil _).symm, ?_⟩
    intro no
    cases no
  | true =>
    have noSpace : word.text.getLast? ≠ some 0x20 := by
      rw [word.text_getLast?]
      decide
    exact ⟨if_neg noSpace, fun _ => rfl⟩

variable {words : List EncodedWord}

lemma written_append (mayBreakAfter : Bool)
    (delivered : emitter.delivered = initial.delivered ++ lines) (text : ∃ front, (lines ++
      [emitter.currentLine ++ word.text]).flatten = front ++ phraseText words ∧ solid front = solid
      initial.currentLine) (before : ∀ line ∈ lines.tail, WithinMargin settings line)
    (within : WithinMargin settings (emitter.currentLine ++ word.text))
    (reservations : List Reservation) :
    Written settings initial
      (Emitter.append { emitter with reservations := reservations } word.text mayBreakAfter)
      words mayBreakAfter lines (emitter.currentLine ++ word.text) := by
  obtain ⟨currentLine, breakpoint⟩ :=
    append_word { emitter with reservations := reservations } word mayBreakAfter
  constructor
  · rw [append_delivered]
    exact delivered
  · exact currentLine
  · exact breakpoint
  · rw [getLast?_append, word.text_getLast?]
    rfl
  · exact text
  · exact forall_tail_concat before fun _ => within

lemma Ready.append (ready : Ready settings initial emitter lines) (word) (mayBreakAfter : Bool)
      (within : emitter.currentLine.length + word.text.length ≤ settings.softMargin ∨ 2 <
      emitter.currentLine.length) (reservations) :
    Written settings initial
      (Emitter.append { emitter with reservations := reservations } word.text mayBreakAfter)
      [word] mayBreakAfter lines (emitter.currentLine ++ word.text) := by
  apply written_append word mayBreakAfter ready.delivered
  · refine ⟨lines.flatten ++ emitter.currentLine, ?_, ready.visible⟩
    rw [flatten_append, flatten_singleton, append_assoc, phraseText,
      flatMap_nil, append_nil]
  · intro line mem _
    exact ready.within line mem
  · intro holds
    rcases within with short | long
    · rw [length_append]
      exact short
    · exact absurd holds (not_holdsOneWord long word)

/-- The first word always finds its place. -/
theorem Ready.addWord (ready : Ready settings initial emitter lines) (word : EncodedWord)
    (mayBreakAfter : Bool)
    (room : (word.text.length : Int) ≤
      12 + max ((settings.softMargin : Int) - emitter.currentLine.length - 12) 0)
    (breakpoint : emitter.preferredBreakpoint = 0 ∨
      emitter.currentLine.length + 20 ≤ settings.softMargin) :
    ∃ last lines line, addText settings word.text mayBreakAfter emitter = (.ok (), last) ∧
      Written settings initial last [word] mayBreakAfter lines line := by
  have margin := settings.softMargin_ge
  have margin' := settings.hardMargin_ge
  have least := word.text_length
  -- The reservations are the only other thing that `addText` changes.
  have written : ∀ {reserved : Emitter} {lines : List JsString},
      emitter.reserve settings word.text.length = (true, reserved) →
      Ready settings initial reserved lines →
      (reserved.currentLine.length + word.text.length ≤ settings.softMargin ∨
        2 < reserved.currentLine.length) →
      ∃ last lines line, addText settings word.text mayBreakAfter emitter = (.ok (), last) ∧
        Written settings initial last [word] mayBreakAfter lines line := by
    intro reserved lines outcome ready within
    obtain ⟨reservations, added⟩ := addText_reserved outcome
    exact ⟨_, _, _, added, ready.append word mayBreakAfter within reservations⟩
  by_cases fits : emitter.currentLine.length + word.text.length ≤ settings.softMargin
  · exact written (if_pos fits) ready (.inl fits)
  · -- The word is the empty one, behind a line that is nearly full.
    have long : settings.softMargin < emitter.currentLine.length + 12 := by omega
    have noBreak : ¬ 0 < emitter.preferredBreakpoint := by omega
    have same : emitter.breakPreferred = emitter := if_neg noBreak
    by_cases hard : emitter.currentLine.length + word.text.length ≤ settings.hardMargin
    · have outcome : emitter.reserve settings word.text.length = (true, emitter) := by
        rw [Emitter.reserve, if_neg fits, same]
        dsimp only
        rw [if_neg fun both => noBreak both.1, if_pos hard]
      exact written outcome ready (.inr (by omega))
    · have some : 0 < emitter.currentLine.length := by omega
      have broken : emitter.breakEmergency = emitter.commitLine emitter.currentLine.length :=
        if_pos some
      have line : (emitter.commitLine emitter.currentLine.length).currentLine = [0x20] := by
        rw [Emitter.commitLine, drop_length]
        rfl
      have outcome : emitter.reserve settings word.text.length =
          (true, emitter.commitLine emitter.currentLine.length) := by
        rw [Emitter.reserve, if_neg fits, same]
        dsimp only
        rw [if_neg fun both => noBreak both.1, if_neg hard, broken, line, length_singleton,
          decide_eq_true (by omega)]
      refine written outcome (ready.commitLine (.inl some)) (.inl ?_)
      rw [line, length_singleton]
      omega

lemma Written.trimRight_line {line : JsString}
    (written : Written settings initial emitter words mayBreakAfter lines line) :
    trimRight line = line := by
  apply rdropWhile_eq_self_iff.mpr
  intro nonempty
  have last := written.ends
  rw [getLast?_eq_some_getLast nonempty] at last
  rw [Option.some.inj last]
  decide

lemma Written.addWord {line : JsString}
    (written : Written settings initial emitter words true lines line) (some : words ≠ [])
    (word : EncodedWord) (mayBreakAfter : Bool)
    (short : word.text.length + 1 ≤ settings.softMargin) :
    ∃ last lines line, addText settings word.text mayBreakAfter emitter = (.ok (), last) ∧
      Written settings initial last (words ++ [word]) mayBreakAfter lines line := by
  have currentLine : emitter.currentLine = line ++ [0x20] := written.currentLine
  have breakpoint := written.breakpoint rfl
  have nonempty : line ≠ [] := by
    intro none
    have ends := written.ends
    rw [none] at ends
    cases ends
  obtain ⟨front, text, visible⟩ := written.text
  have whole := written.within
  have before : ∀ each ∈ lines.tail, WithinMargin settings each := by
    intro each mem
    cases lines with
    | nil => exact absurd mem not_mem_nil
    | cons first lines => exact whole each (mem_append_left _ mem)
  by_cases fits : emitter.currentLine.length + word.text.length ≤ settings.softMargin
  · have outcome : emitter.reserve settings word.text.length = (true, emitter) := if_pos fits
    obtain ⟨reservations, added⟩ := addText_reserved outcome
    refine ⟨_, _, _, added, written_append word mayBreakAfter written.delivered ?_ before ?_ _⟩
    · refine ⟨front, ?_, visible⟩
      rw [phraseText_concat some, ← append_assoc, ← text, currentLine]
      simp
    · intro _
      rw [length_append]
      exact fits
  · -- The line goes out up to the last word.
    have breakable : 0 < emitter.preferredBreakpoint := by
      rw [breakpoint]
      exact length_pos_iff.mpr nonempty
    have trimmed := written.trimRight_line
    have delivered : emitter.breakPreferred.delivered = initial.delivered ++ (lines ++ [line]) := by
      rw [Emitter.breakPreferred, if_pos breakable, Emitter.commitLine, breakpoint, currentLine,
        take_left, trimmed, written.delivered, append_assoc]
    have newLine : emitter.breakPreferred.currentLine = [0x20] := by
      rw [Emitter.breakPreferred, if_pos breakable, Emitter.commitLine, breakpoint, currentLine,
        drop_left]
      rfl
    have soft : emitter.breakPreferred.currentLine.length + word.text.length ≤
        settings.softMargin := by
      rw [newLine, length_singleton]
      omega
    have outcome : emitter.reserve settings word.text.length = (true, emitter.breakPreferred) := by
      rw [Emitter.reserve, if_neg fits]
      exact if_pos ⟨breakable, soft⟩
    obtain ⟨reservations, added⟩ := addText_reserved outcome
    refine ⟨_, _, _, added, written_append word mayBreakAfter delivered ?_ whole ?_ _⟩
    · refine ⟨front, ?_, visible⟩
      rw [phraseText_concat some, ← append_assoc, ← text, newLine, flatten_append,
        flatten_singleton]
      rfl
    · intro _
      rw [length_append]
      exact soft

lemma Written.emitWords {before words : List EncodedWord} {line : JsString}
    (written : Written settings initial emitter before true lines line) (some : before ≠ [])
    (more : words ≠ []) (mayBreakAfter : Bool)
    (short : ∀ word ∈ words, word.text.length + 1 ≤ settings.softMargin) :
    ∃ last lines line, Jsmime.emitWords settings mayBreakAfter words emitter = (.ok (), last) ∧
      Written settings initial last (before ++ words) mayBreakAfter lines line := by
  induction words generalizing before emitter lines line with
  | nil => exact absurd rfl more
  | cons word words ih =>
    obtain ⟨ofWord, ofWords⟩ := forall_mem_cons.mp short
    cases words with
    | nil => exact written.addWord some word mayBreakAfter ofWord
    | cons next words =>
      obtain ⟨later, lines, line, added, written⟩ := written.addWord some word true ofWord
      obtain ⟨last, lines, line, emitted, written⟩ := ih written
        (append_ne_nil_of_right_ne_nil _ (cons_ne_nil _ _)) (cons_ne_nil _ _) ofWords
      refine ⟨last, lines, line, ?_, ?_⟩
      · rw [emitWords_cons word (cons_ne_nil _ _)]
        change Attempt.bind _ _ _ = _
        rw [Attempt.bind, added]
        exact emitted
      · rw [append_assoc, singleton_append] at written
        exact written

lemma Ready.emitWords (ready : Ready settings initial emitter lines) {words : List EncodedWord}
    (some : words ≠ []) (mayBreakAfter : Bool)
    (fit : WordsFit settings ((settings.softMargin : Int) - emitter.currentLine.length - 12) words)
    (breakpoint : emitter.preferredBreakpoint = 0 ∨
      emitter.currentLine.length + 20 ≤ settings.softMargin) :
    ∃ last lines line, Jsmime.emitWords settings mayBreakAfter words emitter = (.ok (), last) ∧
      Written settings initial last words mayBreakAfter lines line := by
  cases words with
  | nil => exact absurd rfl some
  | cons word words =>
    cases words with
    | nil => exact ready.addWord word mayBreakAfter (fit.first word rfl) breakpoint
    | cons next words =>
      obtain ⟨later, lines, line, added, written⟩ :=
        ready.addWord word true (fit.first word rfl) breakpoint
      obtain ⟨last, lines, line, emitted, written⟩ := written.emitWords (cons_ne_nil _ _)
        (cons_ne_nil _ _) mayBreakAfter fit.later
      refine ⟨last, lines, line, ?_, written⟩
      rw [emitWords_cons word (cons_ne_nil _ _)]
      change Attempt.bind _ _ _ = _
      rw [Attempt.bind, added]
      exact emitted

/-- The words are read back as the text that they carry. -/
theorem decodeRFC2047Words_phrase {σ : Type} (others : OtherDecoders σ) {text : JsString}
    (paired : WellPaired text) (noBom : text.head? ≠ some 0xFEFF) {words : List EncodedWord}
    (nonempty : words ≠ []) (carried : words.flatMap EncodedWord.octets = utf8Encode text) :
    decodeRFC2047Words others (phraseText words) = some text := by
  cases words with
  | nil => exact absurd rfl nonempty
  | cons first words =>
    let later : LaterWords := words.map fun word => ([0x20], word)
    have separated : ∀ word ∈ later, Separator word.1 := by
      intro word mem
      obtain ⟨_, -, rfl⟩ := mem_map.mp mem
      change Separator [0x20]
      decide
    have octets : later.octets = words.flatMap EncodedWord.octets := flatMap_map ..
    have written : phraseText (first :: words) = [] ++ (first.text ++ (later.text ++ [])) := by
      rw [nil_append, append_nil, LaterWords.text, flatMap_map]
      rfl
    have plain : PlainText ([] ++ [charEquals]) := by decide
    have blank : isBlank [] = true := rfl
    have start : ({} : WordState σ).Continues {} := .inr ⟨rfl, rfl⟩
    have group : decodeComponents others {} (first.text :: (later.components ++ [[]])) =
        some (((({} : Utf8TextDecoder).decode (first.octets ++ later.octets) false).1) ++
          keptText []) :=
      decodeComponents_group first separated rfl start
    rw [written, decodeRFC2047Words, componentsFrom_group first plain separated (by decide),
      decodeComponents_plain [] rfl, if_pos blank, group, octets]
    change some (utf8Decode ((first :: words).flatMap EncodedWord.octets) ++ []) = some text
    rw [carried, utf8Decode_utf8Encode paired noBom, append_nil]

lemma CutInto.octets {words : List EncodedWord} (cut : CutInto characters words) :
    words.flatMap EncodedWord.octets = characters.flatMap utf8Octets := by
  obtain ⟨pieces, rfl, carried⟩ := cut
  rw [flatMap_def, carried, flatMap_def, map_flatten, flatten_flatten,
    map_map]
  rfl

/-- What goes before the loop: room for a word, or a new line. -/
theorem encodeRFC2047Phrase_start (ready : Ready settings initial emitter lines) (text : JsString)
    (mayBreakAfter : Bool) :
    ∃ begun lines, Ready settings initial begun lines ∧
      (begun.preferredBreakpoint = 0 ∨ begun.currentLine.length + 20 ≤ settings.softMargin) ∧
      encodeRFC2047Phrase settings text mayBreakAfter emitter =
        encodeLoop settings (utf8Encode text) mayBreakAfter (encodeFuel (utf8Encode text)) 0 0 0 0
          (settings.softMargin - begun.currentLine.length - (b64Prelude.length + 2)) begun := by
  obtain ⟨lines, reserved⟩ := ready.reserve 20
  have breakpoint := @reserve_preferredBreakpoint settings emitter 20
  cases outcome : emitter.reserve settings 20 with
  | mk enough later =>
    rw [outcome] at reserved breakpoint
    let begun : Emitter :=
      { later with reservations := emitter.reservations ++ [emitter.reservation 20] }
    have same : Ready settings initial begun lines :=
      ⟨reserved.delivered, reserved.visible, reserved.short, reserved.within⟩
    have first : reserveTokenSpace settings (b64Prelude.length + 10) emitter =
        (.ok enough, begun) := by
      change reserveTokenSpace settings 20 emitter = _
      rw [reserveTokenSpace, outcome]
    cases enough with
    | true =>
      refine ⟨begun, lines, same, breakpoint, ?_⟩
      rw [encodeRFC2047Phrase]
      change Attempt.bind _ _ _ = _
      rw [Attempt.bind, first]
      rfl
    | false =>
      refine ⟨begun.commitLine begun.currentLine.length, _, same.commitLine (.inr (le_refl _)),
        .inl rfl, ?_⟩
      rw [encodeRFC2047Phrase]
      change Attempt.bind _ _ _ = _
      rw [Attempt.bind, first]
      rfl

end

/-- A phrase is put out in words that carry whole characters, on lines within the soft margin,
and is read back from the unfolded lines. -/
theorem encodeRFC2047Phrase_roundTrip {σ : Type} (others : OtherDecoders σ) (settings : Settings)
    {text : JsString} (paired : WellPaired text) (noBom : text.head? ≠ some 0xFEFF)
    (mayBreakAfter : Bool) {emitter : Emitter}
    (short : emitter.currentLine.length ≤ settings.softMargin) :
    ∃ last words lines front,
      encodeRFC2047Phrase settings text mayBreakAfter emitter = (.ok (), last) ∧
      CutInto (codePoints text) words ∧
      last.commitLast.delivered = emitter.delivered ++ lines ∧
      lines.flatten = front ++ phraseText words ∧
      solid front = solid emitter.currentLine ∧
      decodeRFC2047Words others (phraseText words) = some text ∧
      ∀ line ∈ lines.tail, HoldsOneWord line → line.length ≤ settings.softMargin := by
  obtain ⟨begun, lines, ready, breakpoint, run⟩ :=
    encodeRFC2047Phrase_start (ready_start short) text mayBreakAfter
  have state : EncodeState settings (utf8Encode text) true 0 0 0
      (settings.softMargin - begun.currentLine.length - (b64Prelude.length + 2)) :=
    ⟨le_refl 0, Nat.zero_le _, Nat.zero_le _, fun _ => rfl, nofun⟩
  have counts : EncodeCounts (utf8Encode text) 0 0 0 0
      (settings.softMargin - begun.currentLine.length - (b64Prelude.length + 2)) :=
    ⟨rfl, rfl, by omega⟩
  have enough : encodeSteps (utf8Encode text) true 0 0 < encodeFuel (utf8Encode text) := by
    rw [encodeSteps, encodeFuel, if_pos rfl]
    omega
  obtain ⟨words, nonempty, cut, fit, loop⟩ := encodeLoop_words mayBreakAfter
    (utf8Encode_aligned text) (codePoints_lt text) rfl state counts enough
  have room : (settings.softMargin - begun.currentLine.length - (b64Prelude.length + 2) : Int) =
      settings.softMargin - begun.currentLine.length - 12 := by
    have prelude : b64Prelude.length = 10 := by decide
    omega
  rw [room] at fit
  obtain ⟨last, lines, line, emitted, written⟩ :=
    ready.emitWords nonempty mayBreakAfter fit breakpoint
  obtain ⟨front, whole, visible⟩ := written.text
  have trimmed : trimRight last.currentLine = line := by
    have blank : Blank (if mayBreakAfter then [0x20] else []) := by
      cases mayBreakAfter <;> decide
    rw [written.currentLine, trimRight_append_blank line blank, written.trimRight_line]
  refine ⟨last, words, lines ++ [line], front, ?_, cut, ?_, whole, visible, ?_, written.within⟩
  · rw [run, loop, emitted]
  · rw [Emitter.commitLast, trimmed, written.delivered, append_assoc]
  · exact decodeRFC2047Words_phrase others paired noBom nonempty cut.octets

/-- The margins 30 and 30, and the phrase "é" behind "Subject: ". -/
theorem encodeRFC2047Phrase_roundTrip_narrow :
    let settings : Settings := ⟨true, false, 30, 30, by decide, by decide⟩
    let emitter : Emitter := { currentLine := js "Subject: ", preferredBreakpoint := 9 }
    let others : OtherDecoders Unit := ⟨fun _ => none, fun decoder _ _ => ([], decoder)⟩
    ∃ last words lines front,
      encodeRFC2047Phrase settings [0xE9] false emitter = (.ok (), last) ∧
      CutInto (codePoints [0xE9]) words ∧
      last.commitLast.delivered = emitter.delivered ++ lines ∧
      lines.flatten = front ++ phraseText words ∧
      solid front = solid emitter.currentLine ∧
      decodeRFC2047Words others (phraseText words) = some [0xE9] ∧
      ∀ line ∈ lines.tail, HoldsOneWord line → line.length ≤ settings.softMargin :=
  encodeRFC2047Phrase_roundTrip _ _ (by decide) (by decide) false (by decide)

end CommCentral.Jsmime
