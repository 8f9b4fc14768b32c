import CommCentral.Mime.DecoderWrite
import CommCentral.Mime.UUText

/-! Decoding a uuencoded text that arrives in any pieces. Bytes are lost where spaces
were stripped in the middle of one, and what a long `begin` line leaves in the input is
taken for lines of the body. -/

namespace CommCentral.Mime

open Lib List

/-- Characters 127, 254, … of the `begin` line stand for zeros, so that what is left of
the line yields nothing. -/
def UueText.HeaderIgnored (encoded : UueText) : Prop :=
  ∀ k, 127 * (k + 1) < encoded.header.length → dec (encoded.header.getD (127 * (k + 1)) 0) = 0

/-- The last of those pieces is taken for the `end` line. -/
def UueText.HeaderEnds (encoded : UueText) : Prop :=
  ∃ k, encoded.header.drop (127 * (k + 1)) = asciiBytes ['e', 'n', 'd']

lemma uueAction_steady : Steady uueAction (· ≠ .dsEnd) where
  running := fun _ running => running
  header := by
    intro dsState line next advance _ acted
    rw [uueAction] at acted
    split at acted
    · cases acted
    · split at acted
      · split at acted
        · cases acted
          exact ⟨rfl, by decide⟩
        · cases acted
          exact ⟨rfl, by decide⟩
      · obtain ⟨decoded, -, body⟩ := Option.map_eq_some_iff.mp acted
        cases body

lemma body_running : DecoderState.dsBody ≠ .dsEnd := by
  decide

variable (lines : List UueLine)

lemma feedBytes_body (written) :
    feedBytes 127 uueAction { dsState := .dsBody, line := [], written } (UueText.body lines) =
      some { dsState := .dsBody, line := [],
             written := written ++ (lines.map UueLine.decoded).flatten } := by
  induction lines generalizing written with
  | nil =>
    rw [map_nil, flatten_nil, append_nil]
    rfl
  | cons line lines ih =>
    obtain ⟨first, chars, shape, -, -, short, plain, -⟩ := line.shape
    have length : line.text.length < 126 := by
      rw [shape, length_cons]
      omega
    obtain ⟨c, -, fed⟩ := @feedBytes_line 127 uueAction { dsState := .dsBody, line := [], written }
      body_running rfl line.text line.lineBreak (fun c mem => (plain c mem).2)
      (shape ▸ cons_ne_nil _ _) (Nat.lt_succ_of_lt length) line.breaks
    rw [UueText.body, map_cons, flatten_cons, feedBytes_append, fed,
      if_neg (Nat.ne_of_lt (Nat.succ_lt_succ length)), LineFeed.complete, uueAction_line line c]
    rw [Option.bind_some, Option.bind_some, map_cons, flatten_cons, ← append_assoc]
    exact ih _

lemma feedBytes_end (breaks : IsLineBreak endBreak) (written) :
    feedBytes 127 uueAction { dsState := .dsBody, line := [], written }
      (asciiBytes ['e', 'n', 'd'] ++ endBreak) =
        some { dsState := .dsEnd, line := [], written } := by
  obtain ⟨c, ends, fed⟩ := @feedBytes_line 127 uueAction
    { dsState := .dsBody, line := [], written } body_running rfl (asciiBytes ['e', 'n', 'd'])
    endBreak (by decide) (by decide) (by decide) breaks
  have finish : uueAction .dsBody (asciiBytes ['e', 'n', 'd'] ++ [c]) = some .finish := by
    rw [uueAction, if_pos ⟨rfl, rfl, ends⟩]
  rw [fed, if_neg (by decide), LineFeed.complete, finish]
  rfl

lemma uueAction_body {text : List UInt8} (short : text.length < 127) :
    uueAction .dsBody text = some .finish ∧ text.take 3 = asciiBytes ['e', 'n', 'd'] ∧
        text[3]?.any isLineEnd = true ∨
      ∃ decoded, uueAction .dsBody text = some (.body decoded) ∧
        (decoded = [] ↔ EmptyUueLine text) := by
  by_cases ends : text.take 3 = asciiBytes ['e', 'n', 'd'] ∧ text[3]?.any isLineEnd = true
  · left
    exact ⟨if_pos ⟨rfl, ends⟩, ends⟩
  · right
    have shape : uueAction .dsBody text = (decodeUueLine text).map .body := by
      rw [uueAction, if_neg (fun found => ends found.2), if_neg (by decide)]
    obtain ⟨result, acted⟩ := uueAction_bounded.total .dsBody text short
    obtain ⟨decoded, -, rfl⟩ := Option.map_eq_some_iff.mp (shape.symm.trans acted)
    exact ⟨decoded, acted, uueAction_empty _ _ _ short acted⟩

lemma end_of_finish {text : List UInt8} (inside : ∀ c ∈ text, isLineEnd c = false)
    (ended : (text ++ [c]).take 3 = asciiBytes ['e', 'n', 'd'])
    (three : (text ++ [c])[3]?.any isLineEnd = true) : text = asciiBytes ['e', 'n', 'd'] := by
  obtain ⟨d, found, isEnd⟩ := (Option.any_eq_true _ _).mp three
  by_cases there : 3 < text.length
  · rw [getElem?_append_left there] at found
    rw [inside d (mem_of_getElem? found)] at isEnd
    cases isEnd
  · obtain ⟨within, -⟩ := List.getElem?_eq_some_iff.mp found
    rw [length_append, length_singleton] at within
    have length : text.length = 3 := by omega
    rwa [← length, take_left] at ended

/-- Pieces of a line yield nothing if their first characters stand for zeros. -/
def RestIgnored (rest : List UInt8) : Prop :=
  ∀ k, 127 * k < rest.length → dec (rest.getD (127 * k) 0) = 0

lemma restIgnored_iff (long : 127 ≤ rest.length) :
    RestIgnored rest ↔ dec (rest.getD 0 0) = 0 ∧ RestIgnored (rest.drop 127) := by
  have later : ∀ k, (rest.drop 127).getD (127 * k) 0 = rest.getD (127 * (k + 1)) 0 := by
    intro k
    rw [getD_eq_getElem?_getD, getD_eq_getElem?_getD, getElem?_drop]
    congr 2
    omega
  constructor
  · intro ignored
    refine ⟨ignored 0 (by omega), ?_⟩
    intro k small
    rw [length_drop] at small
    rw [later]
    exact ignored (k + 1) (by omega)
  · rintro ⟨first, ignored⟩ k small
    cases k with
    | zero => exact first
    | succ k =>
      rw [← later]
      apply ignored
      rw [length_drop]
      omega

lemma feedBytes_rest {lineBreak : List UInt8} (breaks : IsLineBreak lineBreak) (n : Nat)
    (bounded : rest.length ≤ n) (inside : ∀ c ∈ rest, isLineEnd c = false) (written : List UInt8) :
    ∃ extra,
      feedBytes 127 uueAction { dsState := .dsBody, line := [], written } (rest ++ lineBreak) =
          some { dsState := .dsBody, line := [], written := written ++ extra } ∧
        (extra = [] ↔ RestIgnored rest) ∨
      feedBytes 127 uueAction { dsState := .dsBody, line := [], written } (rest ++ lineBreak) =
          some { dsState := .dsEnd, line := [], written := written ++ extra } ∧
        ∃ k, rest.drop (127 * k) = asciiBytes ['e', 'n', 'd'] := by
  induction n generalizing rest written with
  | zero =>
    cases eq_nil_of_length_eq_zero (Nat.le_zero.mp bounded)
    refine ⟨[], .inl ⟨?_, iff_of_true rfl fun k small => absurd small (Nat.not_lt_zero _)⟩⟩
    rw [append_nil, nil_append]
    exact feedBytes_break rfl breaks
  | succ n ih =>
    cases rest with
    | nil => exact @ih [] (Nat.zero_le n) inside written
    | cons first more =>
      by_cases long : 127 ≤ (first :: more).length
      · have insideFront : ∀ c ∈ (first :: more).take 127, isLineEnd c = false :=
          fun c mem => inside c (mem_of_mem_take mem)
        have filled := @feedBytes_filled 127 uueAction { dsState := .dsBody, line := [], written }
          body_running rfl ((first :: more).take 127) insideFront (by decide)
          (length_take_of_le long)
        rw [take_take, LineFeed.complete] at filled
        have notEnd : (first :: more).take 125 ≠ asciiBytes ['e', 'n', 'd'] := by
          intro same
          have lengths := congrArg List.length same
          rw [length_take] at lengths
          change min 125 _ = 3 at lengths
          omega
        have short : ((first :: more).take 125 ++ [CR]).length < 127 := by
          rw [length_append, length_take, length_singleton]
          omega
        obtain ⟨finish, ended, three⟩ | ⟨decoded, acted, empty⟩ := uueAction_body short
        · exact absurd (end_of_finish (fun d mem => inside d (mem_of_mem_take mem)) ended
            three) notEnd
        · have front : feedBytes 127 uueAction { dsState := .dsBody, line := [], written }
              ((first :: more).take 127) =
                some { dsState := .dsBody, line := [], written := written ++ decoded } := by
            rw [filled]
            change (uueAction .dsBody ((first :: more).take 125 ++ [CR])).bind _ = _
            rw [acted]
            rfl
          have whole : first :: more ++ lineBreak =
              (first :: more).take 127 ++ ((first :: more).drop 127 ++ lineBreak) := by
            rw [← append_assoc, take_append_drop]
          have less : ((first :: more).drop 127).length ≤ n := by
            rw [length_drop]
            omega
          rw [whole, feedBytes_append, front, Option.bind_some]
          obtain ⟨extra, ⟨fed, ignored⟩ | ⟨fed, k, ends⟩⟩ :=
            ih less (fun c mem => inside c (mem_of_mem_drop mem)) (written ++ decoded)
          · refine ⟨decoded ++ extra, .inl ⟨?_, ?_⟩⟩
            · rw [fed, append_assoc]
            · rw [append_eq_nil_iff, empty, ignored, restIgnored_iff long]
              rfl
          · refine ⟨decoded ++ extra, .inr ⟨?_, k + 1, ?_⟩⟩
            · rw [fed, append_assoc]
            · rw [← ends, drop_drop]
              congr 1
              omega
      · obtain ⟨c, ends, fed⟩ := @feedBytes_line 127 uueAction
          { dsState := .dsBody, line := [], written } body_running rfl (first :: more) lineBreak
          inside (cons_ne_nil _ _) (Nat.lt_of_not_le long) breaks
        rw [fed, LineFeed.complete]
        generalize lineEq : (if (first :: more).length + 1 = 127 then
          (first :: more).take (127 - 2) ++ [CR] else first :: more ++ [c]) = line
        have short : line.length < 127 := by
          rw [← lineEq]
          split
          · rw [length_append, length_take, length_singleton]
            omega
          · rw [length_append, length_singleton]
            omega
        have head : line.headD 0 = first := by
          rw [← lineEq]
          split <;> rfl
        obtain ⟨finish, ended, three⟩ | ⟨decoded, acted, empty⟩ := uueAction_body short
        · refine ⟨[], .inr ⟨?_, 0, ?_⟩⟩
          · rw [finish, append_nil]
            rfl
          · rw [Nat.mul_zero, drop_zero]
            rw [← lineEq] at ended three
            split at ended
            · rename_i full
              rw [if_pos full] at three
              have cut := congrArg List.length
                (end_of_finish (fun d mem => inside d (mem_of_mem_take mem)) ended three)
              rw [length_take] at cut
              change min 125 _ = 3 at cut
              omega
            · rename_i space
              rw [if_neg space] at three
              exact end_of_finish inside ended three
        · refine ⟨decoded, .inl ⟨?_, empty.trans ?_⟩⟩
          · rw [acted]
            rfl
          · rw [EmptyUueLine, head]
            constructor
            · intro zero k small
              have none : k = 0 := by omega
              rw [none]
              exact zero
            · intro ignored
              exact ignored 0 (Nat.succ_pos _)

lemma uueAction_begin {line : List UInt8}
    (begins : line.take 6 = asciiBytes ['b', 'e', 'g', 'i', 'n', ' ']) :
    uueAction .dsBegin line = some (.header .dsBody 0) := by
  rw [uueAction, if_neg (fun found => absurd found.1 (by decide)), if_pos rfl, if_pos begins]

/-- The `begin` line and what is left of it. -/
theorem feedBytes_header (encoded : UueText) :
    ∃ extra,
      feedBytes 127 uueAction (LineDecoderData.init.feed [])
          (encoded.header ++ encoded.headerBreak) =
            some { dsState := .dsBody, line := [], written := extra } ∧
        (extra = [] ↔ encoded.HeaderIgnored) ∨
      feedBytes 127 uueAction (LineDecoderData.init.feed [])
          (encoded.header ++ encoded.headerBreak) =
            some { dsState := .dsEnd, line := [], written := extra } ∧ encoded.HeaderEnds := by
  have begins := encoded.begins
  have six := congrArg List.length begins
  rw [length_take] at six
  change min 6 _ = 6 at six
  by_cases long : 127 ≤ encoded.header.length
  · have insideFront : ∀ c ∈ encoded.header.take 127, isLineEnd c = false :=
      fun c mem => encoded.oneLine c (mem_of_mem_take mem)
    have filled := @feedBytes_filled 127 uueAction (LineDecoderData.init.feed []) (by decide) rfl
      (encoded.header.take 127) insideFront (by decide) (length_take_of_le long)
    have acted : uueAction .dsBegin ((encoded.header.take 127).take (127 - 2) ++ [CR]) =
        some (.header .dsBody 0) := by
      apply uueAction_begin
      rw [take_append_of_le_length (by rw [take_take, length_take]; omega),
        take_take, take_take]
      exact begins
    have front : feedBytes 127 uueAction (LineDecoderData.init.feed []) (encoded.header.take 127) =
        some { dsState := .dsBody, line := [], written := [] } := by
      rw [filled]
      change (uueAction .dsBegin _).bind _ = _
      rw [acted]
      rfl
    have whole : encoded.header ++ encoded.headerBreak =
        encoded.header.take 127 ++ (encoded.header.drop 127 ++ encoded.headerBreak) := by
      rw [← append_assoc, take_append_drop]
    have shifted : ∀ k, 127 + 127 * k = 127 * (k + 1) := by
      intro k
      omega
    have same : RestIgnored (encoded.header.drop 127) ↔ encoded.HeaderIgnored := by
      apply forall_congr'
      intro k
      rw [length_drop, getD_eq_getElem?_getD, getD_eq_getElem?_getD,
        getElem?_drop, shifted]
      have bound : 127 * k < encoded.header.length - 127 ↔
          127 * (k + 1) < encoded.header.length := by omega
      rw [bound]
    rw [whole, feedBytes_append, front, Option.bind_some]
    obtain ⟨extra, ⟨fed, ignored⟩ | ⟨fed, k, ends⟩⟩ :=
      feedBytes_rest encoded.headerBreaks _ (Nat.le_refl _)
        (fun c mem => encoded.oneLine c (mem_of_mem_drop mem)) []
    · exact ⟨extra, .inl ⟨fed, ignored.trans same⟩⟩
    · refine ⟨extra, .inr ⟨fed, k, ?_⟩⟩
      rw [← ends, drop_drop, shifted]
  · have nonempty : encoded.header ≠ [] := by
      intro none
      rw [none] at six
      cases six
    obtain ⟨c, ends, fed⟩ := @feedBytes_line 127 uueAction (LineDecoderData.init.feed [])
      (by decide) rfl encoded.header encoded.headerBreak encoded.oneLine nonempty
      (Nat.lt_of_not_le long) encoded.headerBreaks
    refine ⟨[], .inl ⟨?_, iff_of_true rfl fun k small => absurd small (by omega)⟩⟩
    rw [fed, LineFeed.complete]
    have acted : uueAction .dsBegin (if encoded.header.length + 1 = 127 then
        encoded.header.take (127 - 2) ++ [CR] else encoded.header ++ [c]) =
          some (.header .dsBody 0) := by
      apply uueAction_begin
      split
      · rw [take_append_of_le_length (by rw [length_take]; omega), take_take]
        exact begins
      · rw [take_append_of_le_length (by omega)]
        exact begins
    change (uueAction .dsBegin _).bind _ = _
    rw [acted]
    rfl

lemma flatten_eq_iff {as bs : List (List α)}
    (lengths : List.Forall₂ (fun a b => a.length = b.length) as bs) :
    as.flatten = bs.flatten ↔ as = bs := by
  constructor
  · intro same
    induction lengths with
    | nil => rfl
    | cons first _ ih =>
      rw [flatten_cons, flatten_cons] at same
      obtain ⟨here, rest⟩ := append_inj same first
      rw [here, ih rest]
  · exact congrArg List.flatten

lemma decodedLines_eq_iff :
    (lines.map UueLine.decoded).flatten = (lines.map UueLine.bytes).flatten ↔
      ∀ line ∈ lines, line.Restored := by
  have lengths : List.Forall₂ (fun (a b : List UInt8) => a.length = b.length)
      (lines.map UueLine.decoded) (lines.map UueLine.bytes) := by
    rw [forall₂_map_left_iff, forall₂_map_right_iff, forall₂_same]
    exact fun line _ => line.decoded_length
  rw [flatten_eq_iff lengths, map_inj_left]
  exact forall₂_congr fun line _ => line.decoded_eq_iff

lemma UueText.plain_text (encoded : UueText) : ∀ c ∈ encoded.text, c ≠ 0 := by
  have body : ∀ c ∈ UueText.body encoded.lines, c ≠ 0 := by
    intro c mem
    obtain ⟨text, listed, inside⟩ := mem_flatten.mp mem
    obtain ⟨line, -, rfl⟩ := mem_map.mp listed
    obtain ⟨first, chars, -, -, -, -, plain, -⟩ := line.shape
    rcases mem_append.mp inside with front | back
    · exact (plain c front).1
    · exact line.breaks.plain c back
  rw [UueText.text]
  exact forall_mem_append.mpr ⟨forall_mem_append.mpr
    ⟨encoded.plain, encoded.headerBreaks.plain⟩, forall_mem_append.mpr
      ⟨body, forall_mem_append.mpr ⟨by decide, encoded.endBreaks.plain⟩⟩⟩

lemma feedBytes_text (encoded : UueText) :
    ∃ last, feedBytes 127 uueAction (LineDecoderData.init.feed []) encoded.text = some last ∧
      ((encoded.HeaderIgnored ∧ last.written = (encoded.lines.map UueLine.decoded).flatten) ∨
        (¬ encoded.HeaderIgnored ∧ ∃ extra, extra ≠ [] ∧
          last.written = extra ++ (encoded.lines.map UueLine.decoded).flatten) ∨
        encoded.HeaderEnds) := by
  rw [UueText.text, feedBytes_append]
  obtain ⟨extra, ⟨fed, ignored⟩ | ⟨fed, ends⟩⟩ := feedBytes_header encoded
  · refine ⟨{ dsState := .dsEnd, line := [],
              written := extra ++ (encoded.lines.map UueLine.decoded).flatten }, ?_, ?_⟩
    · rw [fed, Option.bind_some, feedBytes_append, feedBytes_body, Option.bind_some,
        feedBytes_end encoded.endBreaks]
    · by_cases none : extra = []
      · exact .inl ⟨ignored.mp none, by rw [none]; rfl⟩
      · exact .inr (.inl ⟨fun all => none (ignored.mpr all), extra, none, rfl⟩)
  · refine ⟨{ dsState := .dsEnd, line := [], written := extra }, ?_, .inr (.inr ends)⟩
    rw [fed, Option.bind_some]
    exact feedBytes_ended rfl _

lemma UueText.HeaderIgnored.not_ends {encoded : UueText} (ignored : encoded.HeaderIgnored) :
    ¬ encoded.HeaderEnds := by
  rintro ⟨k, ends⟩
  have there : 127 * (k + 1) < encoded.header.length := by
    have length := congrArg List.length ends
    rw [length_drop] at length
    change _ = 3 at length
    omega
  have zero := ignored k there
  have first : encoded.header.getD (127 * (k + 1)) 0 = 'e'.toUInt8 := by
    have here := congrArg (fun chars : List UInt8 => chars.getD 0 0) ends
    rw [getD_eq_getElem?_getD, getElem?_drop, Nat.add_zero,
      ← getD_eq_getElem?_getD] at here
    exact here
  rw [first] at zero
  exact absurd zero (by decide)

/-- However the text is cut into calls, the decoder stays inside its buffer, with `out`
behind `in`, and the bytes are given back exactly when nothing is left of the `begin`
line and each line is restored. Only if the rest of that line is taken for the `end`
line the bytes may be given back otherwise. -/
theorem decodeUue_text_iff (encoded : UueText) {pieces : List (List UInt8)}
    (cut : pieces.flatten = encoded.text) :
    ∃ data calls,
      decodeLinesAll uueBufferSize uueAction LineDecoderData.init pieces = some (data, calls) ∧
      (encoded.HeaderIgnored ∧ (∀ line ∈ encoded.lines, line.Restored) →
        calls.flatten = encoded.bytes) ∧
      (¬ encoded.HeaderEnds → calls.flatten = encoded.bytes →
        encoded.HeaderIgnored ∧ ∀ line ∈ encoded.lines, line.Restored) := by
  obtain ⟨last, fed, written⟩ := feedBytes_text encoded
  have ready : LineDecoderData.init.Ready uueBufferSize (· ≠ .dsEnd) :=
    ⟨Waits.nil (by decide), fun running => running⟩
  rw [← cut] at fed
  obtain ⟨data, calls, decoded, rfl⟩ := decodeLinesAll_feeds uueAction_steady (by decide)
    (fun c mem => encoded.plain_text c (cut ▸ mem)) ready fed
  change _ ∧ ([] ++ calls.flatten = _) ∨ _ ∧ (∃ extra, extra ≠ [] ∧ [] ++ calls.flatten = _) ∨ _
    at written
  rw [nil_append] at written
  refine ⟨data, calls, decoded, ?_, ?_⟩
  · rintro ⟨ignored, restored⟩
    rcases written with ⟨-, all⟩ | ⟨other, -⟩ | ends
    · rw [all]
      exact (decodedLines_eq_iff encoded.lines).mpr restored
    · exact absurd ignored other
    · exact absurd ends ignored.not_ends
  · intro goes same
    rcases written with ⟨ignored, all⟩ | ⟨-, extra, more, all⟩ | ends
    · exact ⟨ignored, (decodedLines_eq_iff encoded.lines).mp (all.symm.trans same)⟩
    · have lengths := congrArg List.length (all.symm.trans same)
      have lines : (encoded.lines.map UueLine.decoded).flatten.length = encoded.bytes.length := by
        rw [UueText.bytes, length_flatten, length_flatten, map_map, map_map]
        congr 1
        exact map_congr_left fun line _ => line.decoded_length
      rw [length_append, lines] at lengths
      exact absurd (eq_nil_of_length_eq_zero (by omega)) more
    · exact absurd ends goes

/-- The bytes 4, 0, 0, with the three spaces stripped. -/
def strippedText : UueText where
  header := asciiBytes ['b', 'e', 'g', 'i', 'n', ' ', '6', ' ', 'a']
  headerBreak := [LF]
  lines := [{
    bytes := [4, 0, 0]
    text := asciiBytes ['#', '!']
    lineBreak := [LF]
    number := by decide
    encodes := ⟨'#'.toUInt8, asciiBytes ['!', ' ', ' ', ' '], 3,
      .char _ _ (by decide) (by decide),
      .cons (.char _ _ (by decide) (by decide)) (.cons (.char _ _ (by decide) (by decide))
        (.cons (.char _ _ (by decide) (by decide)) (.cons (.char _ _ (by decide) (by decide))
          .nil))), by decide⟩
    breaks := .lf }]
  endBreak := [LF]
  begins := by decide
  plain := by decide
  oneLine := by decide
  headerBreaks := .lf
  endBreaks := .lf

theorem decodeUue_stripped :
    ¬ ∀ (encoded : UueText) (pieces : List (List UInt8)), pieces.flatten = encoded.text →
      ∃ data calls,
        decodeLinesAll uueBufferSize uueAction LineDecoderData.init pieces = some (data, calls) ∧
          calls.flatten = encoded.bytes := by
  intro inverts
  obtain ⟨data, calls, decoded, same⟩ :=
    inverts strippedText [strippedText.text] (by rw [flatten_singleton])
  have nulls : decodeLinesAll uueBufferSize uueAction LineDecoderData.init [strippedText.text] =
      some ({ dsState := .dsEnd, lineBuffer := [] }, [[0, 0, 0]]) := by
    decide +kernel
  rw [nulls] at decoded
  cases decoded
  exact absurd same (by decide)

/-- The same bytes, cut in the middle of the line. -/
theorem decodeUue_stripped_cut :
    [strippedText.text.take 12, strippedText.text.drop 12].flatten = strippedText.text ∧
    ∃ data calls, decodeLinesAll uueBufferSize uueAction LineDecoderData.init
        [strippedText.text.take 12, strippedText.text.drop 12] = some (data, calls) ∧
      (strippedText.HeaderIgnored ∧ (∀ line ∈ strippedText.lines, line.Restored) →
        calls.flatten = strippedText.bytes) ∧
      (¬ strippedText.HeaderEnds → calls.flatten = strippedText.bytes →
        strippedText.HeaderIgnored ∧ ∀ line ∈ strippedText.lines, line.Restored) :=
  ⟨by decide, decodeUue_text_iff strippedText (by decide)⟩

end CommCentral.Mime
