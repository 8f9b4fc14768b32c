import CommCentral.Mime.QPEncode

/-! When quoted-printable text is read back as it was written: exactly when no soft
line break comes in front of a space. There the space is written before the break,
and the break becomes a line end of the text. -/

namespace CommCentral.Mime

open Lib List

section

section

variable (text : before = unitsText units) (shown : OnLine limit before column)
  (plain : ∀ unit ∈ units, unit.Plain) (short : column ≤ 72) (wide : 76 ≤ limit)
include text shown plain short wide

/-- One call, after the text of earlier ones. -/
theorem qpWrite_spec (chunk : List UInt8)
    (wider : .splitSpace ∈ (walk column false chunk).1 → 78 ≤ limit) :
    ∃ calls units', qpWrite column chunk = some ((walk column false chunk).2, calls) ∧
      before ++ calls.flatten = unitsText units' ∧
      OnLine limit (before ++ calls.flatten) (walk column false chunk).2 ∧
      (∀ unit ∈ units', unit.Plain) ∧ (walk column false chunk).2 ≤ 72 ∧
      unitsValue false units' =
        unitsValue false units ++ (walk column false chunk).1.flatMap QPItem.decoded := by
  have start : QPLine.Valid limit before { column, out := [], white := false, calls := [] } units :=
    ⟨by rw [flatten_nil, append_nil, append_nil, text], by rw [← text]; exact shown,
      Nat.zero_le _, plain, Bool.noConfusion⟩
  obtain ⟨line, units', looped, valid, columnEq, lineShort, values⟩ :=
    writeLoop_spec (Nat.le_refl chunk.length) start short wide wider
  have written : before ++ (if line.out ≠ [] then line.calls ++ [line.out] else
      line.calls).flatten = unitsText units' := by
    rw [← valid.text]
    by_cases nothing : line.out = []
    · rw [if_neg (fun some => some nothing), nothing, append_nil]
    · rw [if_pos nothing, flatten_append, flatten_singleton, append_assoc]
  refine ⟨_, units', ?_, written, ?_, valid.plain, ?_, values⟩
  · rw [qpWrite, looped, Option.bind_eq_bind, Option.bind_some]
    exact congrArg (fun column => some (column, _)) columnEq
  · rw [written, ← columnEq]
    exact valid.shown
  · rw [← columnEq]
    exact lineShort

lemma qpWriteAll_spec (chunks) (wider : .splitSpace ∈ walkAll column chunks → 78 ≤ limit) :
    ∃ last calls units', qpWriteAll column chunks = some (last, calls) ∧
      before ++ calls.flatten = unitsText units' ∧
      OnLine limit (before ++ calls.flatten) last ∧ last ≤ 72 ∧
      (∀ unit ∈ units', unit.Plain) ∧
      unitsValue false units' =
        unitsValue false units ++ (walkAll column chunks).flatMap QPItem.decoded := by
  induction chunks generalizing before column units with
  | nil =>
    exact ⟨column, [], units, rfl, by rw [flatten_nil, append_nil, text],
      by rw [flatten_nil, append_nil]; exact shown, short, plain,
      (append_nil _).symm⟩
  | cons chunk chunks ih =>
    obtain ⟨calls, units', written, nextText, nextShown, nextPlain, nextShort, values⟩ :=
      qpWrite_spec text shown plain short wide chunk fun mem => wider (mem_append_left _ mem)
    obtain ⟨last, more, lastUnits, rest, lastText, lastShown, lastShort, lastPlain, lastValues⟩ :=
      ih nextText nextShown nextPlain nextShort fun mem => wider (mem_append_right _ mem)
    refine ⟨last, calls ++ more, lastUnits, ?_, ?_, ?_, lastShort, lastPlain, ?_⟩
    · simp only [qpWriteAll, written, rest, Option.bind_eq_bind, Option.bind_some]
    · rw [flatten_append, ← append_assoc, lastText]
    · rw [flatten_append, ← append_assoc]
      exact lastShown
    · rw [lastValues, values, walkAll, flatMap_append, append_assoc]

end

end

lemma qpWriteAll_start (wide : 76 ≤ limit) (chunks)
    (wider : .splitSpace ∈ walkAll 0 chunks → 78 ≤ limit) :
    ∃ last calls units, qpWriteAll 0 chunks = some (last, calls) ∧
      calls.flatten = unitsText units ∧ OnLine limit calls.flatten last ∧ last ≤ 72 ∧
      (∀ unit ∈ units, unit.Plain) ∧
      unitsValue false units = (walkAll 0 chunks).flatMap QPItem.decoded := by
  have nothingPlain : ∀ unit ∈ ([] : List QPUnit), unit.Plain := nofun
  have nothing : ([] : List UInt8) = unitsText [] := rfl
  exact qpWriteAll_spec nothing (OnLine.start limit) nothingPlain (Nat.zero_le 72) wide chunks
    wider

lemma unitsValue_shown (treatNullAsSpace : Bool) (plain : ∀ unit ∈ units, unit.Plain) :
    unitsValue treatNullAsSpace units =
      (unitsValue false units).map (QPUnit.shownByte treatNullAsSpace) := by
  induction units with
  | nil => rfl
  | cons unit units ih =>
    have later := ih fun other mem => plain other (mem_cons_of_mem _ mem)
    have unitPlain := plain unit (mem_cons_self ..)
    have head : unit.value treatNullAsSpace =
        (unit.value false).map (QPUnit.shownByte treatNullAsSpace) := by
      cases unit with
      | raw c =>
        have same : QPUnit.shownByte treatNullAsSpace c = c := if_neg fun null => unitPlain.2 null.1
        simp only [QPUnit.value, map_cons, map_nil, same]
      | hex c => simp [QPUnit.value, QPUnit.shownByte]
      | soft => rfl
    change unit.value treatNullAsSpace ++ unitsValue treatNullAsSpace units = _
    rw [head, later, ← map_append]
    rfl

/-- The text of the calls is read back as the bytes that were written, newlines made
CRLF, for every cut of it into calls of `MimeDecoderWrite`; and no line of it is
longer than 76 characters. -/
def QPRoundTrip (treatNullAsSpace : Bool) (chunks : List (List UInt8)) : Prop :=
  ∃ column calls, qpWriteAll 0 chunks = some (column, calls) ∧
    (∀ pieces : List (List UInt8), pieces.flatten = calls.flatten →
      ∃ decoder decoded last,
        decodeQPAll treatNullAsSpace MimeDecoderData.init pieces = some (decoder, decoded) ∧
        decoder.destroyQP = some last ∧
        (decoded ++ last).flatten = chunks.flatMap normalizeNewlines) ∧
    ∃ width, OnLine 76 calls.flatten width ∧ width ≤ 76

lemma walkAll_plain (column : Nat) (chunks) :
    (walkAll column chunks).flatMap QPItem.plain = chunks.flatMap normalizeNewlines := by
  induction chunks generalizing column with
  | nil => rfl
  | cons chunk chunks ih =>
    rw [walkAll, flatMap_append, walk_plain, ih]
    rfl

lemma decoded_of_unsplit {items : List QPItem} (unsplit : .splitSpace ∉ items) :
    items.flatMap QPItem.decoded = items.flatMap QPItem.plain := by
  apply flatMap_congr
  intro item mem
  cases item with
  | byte c => rfl
  | lineEnd => rfl
  | splitSpace => exact absurd mem unsplit

/-- A split space leaves a line end too many. -/
theorem decoded_length (items : List QPItem) :
    (items.flatMap QPItem.decoded).length =
      (items.flatMap QPItem.plain).length + 2 * items.count .splitSpace := by
  induction items with
  | nil => rfl
  | cons item items ih =>
    rw [flatMap_cons, flatMap_cons, length_append, length_append, ih,
      count_cons]
    cases item with
    | byte c | lineEnd => simp [QPItem.decoded, QPItem.plain, Nat.add_assoc]
    | splitSpace =>
      simp [QPItem.decoded, QPItem.plain, crlf]
      omega

lemma null_mem_normalizeNewlines (bytes) :
    (0 : UInt8) ∈ normalizeNewlines bytes ↔ (0 : UInt8) ∈ bytes := by
  have noNull : (0 : UInt8) ∉ crlf := by decide
  have notNewline : ∀ c : UInt8, isNewline c = true → (0 : UInt8) ≠ c := by
    intro c newline null
    rw [← null] at newline
    exact absurd newline (by decide)
  induction length : bytes.length using Nat.strongRecOn generalizing bytes with
  | ind n ih =>
    cases bytes with
    | nil => exact Iff.rfl
    | cons c rest =>
      rw [length_cons] at length
      rw [normalizeNewlines_cons, mem_cons]
      by_cases newline : isNewline c = true
      · have differs := notNewline c newline
        have same : (0 : UInt8) ∈ afterNewline c rest ↔ (0 : UInt8) ∈ rest := by
          unfold afterNewline
          split
          · rename_i both
            cases rest with
            | nil => exact Iff.rfl
            | cons d rest =>
              have lineFeed : d = 0x0A := Option.some.inj both.2
              have notNull : (0 : UInt8) ≠ d := notNewline d (by rw [lineFeed]; decide)
              simp [notNull]
          · exact Iff.rfl
        have shorter : (afterNewline c rest).length < n := by
          rw [← afterStep_newline 0 rest newline]
          have bound := afterStep_length (walkStep 0 c rest).2.2 rest
          omega
        have later : (0 : UInt8) ∈ normalizeNewlines (afterNewline c rest) ↔ _ := ih _ shorter _ rfl
        rw [if_pos newline, mem_append, later, same]
        simp [noNull, differs]
      · have shorter : rest.length < n := by omega
        have later : (0 : UInt8) ∈ normalizeNewlines rest ↔ _ := ih _ shorter _ rfl
        rw [if_neg newline, mem_cons, later]

section

variable {chunks : List (List UInt8)} (roundTrip : QPRoundTrip treatNullAsSpace chunks)
include roundTrip

/-- What is read back of the text of all the calls. -/
theorem QPRoundTrip.shown :
    ((walkAll 0 chunks).flatMap QPItem.decoded).map (QPUnit.shownByte treatNullAsSpace) =
      (walkAll 0 chunks).flatMap QPItem.plain := by
  obtain ⟨column, calls, written, readBack, -⟩ := roundTrip
  obtain ⟨last, calls', units, written', text, -, -, plain, values⟩ :=
    qpWriteAll_start (by decide : 76 ≤ 78) chunks (fun _ => Nat.le_refl 78)
  rw [written] at written'
  cases written'
  obtain ⟨decoder, decoded, final, read, destroyed, output⟩ :=
    readBack [calls.flatten] (append_nil _)
  obtain ⟨decoder', decoded', final', read', destroyed', output'⟩ :=
    decodeQPAll_units treatNullAsSpace plain [calls.flatten] ((append_nil _).trans text)
  rw [read] at read'
  cases read'
  rw [destroyed] at destroyed'
  cases destroyed'
  rw [walkAll_plain, ← output, output', unitsValue_shown treatNullAsSpace plain, values]

lemma QPRoundTrip.unsplit : .splitSpace ∉ walkAll 0 chunks := by
  intro split
  have lengths := congrArg List.length roundTrip.shown
  have extra := count_pos_iff.mpr split
  rw [length_map, decoded_length] at lengths
  omega

end

/-- The text is read back exactly when no soft line break is put behind a space, and
null bytes are not shown as spaces or do not occur. -/
theorem qpRoundTrip_iff (treatNullAsSpace : Bool) (chunks : List (List UInt8)) :
    QPRoundTrip treatNullAsSpace chunks ↔
      .splitSpace ∉ walkAll 0 chunks ∧
        (treatNullAsSpace = true → (0 : UInt8) ∉ chunks.flatten) := by
  have nulls : (0 : UInt8) ∈ chunks.flatMap normalizeNewlines ↔ (0 : UInt8) ∈ chunks.flatten := by
    simp only [mem_flatMap, mem_flatten, null_mem_normalizeNewlines]
  have plainItems := walkAll_plain 0 chunks
  constructor
  · intro roundTrip
    have unsplit := roundTrip.unsplit
    refine ⟨unsplit, ?_⟩
    intro treats null
    have inText : (0 : UInt8) ∈ (walkAll 0 chunks).flatMap QPItem.plain := by
      rw [plainItems]
      exact nulls.mpr null
    have shown := roundTrip.shown
    rw [decoded_of_unsplit unsplit] at shown
    have kept : ∀ c ∈ (walkAll 0 chunks).flatMap QPItem.plain,
        QPUnit.shownByte treatNullAsSpace c = c :=
      map_inj_left.mp (shown.trans (map_id _).symm)
    have space := kept 0 inText
    rw [QPUnit.shownByte, if_pos ⟨rfl, treats⟩] at space
    exact absurd space (by decide)
  · rintro ⟨unsplit, noNull⟩
    obtain ⟨last, calls, units, written, text, shown, short, plain, values⟩ :=
      qpWriteAll_start (Nat.le_refl 76) chunks (fun split => absurd split unsplit)
    refine ⟨last, calls, written, ?_, last, shown, by omega⟩
    intro pieces whole
    obtain ⟨decoder, decoded, final, read, destroyed, output⟩ :=
      decodeQPAll_units treatNullAsSpace plain pieces (whole.trans text)
    refine ⟨decoder, decoded, final, read, destroyed, ?_⟩
    rw [output, unitsValue_shown treatNullAsSpace plain, values, decoded_of_unsplit unsplit,
      plainItems]
    apply (map_congr_left ?_).trans (map_id _)
    intro c mem
    apply if_neg
    rintro ⟨rfl, treats⟩
    exact noNull treats (nulls.mp mem)

/-- A line of 73 characters and a space: the space comes back with a line end. -/
theorem space_after_73_not_read_back :
    ¬ ∀ (treatNullAsSpace : Bool) (chunks : List (List UInt8)),
      QPRoundTrip treatNullAsSpace chunks := by
  intro claim
  have roundTrip := claim false [List.replicate 73 'a'.toUInt8 ++ [0x20, 'b'.toUInt8]]
  exact roundTrip.unsplit (by decide +kernel)

end CommCentral.Mime
