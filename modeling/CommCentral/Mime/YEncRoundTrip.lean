import CommCentral.Mime.YEncText

/-! Decoding a yEnc article that arrives in pieces. The local pointer `line` moves over
the header line, so that a piece that brings bytes behind it has them copied behind the
name of the file: a complete line is decoded as that name, and an incomplete one is
lost. -/

namespace CommCentral.Mime

open Lib List

/-- No piece has bytes of the header line and of the body. -/
def YencArticle.CleanCut (article : YencArticle) (pieces : List (List UInt8)) : Prop :=
  ∃ front back, pieces = front ++ back ∧
    (front.flatten = article.header ++ article.headerBreak ∨
      article.headerBreak = [CR, LF] ∧ front.flatten = article.header ++ [CR])

section
variable {room : Nat} {line text : List UInt8}

section

variable (inside : ∀ c ∈ text, isLineEnd c = false) (short : line.length + text.length < room)
include inside short

lemma copyBytes_waits : copyBytes room line text = (line ++ text, []) := by
  induction text generalizing line with
  | nil => rw [copyBytes, append_nil]
  | cons c text ih =>
    rw [length_cons] at short
    rw [copyBytes, if_pos (by omega), inside c (mem_cons_self ..)]
    simp only [Bool.false_eq_true, if_false]
    rw [ih (fun d mem => inside d (mem_cons_of_mem c mem))
      (by rw [length_append, length_singleton]; omega), append_assoc,
      singleton_append]

lemma copyBytes_ends (ends : isLineEnd c = true) (rest) :
    copyBytes room line (text ++ c :: rest) = (line ++ text ++ [c],
      if c = CR ∧ rest.head? = some LF then rest.tail else rest) := by
  induction text generalizing line with
  | nil =>
    rw [nil_append, copyBytes, if_pos (Nat.lt_of_le_of_lt (Nat.le_add_right ..) short), ends,
      append_nil]
    rfl
  | cons d text ih =>
    rw [length_cons] at short
    rw [cons_append, copyBytes, if_pos (by omega), inside d (mem_cons_self ..)]
    simp only [Bool.false_eq_true, if_false]
    rw [ih (fun e mem => inside e (mem_cons_of_mem d mem))
      (by rw [length_append, length_singleton]; omega), append_assoc line,
      singleton_append]

end

section

variable (waits : Waits room (line ++ text))
include waits

lemma Waits.front : Waits room line where
  short := Nat.lt_of_le_of_lt (by rw [length_append]; exact Nat.le_add_right ..) waits.short
  plain := (forall_mem_append.mp waits.plain).1
  inside := (forall_mem_append.mp waits.inside).1

lemma fillLine_waits : fillLine room line text = (.waiting, line ++ text, []) := by
  have short := waits.short
  rw [length_append] at short
  rw [fillLine, waits.front.cString,
    copyBytes_waits (forall_mem_append.mp waits.inside).2 short]
  dsimp only
  rw [not_any_lineEnd waits.inside fun d found => mem_of_mem_head? found,
    if_neg Bool.false_ne_true, if_neg (Nat.ne_of_lt waits.short),
    not_any_lineEnd waits.inside fun d found => mem_of_getLast? found]
  rfl

lemma fillLine_ends (nonempty : line ++ text ≠ []) (space : (line ++ text).length + 1 ≠ room)
    (ends : isLineEnd c = true) (rest) :
    fillLine room line (text ++ c :: rest) = (.complete, line ++ text ++ [c],
      if c = CR ∧ rest.head? = some LF then rest.tail else rest) := by
  have short := waits.short
  rw [length_append] at short
  have head : (line ++ text ++ [c]).head?.any isLineEnd = false := by
    rw [head?_append_of_ne_nil _ nonempty]
    exact not_any_lineEnd waits.inside fun d found => mem_of_mem_head? found
  rw [fillLine, waits.front.cString,
    copyBytes_ends (forall_mem_append.mp waits.inside).2 short ends]
  have notFull : (line ++ text ++ [c]).length ≠ room := by
    rw [length_append]
    exact space
  dsimp only
  rw [head, if_neg Bool.false_ne_true, if_neg notFull, getLast?_concat, Option.any_some,
    if_pos ends]

end

lemma copyBytes_split (input) (bounded : line.length ≤ room) :
    ∃ copied rest, copyBytes room line input = (line ++ copied, rest) ∧
      ((copied = input ∧ rest = [] ∧ ∀ c ∈ input, isLineEnd c = false) ∨
        (line ++ copied).length = room ∨ (line ++ copied).getLast?.any isLineEnd = true) := by
  induction input generalizing line with
  | nil =>
    refine ⟨[], [], ?_, .inl ⟨rfl, rfl, fun c mem => absurd mem not_mem_nil⟩⟩
    rw [copyBytes, append_nil]
  | cons c input ih =>
    rw [copyBytes]
    split
    · rename_i space
      cases ends : isLineEnd c with
      | true =>
        refine ⟨[c], _, rfl, .inr (.inr ?_)⟩
        rw [getLast?_concat]
        exact ends
      | false =>
        obtain ⟨copied, rest, copies, outcome⟩ :=
          @ih (line ++ [c]) (by rw [length_append, length_singleton]; omega)
        simp only [append_assoc, singleton_append] at copies outcome
        refine ⟨c :: copied, rest, ?_, ?_⟩
        · simp only [Bool.false_eq_true, if_false]
          exact copies
        · rcases outcome with ⟨rfl, none, inside⟩ | other
          · exact .inl ⟨rfl, none, forall_mem_cons.mpr ⟨ends, inside⟩⟩
          · exact .inr other
    · rename_i full
      refine ⟨[], c :: input, by rw [append_nil], .inr (.inl ?_)⟩
      rw [append_nil]
      omega

end

/-- The piece that brings the first byte behind a prefix of the text. -/
theorem pieces_reach {before after : List UInt8} (whole : pieces.flatten = before ++ c :: after) :
    ∃ front first second back, pieces = front ++ (first ++ c :: second) :: back ∧
      front.flatten ++ first = before ∧ second ++ back.flatten = after := by
  induction pieces generalizing before with
  | nil =>
    rw [flatten_nil] at whole
    exact absurd whole (append_ne_nil_of_right_ne_nil _ (cons_ne_nil _ _)).symm
  | cons piece pieces ih =>
    rw [flatten_cons] at whole
    rcases append_eq_append_iff.mp whole with ⟨more, inFront, rest⟩ | ⟨more, inPiece, rest⟩
    · obtain ⟨front, first, second, back, rfl, prefixes, suffixes⟩ := ih rest
      refine ⟨piece :: front, first, second, back, rfl, ?_, suffixes⟩
      rw [flatten_cons, append_assoc, prefixes, inFront]
    · cases more with
      | nil =>
        rw [append_nil] at inPiece
        obtain ⟨front, first, second, back, rfl, prefixes, suffixes⟩ := @ih [] rest.symm
        refine ⟨piece :: front, first, second, back, rfl, ?_, suffixes⟩
        rw [flatten_cons, append_assoc, prefixes, inPiece, append_nil]
      | cons d more =>
        obtain ⟨rfl, rfl⟩ := cons_eq_cons.mp rest
        exact ⟨[], before, more, pieces, by rw [inPiece]; rfl, rfl, rfl⟩

lemma decodeYenc_waits (waits : Waits 999 (before ++ piece)) (outSize : Nat) :
    decodeLines yencBufferSize yencAction { dsState := .dsBegin, lineBuffer := before } piece
        outSize =
      some ({ dsState := .dsBegin, lineBuffer := before ++ piece }, [], outSize, 1) := by
  have running : ¬ DecoderState.dsBegin = .dsEnd := by decide
  rw [decodeLines, if_neg running]
  cases piece with
  | nil =>
    rw [append_nil]
    rfl
  | cons c piece =>
    rw [length_cons, lineDecoderLoop]
    have filled : fillLine (yencBufferSize - 1 - 0) before (c :: piece) = _ := fillLine_waits waits
    rw [filled]
    rfl

lemma decodeYencAll_waits (waits : Waits 999 (before ++ front.flatten)) (pieces) :
    decodeLinesAll yencBufferSize yencAction { dsState := .dsBegin, lineBuffer := before }
        (front ++ pieces) =
      decodeLinesAll yencBufferSize yencAction
        { dsState := .dsBegin, lineBuffer := before ++ front.flatten } pieces := by
  induction front generalizing before with
  | nil => rw [flatten_nil, append_nil, nil_append]
  | cons piece front ih =>
    rw [flatten_cons, ← append_assoc] at waits ⊢
    have goes : ¬ ((1 : Int) < 0) := by decide
    rw [cons_append, decodeLinesAll, decodeYenc_waits waits.front, Option.bind_eq_bind,
      Option.bind_some]
    simp only [if_neg goes, ih waits]
    cases decodeLinesAll yencBufferSize yencAction _ pieces <;> rfl

section
variable {article : YencArticle}

lemma YencArticle.header_waits (short : article.header.length < 998) :
    Waits 999 article.header := by
  have digits : ∀ c : UInt8, isDecimal c = true → c ≠ 0 ∧ isLineEnd c = false := by
    intro c decimal
    refine ⟨?_, isDecimal_not_end c decimal⟩
    rintro rfl
    cases decimal
  have all : ∀ c ∈ article.header, c ≠ 0 ∧ isLineEnd c = false := by
    intro c mem
    simp only [header, front, mem_append] at mem
    rcases mem with (begins | line | size | sizes) | named | name
    · exact (by decide : ∀ c ∈ ybeginText, c ≠ 0 ∧ isLineEnd c = false) c begins
    · exact digits c (article.lineDecimal c line)
    · exact (by decide : ∀ c ∈ sizeText, c ≠ 0 ∧ isLineEnd c = false) c size
    · exact digits c (article.sizeDecimal c sizes)
    · exact (by decide : ∀ c ∈ nameText, c ≠ 0 ∧ isLineEnd c = false) c named
    · exact article.plainName c name
  exact ⟨Nat.lt_succ_of_lt short, fun c mem => (all c mem).1, fun c mem => (all c mem).2⟩

/-- The state behind the header line, with the name of the file at `line`. -/
def YencArticle.passed (article : YencArticle) (c : UInt8) : LineState where
  dsState := .dsBody
  offset := article.front.length
  line := nameText ++ article.name ++ [c]
  calls := []
  outSize := 0

lemma decodeYenc_header (short : article.header.length < 998) {before text : List UInt8}
    (whole : before ++ text = article.header) (ends : isLineEnd c = true) (rest) :
    decodeLines yencBufferSize yencAction { dsState := .dsBegin, lineBuffer := before }
        (text ++ c :: rest) 0 =
      (lineDecoderLoop yencBufferSize yencAction (text.length + rest.length) (article.passed c)
        (if c = CR ∧ rest.head? = some LF then rest.tail else rest)).map fun (state, result) =>
          ({ dsState := state.dsState, lineBuffer := if state.offset = 0 then state.line else [] },
            state.calls, state.outSize, result) := by
  have running : ¬ DecoderState.dsBegin = .dsEnd := by decide
  have waits := YencArticle.header_waits short
  have nonempty : article.header ≠ [] := cons_ne_nil _ _
  rw [← whole] at waits nonempty short
  have filled := fillLine_ends waits nonempty (Nat.ne_of_lt (Nat.succ_lt_succ short)) ends rest
  rw [decodeLines, if_neg running]
  have length : (text ++ c :: rest).length = text.length + rest.length + 1 := by
    rw [length_append, length_cons]
    rfl
  rw [length]
  generalize text.length + rest.length = fuel
  obtain ⟨d, input, shape⟩ : ∃ d input, text ++ c :: rest = d :: input := by
    cases text with
    | nil => exact ⟨c, rest, rfl⟩
    | cons d text => exact ⟨d, text ++ c :: rest, rfl⟩
  rw [shape] at filled ⊢
  rw [lineDecoderLoop]
  have filled' : fillLine (yencBufferSize - 1 - 0) before (d :: input) = _ := filled
  have parts : before ++ text ++ [c] =
      article.front ++ (nameText ++ (article.name ++ [c])) := by
    rw [whole, YencArticle.header]
    simp only [append_assoc]
  have plain : cString (before ++ text ++ [c]) = before ++ text ++ [c] := by
    apply cString_plain
    intro e mem
    rcases mem_append.mp mem with front | back
    · exact waits.plain e front
    · rw [mem_singleton.mp back]
      rintro rfl
      cases ends
  have acted : yencAction .dsBegin (cString (before ++ text ++ [c])) =
      some (.header .dsBody article.front.length) := by
    rw [plain, yencAction, if_pos rfl, parts, yencHeader_article]
  have passes : LineState.pass { dsState := .dsBegin, offset := 0, line := before, calls := [],
                                 outSize := 0 } .dsBody article.front.length
      (before ++ text ++ [c]) = article.passed c := by
    have moves : ¬ 0 + article.front.length = 0 := by
      rw [Nat.zero_add]
      exact Nat.succ_ne_zero _
    rw [LineState.pass, if_neg moves, parts, drop_left, YencArticle.passed,
      append_assoc, Nat.zero_add]
  rw [filled']
  dsimp only
  rw [acted, Option.bind_some]
  dsimp only
  rw [passes]

lemma YencArticle.plain_body (article : YencArticle) : ∀ c ∈ article.body, c ≠ 0 := by
  intro c mem
  simp only [body, mem_append, mem_flatten, mem_map] at mem
  rcases mem with ⟨text, ⟨line, -, rfl⟩, inside⟩ | (yend | trailer) | ends
  · rcases mem_append.mp inside with text | lineBreak
    · exact (yencCodes_plain line.encodes c text).1
    · exact line.breaks.plain c lineBreak
  · exact (by decide : ∀ c ∈ yendText, c ≠ 0) c yend
  · exact (article.plainTrailer c trailer).1
  · exact article.endBreaks.plain c ends

/-- The state in the body when nothing waits. -/
def inBody : LineDecoderData where
  dsState := .dsBody
  lineBuffer := []

lemma decodeYencAll_body (plain : ∀ c ∈ pieces.flatten, c ≠ 0) {last : LineFeed}
    (feeds : feedBytes 999 yencAction (inBody.feed []) pieces.flatten = some last) :
    ∃ data calls, decodeLinesAll yencBufferSize yencAction inBody pieces = some (data, calls) ∧
      calls.flatten = last.written := by
  have ready : inBody.Ready yencBufferSize (· = .dsBody) := ⟨Waits.nil (by decide), fun _ => rfl⟩
  obtain ⟨data, calls, decoded, rfl⟩ :=
    decodeLinesAll_feeds yencAction_steady (by decide) plain ready feeds
  exact ⟨data, calls, decoded, rfl⟩

lemma feedBytes_yencBody (lines : List YencLine) (article : YencArticle)
    (written : List UInt8) :
    feedBytes 999 yencAction { dsState := .dsBody, line := [], written }
      ((lines.map fun line => line.text ++ line.lineBreak).flatten ++
        (yendText ++ article.trailer ++ article.endBreak)) =
      some { dsState := .dsEnd, line := [],
             written := written ++ (lines.map YencLine.bytes).flatten } := by
  rw [feedBytes_append, feedBytes_dataLines, Option.bind_some,
    feedBytes_yend article.plainTrailer article.endBreaks]

lemma decodeYencAll_clean (short : article.header.length < 998) {front back : List (List UInt8)}
    (ends : isLineEnd c = true) (header : front.flatten ++ first = article.header)
    (nothing : (if c = CR ∧ second.head? = some LF then second.tail else second) = [])
    (body : back.flatten = article.body ∨ back.flatten = LF :: article.body) :
    ∃ data calls, decodeLinesAll yencBufferSize yencAction LineDecoderData.init
        (front ++ (first ++ c :: second) :: back) = some (data, calls) ∧
      calls.flatten = article.bytes := by
  have waits := YencArticle.header_waits short
  rw [← header] at waits
  have reached := @decodeYencAll_waits [] front waits.front ((first ++ c :: second) :: back)
  rw [nil_append] at reached
  have fed : feedBytes 999 yencAction (inBody.feed []) back.flatten =
      some { dsState := .dsEnd, line := [], written := article.bytes } := by
    rcases body with whole | behind
    · rw [whole]
      exact feedBytes_yencBody article.lines article []
    · rw [behind, feedBytes_blank rfl rfl]
      exact feedBytes_yencBody article.lines article []
  have plain : ∀ d ∈ back.flatten, d ≠ 0 := by
    rcases body with whole | behind
    · rw [whole]
      exact article.plain_body
    · rw [behind]
      exact forall_mem_cons.mpr ⟨by decide, article.plain_body⟩
  obtain ⟨data, calls, decoded, delivered⟩ := decodeYencAll_body plain fed
  refine ⟨data, calls, ?_, delivered⟩
  have away : ¬ article.front.length = 0 := Nat.succ_ne_zero _
  have called : decodeLines yencBufferSize yencAction
      { dsState := .dsBegin, lineBuffer := front.flatten } (first ++ c :: second) 0 =
        some (inBody, [], 0, 1) := by
    rw [decodeYenc_header short header ends second, nothing, lineDecoderLoop, Option.map_some]
    dsimp only [YencArticle.passed]
    rw [if_neg away]
    rfl
  have goes : ¬ ((1 : Int) < 0) := by decide
  change decodeLinesAll yencBufferSize yencAction { dsState := .dsBegin, lineBuffer := [] } _ = _
  rw [reached, decodeLinesAll, called, Option.bind_eq_bind, Option.bind_some]
  simp only [if_neg goes, decoded, Option.bind_eq_bind, Option.bind_some, nil_append]

/-- Bytes behind the header line in its buffer: either they wait behind the name of the
file, or a line that starts with ` name=` is decoded. -/
theorem lineDecoderLoop_passed (short : article.header.length < 998) (ends : isLineEnd c = true)
    (nonempty : rest ≠ []) (enough : rest.length ≤ fuel) :
    ∃ state result,
      lineDecoderLoop yencBufferSize yencAction fuel (article.passed c) rest =
        some (state, result) ∧
      (state.calls.flatten.head? = some 246 ∨ state.calls = [] ∧ (result < 0 ∨
        result = 1 ∧ state.offset = article.front.length ∧ state.dsState = .dsBody ∧
          ∀ d ∈ rest, isLineEnd d = false)) := by
  have total : article.front.length + (6 + article.name.length) < 998 := by
    have lengths := short
    rw [YencArticle.header, length_append, length_append] at lengths
    exact lengths
  have tailLength : (article.passed c).line.length = article.name.length + 7 := by
    rw [YencArticle.passed, length_append, length_append, length_singleton]
    change 6 + article.name.length + 1 = _
    omega
  have plain : cString (article.passed c).line = (article.passed c).line := by
    apply cString_plain
    intro e mem
    rcases mem_append.mp mem with front | back
    · rcases mem_append.mp front with named | name
      · exact (by decide : ∀ c ∈ nameText, c ≠ 0) e named
      · exact (article.plainName e name).1
    · rw [mem_singleton.mp back]
      rintro rfl
      cases ends
  have roomEq : yencBufferSize - 1 - (article.passed c).offset = 999 - article.front.length := rfl
  cases rest with
  | nil => exact absurd rfl nonempty
  | cons d rest =>
    cases fuel with
    | zero => exact absurd enough (Nat.not_succ_le_zero _)
    | succ fuel =>
      have room : (article.passed c).line.length ≤ 999 - article.front.length := by
        rw [tailLength]
        omega
      obtain ⟨copied, left, copies, outcome⟩ :=
        @copyBytes_split (999 - article.front.length) (article.passed c).line (d :: rest) room
      obtain ⟨-, -, less⟩ := @copyBytes_spec (999 - article.front.length) (article.passed c).line
        (d :: rest) room
      rw [copies] at less
      have few : left.length ≤ fuel :=
        Nat.le_of_lt_succ (Nat.lt_of_lt_of_le (less (by omega) nonempty) enough)
      rw [lineDecoderLoop, roomEq, fillLine, plain, copies]
      dsimp only
      have head : ((article.passed c).line ++ copied).head?.any isLineEnd = false := rfl
      rw [head, if_neg Bool.false_ne_true]
      obtain ⟨more, shape⟩ : ∃ more, (if ((article.passed c).line ++ copied).length =
          999 - article.front.length then ((article.passed c).line ++ copied).take
            (999 - article.front.length - 2) ++ [CR] else (article.passed c).line ++ copied) =
              ' '.toUInt8 :: more := by
        split
        · obtain ⟨n, count⟩ : ∃ n, 999 - article.front.length - 2 = n + 1 :=
            Nat.exists_eq_succ_of_ne_zero (by omega)
          rw [count]
          exact ⟨_, rfl⟩
        · exact ⟨_, rfl⟩
      by_cases complete : (if ((article.passed c).line ++ copied).length =
          999 - article.front.length then ((article.passed c).line ++ copied).take
            (999 - article.front.length - 2) ++ [CR] else
              (article.passed c).line ++ copied).getLast?.any isLineEnd = true
      · rw [if_pos complete, shape]
        have first : cString (' '.toUInt8 :: more) = ' '.toUInt8 :: cString more := rfl
        have decodes : decodeYencLine (' '.toUInt8 :: cString more) =
            (246 :: (decodeYencLine (cString more)).1, (decodeYencLine (cString more)).2) := by
          rw [decodeYencLine.eq_def]
          rfl
        have notEnd : ¬ ((article.passed c).dsState = .dsBody ∧
            (' '.toUInt8 :: cString more).take 11 = yendText) := by
          rintro ⟨-, same⟩
          cases same
        have notBegin : ¬ (article.passed c).dsState = .dsBegin := by
          intro same
          cases same
        dsimp only
        rw [first, yencAction, if_neg notBegin, if_neg notEnd, decodes]
        dsimp only
        split
        · rw [Option.bind_some]
          dsimp only
          have fits : (article.passed c).Fits yencBufferSize := by
            refine ⟨?_, ?_⟩
            · rw [plain, roomEq, tailLength]
              omega
            · rw [roomEq]
              omega
          obtain ⟨state, result, decoded, looped, -, calls, -, -⟩ :=
            lineDecoderLoop_counts yencAction_bounded
              (fits.write (246 :: (decodeYencLine (cString more)).1)) few
          refine ⟨state, result, looped, .inl ?_⟩
          rw [calls]
          rfl
        · exact ⟨_, -1, rfl, .inr ⟨rfl, .inl (by decide)⟩⟩
      · rw [if_neg complete]
        refine ⟨_, 1, rfl, .inr ⟨rfl, .inr ⟨rfl, rfl, rfl, ?_⟩⟩⟩
        rcases outcome with ⟨-, -, inside⟩ | full | last
        · exact inside
        · rw [if_pos full, getLast?_concat] at complete
          exact absurd rfl complete
        · split at complete
          · rw [getLast?_concat] at complete
            exact absurd rfl complete
          · exact absurd last complete

lemma IsLineBreak.head {lineBreak : List UInt8} (breaks : IsLineBreak lineBreak) :
    ∃ c more, lineBreak = c :: more ∧ isLineEnd c = true := by
  cases breaks with
  | cr => exact ⟨CR, [], rfl, rfl⟩
  | lf => exact ⟨LF, [], rfl, rfl⟩
  | crlf => exact ⟨CR, [LF], rfl, rfl⟩

/-- The start of the first data line is lost if it arrives with the header line. -/
theorem feedBytes_lost {lines : List YencLine} (nonempty : lines ≠ []) (loses : lost ≠ [])
    (inside : ∀ d ∈ lost, isLineEnd d = false) (body : lost ++ left = (lines.map fun line =>
      line.text ++ line.lineBreak).flatten ++ (yendText ++ article.trailer ++ article.endBreak)) :
    ∃ last, feedBytes 999 yencAction (inBody.feed []) left = some last ∧
      last.written ≠ (lines.map YencLine.bytes).flatten := by
  cases lines with
  | nil => exact absurd rfl nonempty
  | cons line lines =>
    rw [map_cons, flatten_cons, append_assoc, append_assoc] at body
    have rests : ∀ decoded : List UInt8, decoded ≠ line.bytes → ∃ last,
        feedBytes 999 yencAction { dsState := .dsBody, line := [], written := decoded }
          ((lines.map fun line => line.text ++ line.lineBreak).flatten ++
            (yendText ++ article.trailer ++ article.endBreak)) = some last ∧
        last.written ≠ ((line :: lines).map YencLine.bytes).flatten := by
      intro decoded other
      refine ⟨_, feedBytes_yencBody lines article decoded, ?_⟩
      rw [map_cons, flatten_cons]
      exact fun same => other (append_cancel_right same)
    rcases append_eq_append_iff.mp body with ⟨text, whole, left'⟩ | ⟨more, whole, left'⟩
    · rw [left', ← append_assoc]
      by_cases none : text = []
      · obtain ⟨last, fed, differs⟩ := rests [] line.nonempty.symm
        refine ⟨last, ?_, differs⟩
        rw [none, nil_append, feedBytes_append, feedBytes_break rfl line.breaks,
          Option.bind_some]
        exact fed
      · have dropped : line.text.drop lost.length = text := by rw [whole, drop_left]
        obtain ⟨decoded, fed, -, other⟩ :=
          @feedBytes_dataLine line lost.length (dropped.symm ▸ none) []
        rw [dropped, nil_append] at fed
        obtain ⟨last, fedRest, differs⟩ := rests decoded (other (length_pos_iff.mpr loses))
        refine ⟨last, ?_, differs⟩
        rw [feedBytes_append]
        change (feedBytes 999 yencAction { dsState := .dsBody, line := [], written := [] } _).bind _
          = _
        rw [fed, Option.bind_some]
        exact fedRest
    · obtain ⟨c, after, shape, ends⟩ := line.breaks.head
      cases more with
      | nil =>
        rw [nil_append] at left'
        obtain ⟨last, fed, differs⟩ := rests [] line.nonempty.symm
        refine ⟨last, ?_, differs⟩
        rw [← left', feedBytes_append, feedBytes_break rfl line.breaks, Option.bind_some]
        exact fed
      | cons d more =>
        rw [shape] at left'
        obtain ⟨rfl, -⟩ := cons_eq_cons.mp left'
        rw [inside c (whole ▸ mem_append_right _ (mem_cons_self ..))] at ends
        cases ends

lemma decodeLinesAll_first {size : Nat} {action : DecoderState → List UInt8 → Option LineAction}
    {data last : LineDecoderData}
    (decoded : decodeLinesAll size action data (piece :: pieces) = some (last, calls)) :
    ∃ next first outSize result more,
      decodeLines size action data piece 0 = some (next, first, outSize, result) ∧
      calls = first ++ more ∧ (result < 0 → more = []) ∧
      (0 ≤ result → decodeLinesAll size action next pieces = some (last, more)) := by
  rw [decodeLinesAll] at decoded
  obtain ⟨⟨next, first, outSize, result⟩, called, decoded⟩ := Option.bind_eq_some_iff.mp decoded
  dsimp only at decoded
  split at decoded
  · rename_i fails
    cases decoded
    exact ⟨_, _, outSize, result, [], called, (append_nil _).symm, fun _ => rfl,
      fun good => absurd fails (Int.not_lt.mpr good)⟩
  · rename_i goes
    obtain ⟨⟨last', more⟩, rest, decoded⟩ := Option.bind_eq_some_iff.mp decoded
    cases decoded
    exact ⟨next, first, outSize, result, more, called, rfl, fun fails => absurd fails goes,
      fun _ => rest⟩

lemma decodeYencAll_dirty (short : article.header.length < 998) {front back : List (List UInt8)}
    (ends : isLineEnd c = true) (header : front.flatten ++ first = article.header)
    (brings : (if c = CR ∧ second.head? = some LF then second.tail else second) ≠ []) (body : (if c
      = CR ∧ second.head? = some LF then second.tail else second) ++ back.flatten = article.body)
      (decoded : decodeLinesAll yencBufferSize yencAction LineDecoderData.init (front ++ (first ++ c
      :: second) :: back) = some (data, calls)) (nonempty : article.bytes ≠ [])
    (other : article.bytes.head? ≠ some 246) : calls.flatten ≠ article.bytes := by
  have waits := YencArticle.header_waits short
  rw [← header] at waits
  have reached := @decodeYencAll_waits [] front waits.front ((first ++ c :: second) :: back)
  rw [nil_append] at reached
  change decodeLinesAll yencBufferSize yencAction { dsState := .dsBegin, lineBuffer := [] } _ = _
    at decoded
  rw [reached] at decoded
  obtain ⟨next, delivered, outSize, result, more, called, rfl, ended, goes⟩ :=
    decodeLinesAll_first decoded
  have enough : (if c = CR ∧ second.head? = some LF then second.tail else second).length ≤
      first.length + second.length := by
    split
    · rw [length_tail]
      omega
    · exact Nat.le_add_left ..
  obtain ⟨state, status, looped, outcome⟩ := lineDecoderLoop_passed short ends brings enough
  rw [decodeYenc_header short header ends second, looped, Option.map_some] at called
  cases called
  intro same
  rw [flatten_append] at same
  rcases outcome with garbage | ⟨none, fails | ⟨rfl, away, dsState, inside⟩⟩
  · apply other
    rw [← same, head?_append, garbage]
    rfl
  · apply nonempty
    rw [← same, none, ended fails]
    rfl
  · have lines : article.lines ≠ [] := by
      intro empty
      apply nonempty
      rw [YencArticle.bytes, empty]
      rfl
    obtain ⟨last, fed, differs⟩ := feedBytes_lost lines brings inside body
    have plain : ∀ d ∈ back.flatten, d ≠ 0 := fun d mem =>
      article.plain_body d (body ▸ mem_append_right _ mem)
    obtain ⟨data', calls', decoded', delivered⟩ := decodeYencAll_body plain fed
    have left : ¬ state.offset = 0 := by
      rw [away]
      exact Nat.succ_ne_zero _
    have later := goes (by decide)
    rw [if_neg left, dsState] at later
    cases later.symm.trans decoded'
    apply differs
    rw [← delivered, ← YencArticle.bytes, ← same, none]
    rfl

lemma YencArticle.body_head (article : YencArticle) : article.body.head? ≠ some LF := by
  rw [body]
  cases article.lines with
  | nil =>
    intro same
    cases same
  | cons line lines =>
    obtain ⟨c, text, shape⟩ := exists_cons_of_ne_nil line.text_nonempty
    have plain := (yencCodes_plain line.encodes c (shape ▸ mem_cons_self ..)).2
    rw [map_cons, flatten_cons, shape]
    intro same
    cases same
    cases plain

/-- What the piece that completes the header line brings, and what comes behind it. -/
theorem grabbed_cases {lineBreak : List UInt8} (breaks : IsLineBreak lineBreak)
    {second rest body : List UInt8} {tail : List UInt8} (shape : lineBreak = c :: tail)
    (whole : second ++ rest = tail ++ body) (head : body.head? ≠ some LF) :
    ((if c = CR ∧ second.head? = some LF then second.tail else second) = [] ∧
        (rest = body ∧ second = tail ∨ rest = LF :: body ∧ second = [] ∧ lineBreak = [CR, LF])) ∨
      (if c = CR ∧ second.head? = some LF then second.tail else second) ≠ [] ∧
        (if c = CR ∧ second.head? = some LF then second.tail else second) ++ rest = body := by
  have single : tail = [] →
      ((if c = CR ∧ second.head? = some LF then second.tail else second) = [] ∧
        (rest = body ∧ second = tail ∨ rest = LF :: body ∧ second = [] ∧ lineBreak = [CR, LF])) ∨
      (if c = CR ∧ second.head? = some LF then second.tail else second) ≠ [] ∧
        (if c = CR ∧ second.head? = some LF then second.tail else second) ++ rest = body := by
    rintro rfl
    rw [nil_append] at whole
    have notGrabbed : ¬ (c = CR ∧ second.head? = some LF) := by
      rintro ⟨-, grabs⟩
      apply head
      rw [← whole, head?_append, grabs]
      rfl
    rw [if_neg notGrabbed]
    by_cases none : second = []
    · exact .inl ⟨none, .inl ⟨by rw [← whole, none]; rfl, none⟩⟩
    · exact .inr ⟨none, whole⟩
  cases breaks with
  | cr | lf => exact single (cons_eq_cons.mp shape).2.symm
  | crlf =>
    obtain ⟨rfl, rfl⟩ := cons_eq_cons.mp shape
    cases second with
    | nil => exact .inl ⟨by simp, .inr ⟨whole, rfl, rfl⟩⟩
    | cons d second =>
      obtain ⟨rfl, rest'⟩ := cons_eq_cons.mp whole
      rw [if_pos ⟨rfl, rfl⟩, tail_cons]
      by_cases none : second = []
      · exact .inl ⟨none, .inl ⟨by rw [none] at rest'; exact rest', by rw [none]⟩⟩
      · exact .inr ⟨none, rest'⟩

lemma decodeYencAll_total (valid : data.Valid yencBufferSize) (pieces) :
    ∃ data' calls, decodeLinesAll yencBufferSize yencAction data pieces = some (data', calls) := by
  induction pieces generalizing data with
  | nil => exact ⟨data, [], rfl⟩
  | cons piece pieces ih =>
    obtain ⟨next, first, outSize, result, called, valid', -⟩ :=
      decodeLines_outSize yencAction_bounded (by decide)
        (fun dsState line bytes _ done => yencAction_empty dsState line bytes done) valid piece 0
    rw [decodeLinesAll, called, Option.bind_eq_bind, Option.bind_some]
    dsimp only
    split
    · exact ⟨next, first, rfl⟩
    · obtain ⟨data', more, rest⟩ := ih valid'
      rw [rest]
      exact ⟨data', first ++ more, rfl⟩

end

/-- A file of one byte. -/
def smallArticle : YencArticle where
  lineDigits := asciiBytes ['9']
  sizeDigits := asciiBytes ['1']
  name := asciiBytes ['a']
  headerBreak := [CR, LF]
  lines := [{
    bytes := [23]
    text := asciiBytes ['A']
    lineBreak := [CR, LF]
    nonempty := by decide
    short := by decide
    encodes := .plain 23 (by decide) .nil
    breaks := .crlf }]
  trailer := asciiBytes ['1']
  endBreak := [CR, LF]
  lineDecimal := by decide
  sizeDecimal := by decide
  plainName := by decide
  plainTrailer := by decide
  headerBreaks := .crlf
  endBreaks := .crlf

end CommCentral.Mime
