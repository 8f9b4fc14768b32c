import CommCentral.Mime.DecoderWrite
import CommCentral.Mime.LineFeed

/-! A yEnc article, and what `mime_decode_yenc_buffer` makes of its lines once it is in
the body: the bytes of a data line, and other bytes when the start of the line is lost. -/

namespace CommCentral.Mime

open Lib List

/-- Characters that have to be escaped. -/
def criticalChars : List UInt8 := [0, LF, CR, '='.toUInt8]

/-- Characters that may be escaped. -/
def escapableChars : List UInt8 := criticalChars ++ ['\t'.toUInt8, ' '.toUInt8, '.'.toUInt8]

/-- The characters for some bytes. -/
inductive YencCodes : List UInt8 → List UInt8 → Prop where
  | nil : YencCodes [] []
  | plain (byte : UInt8) {bytes chars : List UInt8} (plain : byte + 42 ∉ criticalChars)
      (rest : YencCodes bytes chars) : YencCodes (byte :: bytes) ((byte + 42) :: chars)
  | escaped (byte : UInt8) {bytes chars : List UInt8} (escapable : byte + 42 ∈ escapableChars)
      (rest : YencCodes bytes chars) :
      YencCodes (byte :: bytes) ('='.toUInt8 :: (byte + 42 + 64) :: chars)

structure YencLine where
  bytes : List UInt8
  text : List UInt8
  lineBreak : List UInt8
  nonempty : bytes ≠ []
  short : text.length < 998
  encodes : YencCodes bytes text
  breaks : IsLineBreak lineBreak

/-- A yEnc article. -/
structure YencArticle where
  lineDigits : List UInt8
  sizeDigits : List UInt8
  name : List UInt8
  headerBreak : List UInt8
  lines : List YencLine
  trailer : List UInt8
  endBreak : List UInt8
  lineDecimal : ∀ c ∈ lineDigits, isDecimal c = true
  sizeDecimal : ∀ c ∈ sizeDigits, isDecimal c = true
  plainName : ∀ c ∈ name, c ≠ 0 ∧ isLineEnd c = false
  plainTrailer : ∀ c ∈ trailer, c ≠ 0 ∧ isLineEnd c = false
  headerBreaks : IsLineBreak headerBreak
  endBreaks : IsLineBreak endBreak

/-- What is recognized of the header line. -/
def YencArticle.front (article : YencArticle) : List UInt8 :=
  ybeginText ++ (article.lineDigits ++ (sizeText ++ article.sizeDigits))

/-- The `=ybegin` line. -/
def YencArticle.header (article : YencArticle) : List UInt8 :=
  article.front ++ (nameText ++ article.name)

/-- The data lines and the `=yend` line. -/
def YencArticle.body (article : YencArticle) : List UInt8 :=
  (article.lines.map fun line => line.text ++ line.lineBreak).flatten ++
    (yendText ++ article.trailer ++ article.endBreak)

def YencArticle.text (article : YencArticle) : List UInt8 :=
  article.header ++ article.headerBreak ++ article.body

def YencArticle.bytes (article : YencArticle) : List UInt8 :=
  (article.lines.map YencLine.bytes).flatten

lemma dropWhile_digits {digits : List UInt8} (decimal : ∀ c ∈ digits, isDecimal c = true)
    (stops : key.head?.any isDecimal = false) (nonempty : key ≠ []) (rest) :
    (digits ++ (key ++ rest)).dropWhile isDecimal = key ++ rest := by
  rw [dropWhile_append_of_pos decimal]
  cases key with
  | nil => exact absurd rfl nonempty
  | cons c key =>
    rw [head?_cons, Option.any_some] at stops
    rw [cons_append, dropWhile_cons_of_neg (by simp [stops])]

lemma yencHeader_article (article : YencArticle) (rest : List UInt8) :
    yencHeader (article.front ++ (nameText ++ rest)) =
      some (.header .dsBody article.front.length) := by
  have shape : article.front ++ (nameText ++ rest) = ybeginText ++ (article.lineDigits ++
      (sizeText ++ (article.sizeDigits ++ (nameText ++ rest)))) := by
    simp only [YencArticle.front, append_assoc]
  have total := congrArg List.length shape
  rw [length_append] at total
  have begins : ∀ text : List UInt8, (ybeginText ++ text).take 13 = ybeginText := fun text => rfl
  have begun : ∀ text : List UInt8, (ybeginText ++ text).drop 13 = text := fun text => rfl
  have size : ∀ text : List UInt8, (sizeText ++ text).take 6 = sizeText := fun text => rfl
  have sized : ∀ text : List UInt8, (sizeText ++ text).drop 6 = text := fun text => rfl
  have named : ∀ text : List UInt8, (nameText ++ text).take 6 = nameText := fun text => rfl
  have bounds : ∀ n : Nat, ¬ (n > yencBufferSize ∧ n ≤ 997) := by
    intro n both
    change n > 1000 ∧ _ at both
    omega
  rw [shape, yencHeader]
  simp only [begins, begun, dropWhile_digits article.lineDecimal (show sizeText.head?.any isDecimal
    = false from rfl) (cons_ne_nil _ _), size, sized, dropWhile_digits article.sizeDecimal
    (show nameText.head?.any isDecimal = false from rfl) (cons_ne_nil _ _), named, bounds,
    if_true, if_false, ← total, Nat.add_sub_cancel]

/-- What is decoded of a data line that has lost its first characters. -/
theorem decodeYencLine_drop {bytes text : List UInt8} (codes : YencCodes bytes text)
    (ends : isLineEnd c = true) (m : Nat) :
    ∃ decoded, decodeYencLine (text.drop m ++ [c]) = (decoded, true) ∧
      decoded.length ≤ bytes.length ∧ (m = 0 → decoded = bytes) ∧
      (0 < m → bytes ≠ [] → decoded ≠ bytes) ∧ (text.drop m ++ [c]).take 11 ≠ yendText := by
  have single : decodeYencLine [c] = ([], true) := by
    rw [decodeYencLine.eq_def]
    simp only [ends, if_true]
  induction codes generalizing m with
  | nil =>
    refine ⟨[], ?_, Nat.le_refl 0, fun _ => rfl, fun _ nonempty => absurd rfl nonempty, ?_⟩
    · rw [drop_nil, nil_append, single]
    · rw [drop_nil, nil_append]
      intro same
      cases same
  | @plain byte bytes chars plain rest ih =>
    have notEnd : isLineEnd (byte + 42) = false := by
      cases isEnd : isLineEnd (byte + 42) with
      | false => rfl
      | true =>
        rw [isLineEnd, Bool.or_eq_true, decide_eq_true_eq, decide_eq_true_eq] at isEnd
        rcases isEnd with same | same
        · exact absurd (same ▸ by decide) plain
        · exact absurd (same ▸ by decide) plain
    have notEscape : byte + 42 ≠ '='.toUInt8 := by
      intro same
      exact absurd (same ▸ by decide) plain
    cases m with
    | zero =>
      obtain ⟨decoded, decodes, -, same, -, -⟩ := ih 0
      rw [drop_zero] at decodes
      refine ⟨byte :: bytes, ?_, Nat.le_refl _, fun _ => rfl,
        fun more => absurd more (Nat.lt_irrefl 0), ?_⟩
      · rw [drop_zero, cons_append, decodeYencLine.eq_def]
        simp only [notEnd, notEscape, decodes, same rfl, if_false, Bool.false_eq_true,
          UInt8.add_sub_cancel]
      · rw [drop_zero, cons_append, take_succ_cons]
        intro same
        exact notEscape (cons_eq_cons.mp same).1
    | succ m =>
      obtain ⟨decoded, decodes, short, -, -, other⟩ := ih m
      refine ⟨decoded, decodes, Nat.le_succ_of_le short,
        fun zero => absurd zero (Nat.succ_ne_zero m), fun _ _ same => ?_, other⟩
      rw [same] at short
      exact absurd short (Nat.not_succ_le_self _)
  | @escaped byte bytes chars escapable rest ih =>
    have codes : ∀ x ∈ escapableChars, isLineEnd (x + 64) = false ∧ x + 64 ≠ '='.toUInt8 ∧
        x + 64 ≠ 'y'.toUInt8 := by decide
    obtain ⟨notEnd, notEscape, notY⟩ := codes _ escapable
    rcases m with _ | _ | m
    · obtain ⟨decoded, decodes, -, same, -, -⟩ := ih 0
      rw [drop_zero] at decodes
      refine ⟨byte :: bytes, ?_, Nat.le_refl _, fun _ => rfl,
        fun more => absurd more (Nat.lt_irrefl 0), ?_⟩
      · rw [drop_zero, cons_append, cons_append, decodeYencLine.eq_def]
        have escape : isLineEnd '='.toUInt8 = false := rfl
        simp only [escape, decodes, same rfl, if_false, if_true, Bool.false_eq_true,
          UInt8.add_sub_cancel]
      · rw [drop_zero, cons_append, cons_append, take_succ_cons,
          take_succ_cons]
        intro same
        exact notY (cons_eq_cons.mp (cons_eq_cons.mp same).2).1
    · obtain ⟨decoded, decodes, -, same, -, -⟩ := ih 0
      rw [drop_zero] at decodes
      refine ⟨(byte + 42 + 64 - 42) :: bytes, ?_, Nat.le_refl _,
        fun zero => absurd zero Nat.one_ne_zero, fun _ _ same => ?_, ?_⟩
      · rw [drop_succ_cons, drop_zero, cons_append, decodeYencLine.eq_def]
        simp only [notEnd, notEscape, decodes, same rfl, if_false, Bool.false_eq_true]
      · have kept := (cons_eq_cons.mp same).1
        grind
      · rw [drop_succ_cons, drop_zero, cons_append, take_succ_cons]
        intro same
        exact notEscape (cons_eq_cons.mp same).1
    · obtain ⟨decoded, decodes, short, -, -, other⟩ := ih m
      refine ⟨decoded, decodes, Nat.le_succ_of_le short,
        fun zero => absurd zero (Nat.succ_ne_zero _), fun _ _ same => ?_, other⟩
      rw [same] at short
      exact absurd short (Nat.not_succ_le_self _)

lemma yencCodes_plain {bytes text : List UInt8} (codes : YencCodes bytes text) :
    ∀ c ∈ text, c ≠ 0 ∧ isLineEnd c = false := by
  have single : ∀ c : UInt8, c ∉ criticalChars → c ≠ 0 ∧ isLineEnd c = false := by
    intro c other
    have apart : ∀ d ∈ criticalChars, c ≠ d := fun d mem same => other (same ▸ mem)
    refine ⟨apart 0 (by decide), ?_⟩
    rw [isLineEnd, decide_eq_false (apart CR (by decide)), decide_eq_false (apart LF (by decide))]
    rfl
  have escape : '='.toUInt8 ≠ 0 ∧ isLineEnd '='.toUInt8 = false := ⟨by decide, rfl⟩
  have codes' : ∀ x ∈ escapableChars, x + 64 ≠ 0 ∧ isLineEnd (x + 64) = false := by decide
  induction codes with
  | nil => exact fun c mem => absurd mem not_mem_nil
  | plain byte plain rest ih => exact forall_mem_cons.mpr ⟨single _ plain, ih⟩
  | escaped byte escapable rest ih =>
    exact forall_mem_cons.mpr ⟨escape, forall_mem_cons.mpr ⟨codes' _ escapable, ih⟩⟩

lemma YencLine.text_nonempty (line : YencLine) : line.text ≠ [] := by
  have nonempty := line.nonempty
  have codes := line.encodes
  generalize line.text = text at codes ⊢
  generalize line.bytes = bytes at codes nonempty
  cases codes with
  | nil => exact absurd rfl nonempty
  | plain | escaped => exact cons_ne_nil _ _

/-- A data line that may have lost its first characters. -/
theorem feedBytes_dataLine (line : YencLine) {m : Nat} (left : line.text.drop m ≠ [])
    (written : List UInt8) :
    ∃ decoded,
      feedBytes 999 yencAction { dsState := .dsBody, line := [], written }
        (line.text.drop m ++ line.lineBreak) =
          some { dsState := .dsBody, line := [], written := written ++ decoded } ∧
      (m = 0 → decoded = line.bytes) ∧ (0 < m → decoded ≠ line.bytes) := by
  have short := line.short
  have running : DecoderState.dsBody ≠ .dsEnd := by decide
  have length : (line.text.drop m).length < 998 := by
    rw [length_drop]
    omega
  obtain ⟨c, ends, fed⟩ := @feedBytes_line 999 yencAction
    { dsState := .dsBody, line := [], written } running rfl (line.text.drop m) line.lineBreak
    (fun c mem => (yencCodes_plain line.encodes c (mem_of_mem_drop mem)).2) left
    (Nat.lt_succ_of_lt length) line.breaks
  obtain ⟨decoded, decodes, -, whole, lost, other⟩ := decodeYencLine_drop line.encodes ends m
  have acted : yencAction .dsBody (line.text.drop m ++ [c]) = some (.body decoded) := by
    rw [yencAction, if_neg (by decide), if_neg (fun found => other found.2), decodes]
    rfl
  refine ⟨decoded, ?_, whole, fun more => lost more line.nonempty⟩
  rw [fed, if_neg (Nat.ne_of_lt (Nat.succ_lt_succ length)), LineFeed.complete, acted]
  rfl

lemma feedBytes_dataLines (lines : List YencLine) (written : List UInt8) :
    feedBytes 999 yencAction { dsState := .dsBody, line := [], written }
      (lines.map fun line => line.text ++ line.lineBreak).flatten =
        some { dsState := .dsBody, line := [],
               written := written ++ (lines.map YencLine.bytes).flatten } := by
  induction lines generalizing written with
  | nil =>
    rw [map_nil, flatten_nil, map_nil, flatten_nil, append_nil]
    rfl
  | cons line lines ih =>
    obtain ⟨decoded, fed, whole, -⟩ := @feedBytes_dataLine line 0 line.text_nonempty written
    rw [drop_zero] at fed
    rw [map_cons, flatten_cons, feedBytes_append, fed, whole rfl, Option.bind_some, ih,
      map_cons, flatten_cons, append_assoc]

lemma feedBytes_yend (plain : ∀ c ∈ trailer, c ≠ 0 ∧ isLineEnd c = false)
    (breaks : IsLineBreak endBreak) (written) :
    feedBytes 999 yencAction { dsState := .dsBody, line := [], written }
      (yendText ++ trailer ++ endBreak) = some { dsState := .dsEnd, line := [], written } := by
  have running : DecoderState.dsBody ≠ .dsEnd := by decide
  have inside : ∀ c ∈ yendText ++ trailer, isLineEnd c = false :=
    forall_mem_append.mpr ⟨by decide, fun c mem => (plain c mem).2⟩
  have starts : (yendText ++ trailer).take 11 = yendText := rfl
  have eleven : 11 ≤ (yendText ++ trailer).length := by
    rw [length_append]
    exact Nat.le_add_right 11 _
  have finish : ∀ line : List UInt8, line.take 11 = yendText →
      yencAction .dsBody line = some .finish := by
    intro line found
    rw [yencAction, if_neg (by decide), if_pos ⟨rfl, found⟩]
  generalize yendText ++ trailer = line at inside starts eleven ⊢
  by_cases long : 999 ≤ line.length
  · have front := @feedBytes_filled 999 yencAction { dsState := .dsBody, line := [], written }
      running rfl (line.take 999) (fun c mem => inside c (mem_of_mem_take mem))
      (by decide) (length_take_of_le long)
    have whole : line ++ endBreak = line.take 999 ++ (line.drop 999 ++ endBreak) := by
      rw [← append_assoc, take_append_drop]
    rw [whole, feedBytes_append, front, LineFeed.complete, finish]
    · exact feedBytes_ended rfl _
    · rw [take_append_of_le_length (by rw [length_take, length_take]; omega),
        take_take, take_take]
      exact starts
  · have nonempty : line ≠ [] := by
      intro none
      rw [none] at eleven
      cases eleven
    obtain ⟨c, -, fed⟩ := @feedBytes_line 999 yencAction
      { dsState := .dsBody, line := [], written } running rfl line endBreak inside nonempty
      (Nat.lt_of_not_le long) breaks
    rw [fed, LineFeed.complete, finish]
    · rfl
    · split
      · rw [take_append_of_le_length (by rw [length_take]; omega), take_take]
        exact starts
      · rw [take_append_of_le_length eleven]
        exact starts

lemma yencAction_steady : Steady yencAction (· = .dsBody) where
  running := by
    intro dsState here
    rw [here]
    decide
  header := by
    intro dsState line next advance here acted
    rw [here, yencAction, if_neg (by decide)] at acted
    split at acted
    · cases acted
    · dsimp only at acted
      split at acted <;> cases acted

end CommCentral.Mime
