import CommCentral.Imap.ParenGroup

/-! What the two readers of a parenthesised group make of its text. -/
namespace CommCentral.Imap

open Lib GenericParser List Option

/-- What is left of a response inside a group. -/
def remaining (pieces : List Piece) (rest : ResponseEnd) : List UInt8 := sendAll pieces ++ rest.text

lemma deliveredLines_unbroken {before text first : List UInt8} (unbroken : 0x0D ∉ before)
    (lines : deliveredLines text = first :: later) :
    deliveredLines (before ++ text) = (before ++ first) :: later := by
  have start := @pairLines_unbroken _ _ (0x0D : UInt8) 0x0A [] before unbroken (.inl nofun)
  have lastChar : before.getLast? ≠ some 0x0D := fun isLast => unbroken (mem_of_getLast? isLast)
  have behind := @pairLines_behind _ _ (0x0D : UInt8) 0x0A [] before first later text
    (.inr (.inl lastChar)) lines
  rw [append_nil] at behind
  rw [deliveredLines, pairLines_append, start, nil_append]
  exact behind

lemma deliveredLines_announced {value text first : List UInt8} (head : text.head? ≠ some 0x0A)
    (lines : deliveredLines text = first :: later) :
    deliveredLines (literalHead value ++ crlf ++ value ++ text) =
      (literalHead value ++ crlf) ::
        ((pairLines 0x0D 0x0A [] value).1 ++ (lastLine value ++ first) :: later) := by
  have unbroken : 0x0D ∉ literalHead value :=
    not_mem_literalHead (by decide) (by decide) (by decide) value
  have announced := @pairLines_unbroken _ _ (0x0D : UInt8) 0x0A [] _ unbroken (.inl nofun)
  have last := @pairLines_behind _ _ (0x0D : UInt8) 0x0A [] (lastLine value) first later text
    (.inr (.inr head)) lines
  rw [append_nil] at last
  have rest : (pairLines (0x0D : UInt8) 0x0A [] (value ++ text)).1 =
      (pairLines 0x0D 0x0A [] value).1 ++ (lastLine value ++ first) :: later := by
    rw [pairLines_append]
    exact congrArg (List.append _) last
  rw [deliveredLines, append_assoc, append_assoc, pairLines_append, announced,
    nil_append]
  dsimp only
  rw [← rest]
  exact congrArg Prod.fst (pairLines_end (by decide) (literalHead value) (value ++ text))

lemma plain_facts (c : UInt8) : isPlainChar c = true →
    c ≠ 0 ∧ c ≠ 0x0D ∧ c ≠ 0x0A ∧ c ≠ 0x28 ∧ c ≠ 0x29 ∧ c ≠ 0x7B ∧ c ≠ 0x22 := by
  revert c
  apply forall_byte
  decide +kernel

lemma not_mem_quoted {value : List UInt8} (absent : c ∉ value) (notQuote : c ≠ 0x22)
    (notBackslash : c ≠ 0x5C) : c ∉ 0x22 :: (value.flatMap escapeChar ++ [0x22]) := by
  have escaped := noNull_escape notBackslash absent
  simp only [mem_cons, mem_append, not_mem_nil, or_false, not_or]
  exact ⟨notQuote, escaped, notQuote⟩

namespace Piece

/-- The pieces that stand in one line. -/
def OneLine : Piece → Prop
  | .literal .. => False
  | _ => True

lemma unbroken {piece : Piece} (oneLine : piece.OneLine) : 0x0D ∉ piece.send := by
  cases piece with
  | opening => decide
  | closing => decide
  | plain c isPlain =>
    intro mem
    exact (plain_facts c isPlain).2.1 (mem_singleton.mp mem).symm
  | quoted value inLine => exact not_mem_quoted inLine.2.1 (by decide) (by decide)
  | literal value noNull short => exact oneLine.elim

lemma noNull_send (piece : Piece) : 0 ∉ piece.send := by
  cases piece with
  | opening => decide
  | closing => decide
  | plain c isPlain =>
    intro mem
    exact (plain_facts c isPlain).1 (mem_singleton.mp mem).symm
  | quoted value oneLine => exact not_mem_quoted oneLine.1 (by decide) (by decide)
  | literal value noNull short =>
    have head := @not_mem_literalHead 0 (by decide) (by decide) (by decide) value
    simp only [send, mem_append, not_or]
    exact ⟨⟨head, by decide⟩, noNull⟩

/-- No piece starts with a line feed. -/
theorem exists_send (piece : Piece) : ∃ c others, piece.send = c :: others ∧ c ≠ 0x0A := by
  cases piece with
  | opening | closing | quoted value oneLine | literal value noNull short =>
    exact ⟨_, _, rfl, by decide⟩
  | plain c isPlain => exact ⟨_, _, rfl, (plain_facts c isPlain).2.2.1⟩

end Piece

section Remaining

variable {pieces : List Piece}

lemma remaining_cons (piece) (pieces) (rest) :
    remaining (piece :: pieces) rest = piece.send ++ remaining pieces rest := by
  rw [remaining, sendAll, flatMap_cons, append_assoc]
  rfl

lemma noNull_remaining (pieces) (rest) : 0 ∉ remaining pieces rest := by
  intro mem
  rcases mem_append.mp mem with inPieces | inRest
  · obtain ⟨piece, -, inPiece⟩ := mem_flatMap.mp inPieces
    exact piece.noNull_send inPiece
  · exact rest.noNull inRest

lemma exists_remaining (pieces) (rest) :
    ∃ first later, deliveredLines (remaining pieces rest) = first :: later := by
  obtain ⟨before, ends⟩ := rest.ends
  have split : remaining pieces rest = (sendAll pieces ++ before) ++ [0x0D, 0x0A] := by
    rw [remaining, ends, crlf, append_assoc]
  rw [split]
  obtain ⟨complete, later, lines, -⟩ := @exists_pairLines _ _ (0x0D : UInt8) 0x0A (by decide)
    (sendAll pieces ++ before)
  exact ⟨complete, later, lines⟩

lemma noNull_line (lines : deliveredLines (remaining pieces rest) = first :: later) :
    0 ∉ first :=
  noNull_of_deliveredLines (noNull_remaining pieces rest) (lines ▸ mem_cons_self)

lemma deliveredLines_piece (piece) (oneLine : piece.OneLine)
    (lines : deliveredLines (remaining pieces rest) = first :: later) :
    deliveredLines (remaining (piece :: pieces) rest) = (piece.send ++ first) :: later := by
  rw [remaining_cons]
  exact deliveredLines_unbroken (Piece.unbroken oneLine) lines

lemma deliveredLines_literalPiece {value : List UInt8} {noNull : 0 ∉ value}
    {short : value.length < 2 ^ 32} (nonempty : pieces ≠ [])
    (lines : deliveredLines (remaining pieces rest) = first :: later) :
    deliveredLines (remaining (.literal value noNull short :: pieces) rest) =
      (literalHead value ++ crlf) ::
        ((pairLines 0x0D 0x0A [] value).1 ++ (lastLine value ++ first) :: later) := by
  rw [remaining_cons]
  apply deliveredLines_announced _ lines
  obtain ⟨next, others, rfl⟩ := exists_cons_of_ne_nil nonempty
  obtain ⟨c, tail, sends, notFeed⟩ := next.exists_send
  rw [remaining_cons, sends]
  exact fun same => notFeed (Option.some.inj same)

lemma Closes.ne_nil (closes : Closes (depth + 1) pieces) : pieces ≠ [] := by
  rintro rfl
  exact closes

lemma Closes.eq_nil (closes : Closes 0 pieces) : pieces = [] := by
  cases pieces with
  | nil => rfl
  | cons piece pieces => exact closes

/-- Before the last paren there is something to see in a line. -/
theorem exists_visible (closes : Closes (depth + 1) pieces)
    (lines : deliveredLines (remaining pieces rest) = first :: later) :
    ∃ c ∈ first, isWhitespace c = false := by
  induction pieces generalizing depth first later with
  | nil => exact closes.elim
  | cons piece pieces ih =>
    obtain ⟨next, others, nextLines⟩ := exists_remaining pieces rest
    cases piece with
    | opening =>
      rw [deliveredLines_piece .opening trivial nextLines] at lines
      cases lines
      exact ⟨0x28, mem_cons_self, by decide⟩
    | closing =>
      rw [deliveredLines_piece .closing trivial nextLines] at lines
      cases lines
      exact ⟨0x29, mem_cons_self, by decide⟩
    | plain c isPlain =>
      rw [deliveredLines_piece (.plain c isPlain) trivial nextLines] at lines
      cases lines
      obtain ⟨d, mem, visible⟩ := ih closes nextLines
      exact ⟨d, mem_append_right _ mem, visible⟩
    | quoted value oneLine =>
      rw [deliveredLines_piece (.quoted value oneLine) trivial nextLines] at lines
      cases lines
      exact ⟨0x22, mem_cons_self, by decide⟩
    | literal value noNull short =>
      have nonempty : pieces ≠ [] := @Closes.ne_nil pieces depth closes
      rw [deliveredLines_literalPiece nonempty nextLines] at lines
      cases lines
      exact ⟨0x7B, mem_cons_self, by decide⟩

end Remaining

namespace GenericParser

/-- The loop of `CreateParenGroup` has read a text and stands before the pieces. -/
def HasRead (parser : GenericParser) (copy : ParenCopy) (read : List UInt8) (pieces : List Piece)
    (rest : ResponseEnd) (following : List (List UInt8)) : Prop :=
  ∃ copied first later, deliveredLines (remaining pieces rest) = first :: later ∧
    parser.StandsIn copied first (later ++ following) ∧ copy.parenGroupStart ≤ copied.length ∧
    0 ∉ copied.drop copy.parenGroupStart ∧
    copy.returnString ++ copied.drop copy.parenGroupStart = read

variable {parser : GenericParser} {first : List UInt8} {lines : List (List UInt8)}

lemma StandsIn.step (stands : parser.StandsIn copied (c :: others) lines) :
    ({ parser with fCurrentTokenPlaceHolder := some (copied.length + 1) } :
      GenericParser).StandsIn (copied ++ [c]) others lines := by
  obtain ⟨before, same, current⟩ := stands.current
  refine ⟨stands.lines, stands.ok, stands.inLine,
    fun mem => stands.noNull (mem_cons_of_mem _ mem), ⟨before ++ [c], ?_, ?_⟩, ?_, ?_,
    ?_⟩
  · rw [length_append, length_append, same]
  · rw [append_assoc]
    exact current
  · rw [append_assoc]
    exact stands.copy
  · rw [length_append, length_singleton]
  · rw [length_append]
    exact stands.starting.trans (Nat.le_add_right _ _)

/-- The text that the place holder points to. -/
theorem StandsIn.cString (stands : parser.StandsIn copied first lines) :
    Imap.cString (copied ++ first) copied.length = first :=
  cString_append stands.noNull

section HasRead

variable {copy : ParenCopy} {read : List UInt8}

/-- A character that starts no string. -/
theorem HasRead.char (sends : piece.send = [c]) (oneLine : piece.OneLine) (notBrace : c ≠ 0x7B)
    (notQuote : c ≠ 0x22) (hasRead : parser.HasRead copy read (piece :: pieces) rest following) :
    ∃ next, next.HasRead copy (read ++ piece.send) pieces rest following ∧
      ∀ fuel, parenLoop (fuel + 1) parser copy =
        if c = 0x28 then
          parenLoop fuel next { copy with numOpenParens := copy.numOpenParens + 1 }
        else if c = 0x29 then
          if copy.numOpenParens - 1 = 0 then
            some (next, { copy with numOpenParens := copy.numOpenParens - 1 })
          else parenLoop fuel next { copy with numOpenParens := copy.numOpenParens - 1 }
        else parenLoop fuel next copy := by
  obtain ⟨copied, first, later, lines, stands, inside, noNull, isRead⟩ := hasRead
  obtain ⟨next, others, nextLines⟩ := exists_remaining pieces rest
  rw [deliveredLines_piece piece oneLine nextLines, sends] at lines
  cases lines
  refine ⟨_, ⟨copied ++ [c], next, later, nextLines, stands.step, ?_, ?_, ?_⟩, ?_⟩
  · rw [length_append]
    exact inside.trans (Nat.le_add_right _ _)
  · rw [drop_append_of_le_length inside]
    exact fun mem => (mem_append.mp mem).elim noNull
      (sends ▸ piece.noNull_send)
  · rw [drop_append_of_le_length inside, ← append_assoc, isRead, sends]
  · intro fuel
    rw [parenLoop, stands.copy, stands.place]
    dsimp only
    rw [stands.cString]
    dsimp only [singleton_append]
    rw [if_neg notBrace, if_neg notQuote]

lemma isToken_of_line (starts : isWhitespace c = false) (line : first.head? = some c)
    (feeds : ∃ before, first = before ++ [0x0A]) :
    ∃ token separator after, first = token ++ separator :: after ∧ Token [] token separator := by
  obtain ⟨others, rfl⟩ := head?_eq_some_iff.mp line
  obtain ⟨before, split⟩ := feeds
  have blank : ∃ d ∈ others, isWhitespace d = true := by
    cases before with
    | nil =>
      rw [nil_append] at split
      cases split
      exact absurd starts (by decide)
    | cons d before =>
      obtain ⟨-, rfl⟩ := List.cons.inj split
      exact ⟨0x0A, mem_append_right _ mem_cons_self, by decide⟩
  exact exists_token starts blank

lemma line_feeds {text first : List UInt8} (lines : deliveredLines text = first :: later) :
    ∃ before, first = before ++ [0x0A] :=
  pairLines_concat (lines ▸ mem_cons_self : first ∈ deliveredLines text)

lemma line_feeds_behind {text blanks first : List UInt8}
    (lines : deliveredLines text = (blanks ++ first) :: later) {p : UInt8 → Prop}
    (some_ : ∃ c ∈ first, p c) : ∃ before, first = before ++ [0x0A] := by
  obtain ⟨c, mem, -⟩ := some_
  obtain ⟨before, feeds⟩ := line_feeds lines
  rcases eq_nil_or_concat first with rfl | ⟨front, last, rfl⟩
  · cases mem
  · rw [concat_eq_append, ← append_assoc] at feeds
    exact ⟨front, by rw [concat_eq_append, (append_inj' feeds rfl).2]⟩

variable {value : List UInt8}

lemma HasRead.quoted
    (hasRead : parser.HasRead copy read (.quoted value oneLine :: pieces) rest following) :
    ∃ next, next.HasRead copy (read ++ Piece.send (.quoted value oneLine)) pieces rest following ∧
      ∀ fuel, parenLoop (fuel + 1) parser copy = parenLoop fuel next copy := by
  obtain ⟨copied, first, later, lines, stands, inside, noNull, isRead⟩ := hasRead
  obtain ⟨next, others, nextLines⟩ := exists_remaining pieces rest
  have feeds := line_feeds lines
  rw [deliveredLines_piece (.quoted value oneLine) trivial nextLines] at lines
  cases lines
  obtain ⟨token, separator, after, split, isToken⟩ := @isToken_of_line _ 0x22 (by decide) rfl feeds
  rw [split] at stands
  obtain ⟨atWord, nextToken⟩ := stands.atWord isToken
  obtain ⟨behind, created, standsBehind⟩ := atWord.createQuoted nextToken split.symm
  refine ⟨behind, ⟨_, next, later, nextLines, standsBehind, ?_, ?_, ?_⟩, ?_⟩
  · rw [length_append]
    exact inside.trans (Nat.le_add_right _ _)
  · rw [drop_append_of_le_length inside]
    exact fun mem => (mem_append.mp mem).elim noNull
      (Piece.noNull_send (.quoted value oneLine))
  · rw [drop_append_of_le_length inside, ← append_assoc, isRead]
    rfl
  · intro fuel
    rw [parenLoop, stands.copy, stands.place]
    dsimp only
    rw [stands.cString, ← split]
    dsimp only [Piece.send, cons_append]
    rw [if_neg (by decide), if_pos rfl, if_pos atWord.ok, created]
    simp only [bind_eq_bind, bind_some, isSome_some, standsBehind.ok,
      Bool.and_self, if_true]

lemma token_literalHead (value) : Token [] (literalHead value) 0x0D := by
  refine ⟨nofun, ?_, cons_ne_nil _ _, by decide⟩
  intro c mem
  by_contra isBlank
  rcases isWhitespace_iff.mp (Bool.eq_true_of_not_eq_false isBlank) with rfl | rfl | rfl
  · exact not_mem_literalHead (by decide) (by decide) (by decide) _ mem
  · exact not_mem_literalHead (by decide) (by decide) (by decide) _ mem
  · exact not_mem_literalHead (by decide) (by decide) (by decide) _ mem

lemma HasRead.announced (nonempty : pieces ≠ [])
    (hasRead : parser.HasRead copy read (.literal value noNull short :: pieces) rest following) :
    ∃ copied next later, deliveredLines (remaining pieces rest) = next :: later ∧
      parser.advanceToNextToken.AtWord copied (literalHead value) 0x0D [0x0A]
        ((pairLines 0x0D 0x0A [] value).1 ++ (lastLine value ++ next) :: (later ++ following)) ∧
      parser.advanceToNextToken.fNextToken = .at copied.length ∧
      ∀ fuel, parenLoop (fuel + 1) parser copy =
        parser.advanceToNextToken.createLiteral.bind fun (lit, behind) =>
          match lit with
          | none => some (behind, { copy with returnString := read ++ (literalHead value ++ crlf) })
          | some lit =>
            if behind.continueParse then
              behind.fCurrentTokenPlaceHolder.bind fun place =>
                parenLoop fuel behind
                  { copy with
                    returnString := read ++ (literalHead value ++ crlf) ++ cString lit 0
                    parenGroupStart := place }
            else some (behind, { copy with
              returnString := read ++ (literalHead value ++ crlf) ++ cString lit 0 }) := by
  obtain ⟨copied, first, later, lines, stands, inside, noNullRead, isRead⟩ := hasRead
  obtain ⟨next, others, nextLines⟩ := exists_remaining pieces rest
  rw [deliveredLines_literalPiece nonempty nextLines] at lines
  cases lines
  obtain ⟨atWord, nextToken⟩ := StandsIn.atWord (token_literalHead value) stands
  refine ⟨copied, next, others, nextLines, ?_, nextToken, ?_⟩
  · rw [append_assoc] at atWord
    exact atWord
  · intro fuel
    have copiedText : cString (copied ++ (literalHead value ++ crlf)) copy.parenGroupStart =
        copied.drop copy.parenGroupStart ++ (literalHead value ++ crlf) := by
      rw [cString, drop_append_of_le_length inside, takeWhile_eq_self_iff]
      intro c mem
      apply bne_iff_ne.mpr
      rintro rfl
      exact (mem_append.mp mem).elim noNullRead stands.noNull
    rw [parenLoop, stands.copy, stands.place]
    dsimp only
    rw [stands.cString, copiedText, ← append_assoc, isRead]
    dsimp only [literalHead, cons_append]
    rw [if_pos rfl, if_pos atWord.ok]
    rfl

/-- What the parser needs to stand behind a literal. -/
theorem line_behind {value next : List UInt8} (noNull : 0 ∉ value)
    (closes : Closes (depth + 1) pieces)
    (lines : deliveredLines (remaining pieces rest) = next :: later) :
    next ≠ [] ∧ (∃ before, lastLine value ++ next = before ++ [0x0A]) ∧
      0 ∉ lastLine value ++ next ∧ ∃ c ∈ lastLine value ++ next, isWhitespace c = false := by
  obtain ⟨c, mem, visible⟩ := exists_visible closes lines
  obtain ⟨before, feeds⟩ := line_feeds lines
  refine ⟨ne_nil_of_mem mem, ⟨lastLine value ++ before, ?_⟩, ?_,
    ⟨c, mem_append_right _ mem, visible⟩⟩
  · rw [feeds, append_assoc]
  · intro isNull
    exact (mem_append.mp isNull).elim (noNull_lastLine noNull) (noNull_line lines)

lemma copy_of_nextToken
    (connected : (if parser.stateDisconnected = true then parser
      else parser.copyLine.nextToken).stateDisconnected = false) :
    (if parser.stateDisconnected = true then parser
      else parser.copyLine.nextToken).fStartOfLineOfTokens ≠ none := by
  by_cases disconnected : parser.stateDisconnected = true
  · rw [if_pos disconnected, disconnected] at connected
    cases connected
  · rw [if_neg disconnected]
    exact some_ne_none _

lemma copy_of_advanceToNextToken
    (connected : parser.advanceToNextToken.stateDisconnected = false) :
    parser.advanceToNextToken.fStartOfLineOfTokens ≠ none := by
  rw [GenericParser.advanceToNextToken] at connected ⊢
  exact copy_of_nextToken connected

/-- The tokenizer is set up wherever the starting point was moved. -/
theorem copy_of_stands {text : List UInt8} {lines : List (List UInt8)}
    (stands : (parser.advanceTokenizerStartingPoint bytesToAdvance).Stands text lines) :
    (parser.advanceTokenizerStartingPoint bytesToAdvance).fStartOfLineOfTokens ≠ none := by
  have connected := connected_of_ok stands.ok
  rw [advanceTokenizerStartingPoint] at connected ⊢
  by_cases fresh : parser.fStartOfLineOfTokens.isNone = true
  · rw [if_pos fresh] at connected ⊢
    by_cases again : parser.advanceToNextToken.fStartOfLineOfTokens.isNone = true
    · rw [if_pos again] at connected ⊢
      exact copy_of_advanceToNextToken connected
    · rw [if_neg again]
      exact some_ne_none _
  · rw [if_neg fresh, if_neg fresh]
    exact some_ne_none _

lemma HasRead.literal (fits : Piece.Fits (.literal value noNull short))
    (closes : Closes (depth + 1) pieces)
    (hasRead : parser.HasRead copy read (.literal value noNull short :: pieces) rest following) :
    ∃ next copy', next.HasRead copy' (read ++ Piece.send (.literal value noNull short)) pieces rest
        following ∧ copy'.numOpenParens = copy.numOpenParens ∧
      ∀ fuel, parenLoop (fuel + 1) parser copy = parenLoop fuel next copy' := by
  obtain ⟨copied, next, later, nextLines, atWord, nextToken, unfolded⟩ :=
    hasRead.announced closes.ne_nil
  obtain ⟨nonempty, feeds, noNullLine, visible⟩ := line_behind noNull closes nextLines
  obtain ⟨behind, copyOf, isCopied, created⟩ := atWord.createLiteral nextToken noNull fits.1
    (noNull_line nextLines) nonempty
  obtain ⟨c, others, rfl⟩ := exists_cons_of_ne_nil nonempty
  have stands := isCopied.stands feeds noNullLine visible
  have odd := (isCopied.part fits.2).2.2.2.2.2
  have moved : behind.behindLiteral copyOf =
      behind.advanceTokenizerStartingPoint copyOf.bytesToCopy := by
    rw [behindLiteral, if_pos isCopied.ok, if_neg odd]
  rw [moved] at stands created
  obtain ⟨copied', standsIn⟩ := stands.standsIn (copy_of_stands stands)
  refine ⟨_, { copy with
    returnString := read ++ (literalHead value ++ crlf) ++ value
    parenGroupStart := copied'.length }, ⟨copied', c :: others, later, nextLines, standsIn,
      Nat.le_refl _, ?_, ?_⟩, rfl, ?_⟩
  · rw [drop_length]
    exact not_mem_nil
  · rw [drop_length, append_nil, append_assoc]
    rfl
  · intro fuel
    rw [unfolded, created, bind_some]
    dsimp only
    rw [if_pos stands.ok, standsIn.place, bind_some, cString_zero noNull]

lemma parenLoop_freed (fresh : parser.fStartOfLineOfTokens = none) (copy) (fuel : Nat) :
    parenLoop fuel parser copy = none := by
  cases fuel with
  | zero => rfl
  | succ fuel => rw [parenLoop, fresh]

lemma freed_nextLine (parser : GenericParser) :
    parser.advanceToNextLine.fStartOfLineOfTokens = none := by
  rw [GenericParser.advanceToNextLine]
  split
  · rfl
  · rfl

lemma atoi_unsigned {number : Nat} (large : 2 ^ 31 ≤ number) (short : number < 2 ^ 32) :
    atoi (showDecimal number ++ [0x7D]) < 0 := by
  rw [atoi_showDecimal]
  have least : (min (2 ^ 63 - 1) number : Int) = number := by omega
  rw [least, Int.bmod]
  omega

lemma AtWord.createLiteral_unfit {value next : List UInt8} {noNull : 0 ∉ value}
    {short : value.length < 2 ^ 32} (unfit : ¬ Piece.Fits (.literal value noNull short)) (atWord :
      parser.AtWord copied (literalHead value) 0x0D [0x0A] ((pairLines 0x0D 0x0A [] value).1 ++
      (lastLine value ++ next) :: lines)) (nextToken : parser.fNextToken = .at copied.length)
    (noNullNext : 0 ∉ next) (nonempty : next ≠ []) {behind : GenericParser}
    (created : parser.createLiteral = some (lit, behind)) :
    lit = none ∨ behind.fStartOfLineOfTokens = none := by
  by_cases small : value.length < 2 ^ 31
  · obtain ⟨inside, copyOf, isCopied, isCreated⟩ :=
      atWord.createLiteral nextToken noNull small noNullNext nonempty
    have whole : lastLine value = [] := by
      by_contra some_
      exact unfit ⟨small, some_⟩
    rw [isCreated] at created
    cases created
    rw [behindLiteral, if_pos isCopied.ok, if_pos (isCopied.whole whole).2]
    exact .inr (freed_nextLine _)
  · have negative := atoi_unsigned (Nat.le_of_not_lt small) short
    have tail : (literalHead value).tail = showDecimal value.length ++ [0x7D] := rfl
    rw [GenericParser.createLiteral, atWord.tokenText nextToken, bind_some, tail] at created
    dsimp only at created
    split at created
    · cases created
      exact .inl rfl
    · have done : atoi (showDecimal value.length ++ [0x7D]) ≤
          ((⟨[], 0, 0⟩ : LiteralCopy).returnString.length : Int) := negative.le
      rw [literalLoop_done done, map_some] at created
      cases created
      rw [behindLiteral, if_pos atWord.ok, if_pos rfl]
      exact .inr (freed_nextLine _)

lemma HasRead.literal_unfit (unfit : ¬ Piece.Fits (.literal value noNull short))
    (closes : Closes (depth + 1) pieces)
    (hasRead : parser.HasRead copy read (.literal value noNull short :: pieces) rest following)
    {fuel : Nat} {last : GenericParser} (ran : parenLoop fuel parser copy = some (last, copy')) :
    copy'.numOpenParens = copy.numOpenParens := by
  cases fuel with
  | zero => cases ran
  | succ fuel =>
    obtain ⟨copied, next, later, nextLines, atWord, nextToken, unfolded⟩ :=
      hasRead.announced closes.ne_nil
    rw [unfolded] at ran
    obtain ⟨⟨lit, behind⟩, created, goesOn⟩ := bind_eq_some_iff.mp ran
    have freed := atWord.createLiteral_unfit unfit nextToken (noNull_line nextLines)
      (line_behind noNull closes nextLines).1 created
    cases lit with
    | none =>
      cases goesOn
      rfl
    | some lit =>
      have fresh := freed.resolve_left (some_ne_none lit)
      dsimp only at goesOn
      split at goesOn
      · obtain ⟨place, -, goesOn⟩ := bind_eq_some_iff.mp goesOn
        rw [parenLoop_freed fresh] at goesOn
        cases goesOn
      · cases goesOn
        rfl

/-- The first paren of a group or one inside it. -/
theorem HasRead.opening (hasRead : parser.HasRead copy read (.opening :: pieces) rest following) :
    ∃ next, next.HasRead copy (read ++ [0x28]) pieces rest following ∧
      ∀ fuel, parenLoop (fuel + 1) parser copy =
        parenLoop fuel next { copy with numOpenParens := copy.numOpenParens + 1 } := by
  have oneLine : Piece.opening.OneLine := trivial
  obtain ⟨next, nextRead, unfolded⟩ := HasRead.char rfl oneLine (by decide) (by decide) hasRead
  refine ⟨next, nextRead, fun fuel => ?_⟩
  rw [unfolded, if_pos rfl]

lemma HasRead.closing (hasRead : parser.HasRead copy read (.closing :: pieces) rest following) :
    ∃ next, next.HasRead copy (read ++ [0x29]) pieces rest following ∧
      ∀ fuel, parenLoop (fuel + 1) parser copy =
        if copy.numOpenParens - 1 = 0 then
          some (next, { copy with numOpenParens := copy.numOpenParens - 1 })
        else parenLoop fuel next { copy with numOpenParens := copy.numOpenParens - 1 } := by
  have oneLine : Piece.closing.OneLine := trivial
  obtain ⟨next, nextRead, unfolded⟩ := HasRead.char rfl oneLine (by decide) (by decide) hasRead
  refine ⟨next, nextRead, fun fuel => ?_⟩
  rw [unfolded, if_neg (by decide), if_pos rfl]

lemma HasRead.step (fits : piece.Fits) (parens : copy.numOpenParens = (depth + 1 : Nat))
    (closes : Closes (depth + 1) (piece :: pieces))
    (hasRead : parser.HasRead copy read (piece :: pieces) rest following) :
    ∃ (next : GenericParser) (copy' : ParenCopy) (depth' : Nat),
      next.HasRead copy' (read ++ piece.send) pieces rest following ∧
      copy'.numOpenParens = depth' ∧ Closes depth' pieces ∧
      ∀ fuel, parenLoop (fuel + 1) parser copy =
        if depth' = 0 then some (next, copy') else parenLoop fuel next copy' := by
  cases piece with
  | opening =>
    obtain ⟨next, nextRead, unfolded⟩ := hasRead.opening
    refine ⟨next, { copy with numOpenParens := copy.numOpenParens + 1 }, depth + 2, nextRead, ?_,
      closes, fun fuel => ?_⟩
    · change copy.numOpenParens + 1 = _
      omega
    · rw [unfolded, if_neg (Nat.succ_ne_zero _)]
  | closing =>
    obtain ⟨next, nextRead, unfolded⟩ := hasRead.closing
    refine ⟨next, { copy with numOpenParens := copy.numOpenParens - 1 }, depth, nextRead, ?_,
      closes, fun fuel => ?_⟩
    · change copy.numOpenParens - 1 = _
      omega
    · have same : copy.numOpenParens - 1 = 0 ↔ depth = 0 := by omega
      rw [unfolded]
      exact if_congr same rfl rfl
  | plain c isPlain =>
    obtain ⟨-, -, -, notOpening, notClosing, notBrace, notQuote⟩ := plain_facts c isPlain
    have oneLine : (Piece.plain c isPlain).OneLine := trivial
    obtain ⟨next, nextRead, unfolded⟩ := HasRead.char rfl oneLine notBrace notQuote hasRead
    refine ⟨next, copy, depth + 1, nextRead, parens, closes, fun fuel => ?_⟩
    rw [unfolded, if_neg notOpening, if_neg notClosing, if_neg (Nat.succ_ne_zero _)]
  | quoted value oneLine =>
    obtain ⟨next, nextRead, unfolded⟩ := hasRead.quoted
    refine ⟨next, copy, depth + 1, nextRead, parens, closes, fun fuel => ?_⟩
    rw [unfolded, if_neg (Nat.succ_ne_zero _)]
  | literal value noNull short =>
    have closesRest : Closes (depth + 1) pieces := closes
    obtain ⟨next, copy', nextRead, same, unfolded⟩ := hasRead.literal fits closesRest
    refine ⟨next, copy', depth + 1, nextRead, same.trans parens, closes, fun fuel => ?_⟩
    rw [unfolded, if_neg (Nat.succ_ne_zero _)]

lemma HasRead.run (fits : ∀ piece ∈ pieces, piece.Fits)
    (parens : copy.numOpenParens = (depth + 1 : Nat)) (closes : Closes (depth + 1) pieces)
    (hasRead : parser.HasRead copy read pieces rest following) (enough : pieces.length ≤ fuel) :
    ∃ next copy', parenLoop fuel parser copy = some (next, copy') ∧ copy'.numOpenParens = 0 ∧
      next.HasRead copy' (read ++ sendAll pieces) [] rest following := by
  induction pieces generalizing parser copy read depth fuel with
  | nil => exact closes.elim
  | cons piece pieces ih =>
    obtain ⟨fitsHere, fitsLater⟩ := forall_mem_cons.mp fits
    obtain ⟨next, copy', depth', nextRead, parens', closes', unfolded⟩ :=
      hasRead.step fitsHere parens closes
    obtain ⟨fuel, rfl⟩ := Nat.exists_eq_add_of_le' (Nat.le_of_add_left_le enough : 1 ≤ fuel)
    rw [unfolded, sendAll, flatMap_cons, ← append_assoc]
    cases depth' with
    | zero =>
      have done := closes'.eq_nil
      subst done
      refine ⟨next, copy', if_pos rfl, parens', ?_⟩
      rw [flatMap_nil, append_nil]
      exact nextRead
    | succ depth' =>
      rw [if_neg (Nat.succ_ne_zero _)]
      exact ih fitsLater parens' closes' nextRead (Nat.le_of_succ_le_succ enough)

lemma HasRead.run_unfit (unfit : ∃ piece ∈ pieces, ¬ piece.Fits)
    (parens : copy.numOpenParens = (depth + 1 : Nat)) (closes : Closes (depth + 1) pieces)
    (hasRead : parser.HasRead copy read pieces rest following) {last : GenericParser}
    (ran : parenLoop fuel parser copy = some (last, copy')) : copy'.numOpenParens ≠ 0 := by
  induction pieces generalizing parser copy read depth fuel with
  | nil => exact closes.elim
  | cons piece pieces ih =>
    by_cases fits : piece.Fits
    · obtain ⟨next, copyNext, depth', nextRead, parens', closes', unfolded⟩ :=
        hasRead.step fits parens closes
      have unfitLater : ∃ piece ∈ pieces, ¬ piece.Fits := by
        obtain ⟨other, mem, notFits⟩ := unfit
        rcases mem_cons.mp mem with rfl | inLater
        · exact absurd fits notFits
        · exact ⟨other, inLater, notFits⟩
      cases fuel with
      | zero => cases ran
      | succ fuel =>
        rw [unfolded] at ran
        cases depth' with
        | zero =>
          have done := closes'.eq_nil
          obtain ⟨other, mem, -⟩ := unfitLater
          exact absurd (done ▸ mem) not_mem_nil
        | succ depth' =>
          rw [if_neg (Nat.succ_ne_zero _)] at ran
          exact ih unfitLater parens' closes' nextRead ran
    · cases piece with
      | literal value noNull short =>
        have closesRest : Closes (depth + 1) pieces := closes
        rw [hasRead.literal_unfit fits closesRest ran, parens]
        omega
      | opening | closing | plain c isPlain | quoted value oneLine => exact absurd trivial fits

end HasRead

/-- The parser is at the next word of a text, or at the end of its first line if that is blank. -/
def NextIs (parser : GenericParser) (rest : ResponseEnd) (following : List (List UInt8)) : Prop :=
  ∃ first later, deliveredLines rest.text = first :: later ∧
    ((∃ blanks copied word separator after, first = blanks ++ (word ++ separator :: after) ∧
        (∀ c ∈ blanks, isWhitespace c = true) ∧ word ≠ [] ∧
        parser.AtWord copied word separator after (later ++ following) ∧
        parser.fNextToken = .at copied.length) ∨
      (∀ c ∈ first, isWhitespace c = true) ∧ parser.AtEnd (later ++ following))

lemma Stands.nextIs {rest : ResponseEnd} {blanks first : List UInt8}
    {later following : List (List UInt8)}
    (lines : deliveredLines rest.text = (blanks ++ first) :: later)
    (blank : ∀ c ∈ blanks, isWhitespace c = true)
    (stands : parser.Stands first (later ++ following)) :
    parser.advanceToNextToken.NextIs rest following := by
  refine ⟨_, later, lines, ?_⟩
  by_cases allBlank : ∀ c ∈ first, isWhitespace c = true
  · exact .inr ⟨fun c mem => (mem_append.mp mem).elim (blank c) (allBlank c),
      stands.atEnd allBlank⟩
  · have visible : ∃ c ∈ first, isWhitespace c = false := by
      simpa only [not_forall, exists_prop, Bool.not_eq_true] using allBlank
    obtain ⟨more, token, separator, after, split, isToken⟩ :=
      exists_token_of_line (line_feeds_behind lines visible) visible
    rw [split] at stands
    obtain ⟨text, atToken, -⟩ := Stands.atToken isToken stands
    obtain ⟨copied, atWord, next⟩ := atToken.atWord
    refine .inl ⟨blanks ++ more, copied, token, separator, after, ?_, ?_, isToken.some, atWord,
      next⟩
    · rw [split, append_assoc]
    · exact fun c mem => (mem_append.mp mem).elim (blank c) (isToken.blank c)

variable {word after : List UInt8}

/-- The parser is at the first paren of a group, with the rest of the response behind the group. -/
def AtGroup (parser : GenericParser) (group : ParenGroup) (rest : ResponseEnd)
    (following : List (List UInt8)) : Prop :=
  ∃ copied word separator after later,
    deliveredLines (group.send ++ rest.text) = (word ++ separator :: after) :: later ∧
    parser.AtWord copied word separator after (later ++ following) ∧
    parser.fNextToken = .at copied.length

/-- The group is copied out, and the parser is behind it. -/
def Copies (parser : GenericParser) (group : ParenGroup) (rest : ResponseEnd)
    (following : List (List UInt8)) : Prop :=
  ∃ fuel after, parser.createParenGroup fuel = some (some group.send, after) ∧
    after.NextIs rest following

lemma AtGroup.hasRead (atGroup : parser.AtGroup group rest following) :
    ∃ place,
      (parser.advanceTokenizerStartingPoint parser.tokenDistance).fCurrentTokenPlaceHolder =
        some place ∧
      (parser.advanceTokenizerStartingPoint parser.tokenDistance).HasRead ⟨0, [], place⟩ []
        (.opening :: group.pieces) rest following := by
  obtain ⟨copied, word, separator, after, later, lines, atWord, next⟩ := atGroup
  have distance := atWord.tokenDistance next
  have split : word ++ separator :: after = [] ++ (word ++ separator :: after) := rfl
  have stands := atWord.startingPoint split distance
  rw [append_nil] at stands
  refine ⟨copied.length, stands.place, copied, _, later, lines, stands, Nat.le_refl _, ?_, ?_⟩
  · rw [drop_length]
    exact not_mem_nil
  · rw [drop_length]
    rfl

/-- The group is copied out up to its last paren exactly if its literals fit. -/
theorem AtGroup.copies_iff (atGroup : parser.AtGroup group rest following) :
    parser.Copies group rest following ↔ ∀ piece ∈ group.pieces, piece.Fits := by
  obtain ⟨place, isPlace, hasRead⟩ := atGroup.hasRead
  obtain ⟨inside, read, unfolded⟩ := hasRead.opening
  have insideRead : inside.HasRead ⟨1, [], place⟩ [0x28] group.pieces rest following := read
  have entered (fuel : Nat) : parenLoop (fuel + 1)
      (parser.advanceTokenizerStartingPoint parser.tokenDistance) ⟨0, [], place⟩ =
        parenLoop fuel inside ⟨1, [], place⟩ := unfolded fuel
  have parens : (⟨1, [], place⟩ : ParenCopy).numOpenParens = (0 + 1 : Nat) := rfl
  constructor
  · rintro ⟨fuel, after, created, -⟩
    by_contra notAll
    have unfit : ∃ piece ∈ group.pieces, ¬ piece.Fits := by
      simpa only [not_forall, exists_prop] using notAll
    rw [createParenGroup, isPlace] at created
    dsimp only [bind_eq_bind, bind_some] at created
    obtain ⟨⟨last, copy⟩, ran, goesOn⟩ := bind_eq_some_iff.mp created
    cases fuel with
    | zero => cases ran
    | succ fuel =>
      rw [entered] at ran
      have isOpen := insideRead.run_unfit unfit parens group.closes ran
      rw [if_pos (.inl isOpen)] at goesOn
      cases goesOn
  · intro fits
    obtain ⟨last, copy, ran, closed, lastRead⟩ :=
      insideRead.run fits parens group.closes (Nat.le_refl _)
    obtain ⟨copied, first, later, lines, stands, isInside, -, isRead⟩ := lastRead
    have nothing : ∀ c ∈ ([] : List UInt8), isWhitespace c = true := nofun
    have next := Stands.nextIs lines nothing stands.stands
    have lastPart : ((copied ++ first).drop copy.parenGroupStart).take
        (copied.length - copy.parenGroupStart) = copied.drop copy.parenGroupStart := by
      rw [drop_append_of_le_length isInside, ← length_drop, take_left]
    refine ⟨group.pieces.length + 1, last.advanceToNextToken, ?_, next⟩
    rw [createParenGroup, isPlace]
    dsimp only [bind_eq_bind, bind_some]
    rw [entered, ran]
    dsimp only [bind_some]
    rw [if_neg (by simp [closed, stands.ok]), stands.copy, stands.place]
    dsimp only [bind_some]
    rw [lastPart, isRead]
    rfl

end GenericParser

end CommCentral.Imap
