import CommCentral.Imap.ParenGroupScan

/-! Skipping to the close paren of a group, and where the two readers of a group meet. -/
namespace CommCentral.Imap

open Lib GenericParser List Option

namespace GenericParser

/-- The result of a scan that started further on. -/
def ParenScan.further (count : Nat) : ParenScan → ParenScan
  | .behind needed => .behind needed
  | .close skipped => .close (skipped + count)
  | .string skipped needed => .string (skipped + count) needed

lemma scanParens_further (count : Nat) (text) (needed skipped : Nat) :
    scanParens needed (skipped + count) text = (scanParens needed skipped text).further count := by
  induction text generalizing needed skipped with
  | nil => rfl
  | cons c rest ih =>
    simp only [scanParens, Nat.add_right_comm skipped count 1, ih]
    split_ifs
    · rfl
    · rfl
    · rfl
    · rfl
    · rfl

variable {parser : GenericParser} {copied word after : List UInt8} {lines : List (List UInt8)}

lemma skipInToken_add (parser : GenericParser) (first second : Nat) :
    (parser.skipInToken first).skipInToken second = parser.skipInToken (second + first) := by
  cases next : parser.fNextToken with
  | null | crlf => simp only [skipInToken, next]
  | «at» offset => simp only [skipInToken, next, Nat.add_assoc, Nat.add_comm first]

section AtWord

variable (atWord : parser.AtWord copied word separator after lines)
include atWord

lemma AtWord.skipInToken (skipped : Nat) :
    (parser.skipInToken skipped).AtWord copied word separator after lines :=
  ⟨atWord.lines, atWord.ok, atWord.inLine, atWord.visible, atWord.separates, atWord.noNull,
    atWord.current, atWord.copy, atWord.place, atWord.starting⟩

lemma AtWord.advance_skipInToken (skipped : Nat) :
    (parser.skipInToken skipped).advanceToNextToken = parser.advanceToNextToken := by
  have skippedWord := atWord.skipInToken skipped
  have kept : parser.copyLine = parser := by
    rw [GenericParser.copyLine, atWord.copy]
  have keptThere : (parser.skipInToken skipped).copyLine = parser.skipInToken skipped := by
    rw [GenericParser.copyLine, skippedWord.copy]
  rw [skippedWord.standsIn.stands.advanceToNextToken_eq,
    atWord.standsIn.stands.advanceToNextToken_eq, kept, keptThere]
  rfl

lemma AtWord.skipLoop_eq (next : parser.fNextToken = .at copied.length) (fuel needed : Nat) :
    skipLoop (fuel + 1) parser needed =
      (match scanParens needed 0 word with
      | .behind needed => skipLoop fuel parser.advanceToNextToken needed
      | .close skipped =>
        let parser := parser.skipInToken (skipped + 1)
        some (if parser.tokenText.getD [] = [] then parser.advanceToNextToken else parser)
      | .string skipped needed =>
        (parser.skipInToken skipped).createString.bind fun (_, parser) =>
          skipLoop fuel (if parser.continueParse then parser.advanceToNextToken else parser)
            needed) := by
  rw [skipLoop, if_pos atWord.ok, atWord.tokenText next]
  rfl

end AtWord

lemma AtWord.skipLoop_tail
    (scanned : scanParens needed 0 (c :: others) = scanParens needed' 1 others)
    (atWord : parser.AtWord copied (c :: others) separator after lines)
    (next : parser.fNextToken = .at copied.length) :
    (parser.skipInToken 1).AtWord (copied ++ [c]) others separator after lines ∧
      (parser.skipInToken 1).fNextToken = .at (copied ++ [c]).length ∧
      ∀ fuel, skipLoop (fuel + 1) parser needed =
        skipLoop (fuel + 1) (parser.skipInToken 1) needed' := by
  have tail := (atWord.tail rfl).skipInToken 1
  have nextTail : (parser.skipInToken 1).fNextToken = .at (copied ++ [c]).length := by
    rw [GenericParser.skipInToken, next, length_append, length_singleton]
  refine ⟨tail, nextTail, fun fuel => ?_⟩
  rw [atWord.skipLoop_eq next, tail.skipLoop_eq nextTail, scanned,
    ← Nat.zero_add 1, scanParens_further]
  cases scanParens needed' 0 others with
  | behind needed =>
    dsimp only [ParenScan.further]
    rw [atWord.advance_skipInToken]
  | close skipped =>
    dsimp only [ParenScan.further]
    rw [skipInToken_add, Nat.add_right_comm]
  | string skipped needed =>
    dsimp only [ParenScan.further]
    rw [skipInToken_add]

/-- The loop is at the pieces, of which the first blanks may have been passed. -/
def Within (parser : GenericParser) (pieces : List Piece) (rest : ResponseEnd)
    (following : List (List UInt8)) : Prop :=
  ∃ blanks copied word separator after later,
    deliveredLines (remaining pieces rest) = (blanks ++ (word ++ separator :: after)) :: later ∧
    (∀ c ∈ blanks, isWhitespace c = true) ∧
    parser.AtWord copied word separator after (later ++ following) ∧
    parser.fNextToken = .at copied.length

def SkipsTo (parser : GenericParser) (needed : Nat) (last : GenericParser) : Prop :=
  ∃ fuel, skipLoop fuel parser needed = some last

lemma word_starts {blanks text : List UInt8} (blank : ∀ d ∈ blanks, isWhitespace d = true)
    (separates : isWhitespace separator = true) (visible : isWhitespace c = false)
    (split : blanks ++ (word ++ separator :: after) = c :: text) :
    blanks = [] ∧ ∃ others, word = c :: others ∧ others ++ separator :: after = text := by
  cases blanks with
  | nil =>
    cases word with
    | nil =>
      obtain ⟨rfl, -⟩ := List.cons.inj split
      rw [visible] at separates
      cases separates
    | cons d others =>
      obtain ⟨rfl, tail⟩ := List.cons.inj split
      exact ⟨rfl, others, rfl, tail⟩
  | cons d blanks =>
    obtain ⟨rfl, -⟩ := List.cons.inj split
    have isBlank := blank d mem_cons_self
    rw [visible] at isBlank
    cases isBlank

section Within

lemma Stands.within (closes : Closes (depth + 1) pieces)
    (lines : deliveredLines (remaining pieces rest) = first :: later)
    (stands : parser.Stands first (later ++ following)) :
    parser.advanceToNextToken.Within pieces rest following := by
  obtain ⟨blanks, token, separator, after, split, isToken⟩ :=
    exists_token_of_line (line_feeds lines) (exists_visible closes lines)
  rw [split] at stands lines
  obtain ⟨text, atToken, -⟩ := Stands.atToken isToken stands
  obtain ⟨copied, atWord, next⟩ := atToken.atWord
  exact ⟨blanks, copied, token, separator, after, later, lines, isToken.blank, atWord, next⟩

lemma Within.starts {text : List UInt8} (sends : piece.send = c :: text) (oneLine : piece.OneLine)
    (visible : isWhitespace c = false) (within : parser.Within (piece :: pieces) rest following) :
    ∃ copied others separator after first later,
      deliveredLines (remaining pieces rest) = first :: later ∧
      others ++ separator :: after = text ++ first ∧
      parser.AtWord copied (c :: others) separator after (later ++ following) ∧
      parser.fNextToken = .at copied.length := by
  obtain ⟨blanks, copied, word, separator, after, later, lines, blank, atWord, next⟩ := within
  obtain ⟨first, others, nextLines⟩ := exists_remaining pieces rest
  rw [deliveredLines_piece piece oneLine nextLines, sends] at lines
  obtain ⟨sameLine, rfl⟩ := List.cons.inj lines
  obtain ⟨rfl, tail, rfl, split⟩ := word_starts blank atWord.separates visible sameLine.symm
  exact ⟨copied, tail, separator, after, first, others, nextLines, split, atWord, next⟩

lemma Within.paren (sends : piece.send = [c]) (oneLine : piece.OneLine)
    (visible : isWhitespace c = false)
    (scanned : ∀ others, scanParens needed 0 (c :: others) = scanParens needed' 1 others)
    (within : parser.Within (piece :: pieces) rest following) :
    ∃ next : GenericParser, next.Within pieces rest following ∧
      ∀ last, next.SkipsTo needed' last → parser.SkipsTo needed last := by
  obtain ⟨copied, others, separator, after, first, later, lines, split, atWord, next⟩ :=
    within.starts sends oneLine visible
  obtain ⟨tail, nextTail, unfolded⟩ := AtWord.skipLoop_tail (scanned others) atWord next
  rw [nil_append] at split
  rw [← split] at lines
  refine ⟨_, ⟨[], _, others, separator, after, later, lines, nofun, tail, nextTail⟩, ?_⟩
  rintro last ⟨fuel, ran⟩
  cases fuel with
  | zero => cases ran
  | succ fuel => exact ⟨fuel + 1, (unfolded fuel).trans ran⟩

lemma Within.close (within : parser.Within [.closing] rest following) :
    ∃ last, parser.SkipsTo 1 last ∧ last.NextIs rest following := by
  have oneLine : Piece.closing.OneLine := trivial
  obtain ⟨copied, others, separator, after, first, later, lines, split, atWord, next⟩ :=
    within.starts rfl oneLine (by decide)
  rw [nil_append] at split
  have tail := (atWord.tail rfl).skipInToken 1
  have nextTail : (parser.skipInToken 1).fNextToken = .at (copied ++ [0x29]).length := by
    rw [GenericParser.skipInToken, next, length_append, length_singleton]
  have scanned : scanParens 1 0 (0x29 :: others) = .close 0 := rfl
  have unfolded := atWord.skipLoop_eq next 0 1
  rw [scanned] at unfolded
  dsimp only at unfolded
  rw [tail.tokenText nextTail, getD_some, atWord.advance_skipInToken] at unfolded
  refine ⟨_, ⟨1, unfolded⟩, ?_⟩
  by_cases ended : others = []
  · subst ended
    rw [if_pos rfl]
    have isBlank : ∀ c ∈ [separator], isWhitespace c = true := by
      intro c mem
      rw [mem_singleton.mp mem]
      exact atWord.separates
    rw [← split] at lines
    exact @Stands.nextIs _ rest [separator] after later following lines isBlank
      atWord.standsIn.stands
  · rw [if_neg ended]
    exact ⟨first, later, lines, .inl ⟨[], _, others, separator, after, split.symm, nofun, ended,
      tail, nextTail⟩⟩

lemma Within.plain (needed : Nat) (closes : Closes (depth + 1) pieces)
    (within : parser.Within (.plain c isPlain :: pieces) rest following) :
    ∃ next : GenericParser, next.Within pieces rest following ∧
      ∀ last, next.SkipsTo needed last → parser.SkipsTo needed last := by
  have oneLine : (Piece.plain c isPlain).OneLine := trivial
  obtain ⟨-, -, -, notOpening, notClosing, notBrace, notQuote⟩ := plain_facts c isPlain
  obtain ⟨blanks, copied, word, separator, after, later, lines, blank, atWord, next⟩ := within
  obtain ⟨first, others, nextLines⟩ := exists_remaining pieces rest
  rw [deliveredLines_piece _ oneLine nextLines] at lines
  obtain ⟨sameLine, rfl⟩ := List.cons.inj lines
  cases blanks with
  | cons d blanks =>
    -- the blank was passed with the last token
    obtain ⟨-, rfl⟩ := List.cons.inj sameLine
    exact ⟨parser, ⟨blanks, copied, word, separator, after, others, nextLines,
      fun d mem => blank d (mem_cons_of_mem _ mem), atWord, next⟩, fun _ => id⟩
  | nil =>
    cases word with
    | nil =>
      obtain ⟨-, rfl⟩ := List.cons.inj sameLine
      refine ⟨_, atWord.standsIn.stands.within closes nextLines, ?_⟩
      rintro last ⟨fuel, ran⟩
      exact ⟨fuel + 1, (atWord.skipLoop_eq next fuel needed).trans ran⟩
    | cons d tail =>
      obtain ⟨rfl, rfl⟩ := List.cons.inj sameLine
      have scanned : scanParens needed 0 (c :: tail) = scanParens needed 1 tail := by
        rw [scanParens, if_neg notOpening, if_neg notClosing,
          if_neg (not_or_intro notBrace notQuote)]
      obtain ⟨atTail, nextTail, unfolded⟩ := AtWord.skipLoop_tail scanned atWord next
      refine ⟨_, ⟨[], _, tail, separator, after, others, nextLines, nofun, atTail, nextTail⟩, ?_⟩
      rintro last ⟨fuel, ran⟩
      cases fuel with
      | zero => cases ran
      | succ fuel => exact ⟨fuel + 1, (unfolded fuel).trans ran⟩

lemma AtWord.skipLoop_string {behind : GenericParser}
    (scanned : scanParens needed 0 (c :: others) = .string 0 needed)
    (atWord : parser.AtWord copied (c :: others) separator after lines)
    (next : parser.fNextToken = .at copied.length)
    (isCreated : parser.createString = some (created, behind)) (ok : behind.continueParse = true)
    {last : GenericParser} (goesOn : behind.advanceToNextToken.SkipsTo needed last) :
    parser.SkipsTo needed last := by
  obtain ⟨fuel, ran⟩ := goesOn
  have same : parser.skipInToken 0 = parser := by
    rw [GenericParser.skipInToken, next]
    dsimp only
    rw [Nat.add_zero, ← next]
  refine ⟨fuel + 1, ?_⟩
  rw [atWord.skipLoop_eq next, scanned]
  dsimp only
  rw [same, isCreated, bind_some]
  dsimp only
  rw [if_pos ok, ran]

variable {value : List UInt8}

lemma Within.quoted (needed : Nat) (closes : Closes (depth + 1) pieces)
    (within : parser.Within (.quoted value oneLine :: pieces) rest following) :
    ∃ next : GenericParser, next.Within pieces rest following ∧
      ∀ last, next.SkipsTo needed last → parser.SkipsTo needed last := by
  have inLine : (Piece.quoted value oneLine).OneLine := trivial
  obtain ⟨copied, others, separator, after, first, later, lines, split, atWord, next⟩ :=
    within.starts rfl inLine (by decide)
  have whole : 0x22 :: others ++ separator :: after =
      0x22 :: (value.flatMap escapeChar ++ [0x22]) ++ first := congrArg (List.cons 0x22) split
  obtain ⟨behind, created, stands⟩ := atWord.createQuoted next whole
  have isCreated : parser.createString = some (some value, behind) := by
    rw [createString, atWord.tokenText next, bind_some, head?_cons,
      if_neg (by decide), if_pos rfl, created]
  exact ⟨_, stands.stands.within closes lines, fun last goesOn =>
    atWord.skipLoop_string rfl next isCreated stands.ok goesOn⟩

lemma Within.announced (nonempty : pieces ≠ [])
    (within : parser.Within (.literal value noNull short :: pieces) rest following) :
    ∃ copied first later, deliveredLines (remaining pieces rest) = first :: later ∧
      parser.AtWord copied (literalHead value) 0x0D [0x0A]
        ((pairLines 0x0D 0x0A [] value).1 ++ (lastLine value ++ first) :: (later ++ following)) ∧
      parser.fNextToken = .at copied.length := by
  obtain ⟨blanks, copied, word, separator, after, later, lines, blank, atWord, next⟩ := within
  obtain ⟨first, others, nextLines⟩ := exists_remaining pieces rest
  rw [deliveredLines_literalPiece nonempty nextLines] at lines
  obtain ⟨sameLine, rfl⟩ := List.cons.inj lines
  obtain ⟨rfl, tail, rfl, -⟩ := word_starts blank atWord.separates (by decide) sameLine.symm
  have isWord : Token [] (0x7B :: tail) separator :=
    ⟨nofun, atWord.visible, cons_ne_nil _ _, atWord.separates⟩
  obtain ⟨sameWord, rfl, rfl⟩ := Token.unique (token_literalHead value) isWord sameLine
  rw [← sameWord, append_assoc] at atWord
  exact ⟨copied, first, others, nextLines, atWord, next⟩

lemma Within.literal (needed : Nat) (small : value.length < 2 ^ 31)
    (closes : Closes (depth + 1) pieces)
    (within : parser.Within (.literal value noNull short :: pieces) rest following) :
    ∃ next : GenericParser, next.Within pieces rest following ∧
      ∀ last, next.SkipsTo needed last → parser.SkipsTo needed last := by
  obtain ⟨copied, first, later, lines, atWord, next⟩ := within.announced closes.ne_nil
  obtain ⟨nonempty, feeds, noNullLine, visible⟩ := line_behind noNull closes lines
  obtain ⟨behind, copy, isCopied, created⟩ := atWord.createLiteral next noNull small
    (noNull_line lines) nonempty
  obtain ⟨c, others, rfl⟩ := exists_cons_of_ne_nil nonempty
  have stands := isCopied.stands feeds noNullLine visible
  have isCreated : parser.createString = some (some value, behind.behindLiteral copy) := by
    have brace : (literalHead value).head? = some 0x7B := rfl
    rw [createString, atWord.tokenText next, bind_some, if_pos brace, created]
  exact ⟨_, stands.within closes lines, fun last goesOn =>
    atWord.skipLoop_string rfl next isCreated stands.ok goesOn⟩

/-- A piece is passed, or the loop ends behind the last paren. -/
theorem Within.step (small : ∀ value noNull short, piece = .literal value noNull short →
      value.length < 2 ^ 31) (closes : Closes (depth + 1) (piece :: pieces))
    (within : parser.Within (piece :: pieces) rest following) :
    (∃ last, parser.SkipsTo (depth + 1) last ∧ last.NextIs rest following) ∨
      ∃ (next : GenericParser) (depth' : Nat), next.Within pieces rest following ∧
        Closes (depth' + 1) pieces ∧
        ∀ last, next.SkipsTo (depth' + 1) last → parser.SkipsTo (depth + 1) last := by
  cases piece with
  | opening =>
    have oneLine : Piece.opening.OneLine := trivial
    have scanned : ∀ others, scanParens (depth + 1) 0 (0x28 :: others) =
        scanParens (depth + 2) 1 others := fun _ => rfl
    obtain ⟨next, atNext, goesOn⟩ := within.paren rfl oneLine (by decide) scanned
    exact .inr ⟨next, depth + 1, atNext, closes, goesOn⟩
  | closing =>
    cases depth with
    | zero =>
      have done := Closes.eq_nil closes
      subst done
      exact .inl within.close
    | succ depth =>
      have oneLine : Piece.closing.OneLine := trivial
      have scanned : ∀ others, scanParens (depth + 2) 0 (0x29 :: others) =
          scanParens (depth + 1) 1 others := fun _ => rfl
      obtain ⟨next, atNext, goesOn⟩ := within.paren rfl oneLine (by decide) scanned
      exact .inr ⟨next, depth, atNext, closes, goesOn⟩
  | plain c isPlain =>
    have closesRest : Closes (depth + 1) pieces := closes
    obtain ⟨next, atNext, goesOn⟩ := within.plain (depth + 1) closesRest
    exact .inr ⟨next, depth, atNext, closes, goesOn⟩
  | quoted value oneLine =>
    have closesRest : Closes (depth + 1) pieces := closes
    obtain ⟨next, atNext, goesOn⟩ := within.quoted (depth + 1) closesRest
    exact .inr ⟨next, depth, atNext, closes, goesOn⟩
  | literal value noNull short =>
    have closesRest : Closes (depth + 1) pieces := closes
    obtain ⟨next, atNext, goesOn⟩ :=
      within.literal (depth + 1) (small value noNull short rfl) closesRest
    exact .inr ⟨next, depth, atNext, closes, goesOn⟩

/-- The loop ends behind the last paren of pieces whose literals are not too long. -/
theorem Within.run (small : ∀ value noNull short, .literal value noNull short ∈ pieces →
      value.length < 2 ^ 31) (closes : Closes (depth + 1) pieces)
    (within : parser.Within pieces rest following) :
    ∃ last, parser.SkipsTo (depth + 1) last ∧ last.NextIs rest following := by
  induction pieces generalizing parser depth with
  | nil => exact closes.elim
  | cons piece pieces ih =>
    have smallHere : ∀ value noNull short, piece = .literal value noNull short →
        value.length < 2 ^ 31 :=
      fun value noNull short same => small value noNull short (same ▸ mem_cons_self)
    rcases within.step smallHere closes with ended | ⟨next, depth', atNext, closes', goesOn⟩
    · exact ended
    · have smallLater : ∀ value noNull short, .literal value noNull short ∈ pieces →
          value.length < 2 ^ 31 :=
        fun value noNull short mem => small value noNull short (mem_cons_of_mem _ mem)
      obtain ⟨last, skips, isNext⟩ := ih smallLater closes' atNext
      exact ⟨last, goesOn last skips, isNext⟩

end Within

/-- `skip_to_close_paren`, called behind the first paren, ends at the text behind the group. -/
def Skips (parser : GenericParser) (rest : ResponseEnd) (following : List (List UInt8)) : Prop :=
  ∃ fuel after, (parser.skipInToken 1).skipToCloseParen fuel = some after ∧
    after.NextIs rest following

/-- A group is skipped if no literal in it is too long. -/
theorem AtGroup.skips (atGroup : parser.AtGroup group rest following)
    (small : ∀ value noNull short, .literal value noNull short ∈ group.pieces →
      value.length < 2 ^ 31) : parser.Skips rest following := by
  obtain ⟨copied, word, separator, after, later, lines, atWord, next⟩ := atGroup
  have within : parser.Within (.opening :: group.pieces) rest following :=
    ⟨[], copied, word, separator, after, later, lines, nofun, atWord, next⟩
  have oneLine : Piece.opening.OneLine := trivial
  obtain ⟨copied', others, separator', after', first, later', nextLines, split, atFirst, isNext⟩ :=
    within.starts rfl oneLine (by decide)
  have tail := (atFirst.tail rfl).skipInToken 1
  have nextTail : (parser.skipInToken 1).fNextToken = .at (copied' ++ [0x28]).length := by
    rw [skipInToken, isNext, length_append, length_singleton]
  rw [nil_append] at split
  rw [← split] at nextLines
  have inside : (parser.skipInToken 1).Within group.pieces rest following :=
    ⟨[], _, others, separator', after', later', nextLines, nofun, tail, nextTail⟩
  obtain ⟨last, ⟨fuel, ran⟩, isLast⟩ := inside.run small group.closes
  exact ⟨fuel, last, ran, isLast⟩

/-- The line break behind a response. -/
def lineEnd : ResponseEnd := ⟨crlf, by decide, [], rfl⟩

/-- The group `("a)"{1}`, line break, `()`. -/
def strings : ParenGroup where
  pieces := [.quoted [0x61, 0x29] (by decide), .literal [0x28] (by decide) (by decide), .closing]
  closes := rfl

def firstToken (group : ParenGroup) : GenericParser :=
  (start (deliveredLines (group.send ++ crlf))).advanceToNextToken

/-- The group `({0}`, line break, `)`. -/
def emptyLiteral : ParenGroup where
  pieces := [.literal [] (by decide) (by decide), .closing]
  closes := rfl

end GenericParser

end CommCentral.Imap
