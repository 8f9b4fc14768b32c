import CommCentral.Imap.AstringForms

/-! Literals: the string that is copied out of the lines, and where the parser is left. -/
namespace CommCentral.Imap

open Lib GenericParser List

namespace GenericParser

variable {parser : GenericParser} {astring : Astring}

/-- The parser after a literal was copied, before it is moved behind the literal: the next line has
not been read where the literal ends with a line break, and the current line goes on behind the
literal elsewhere. -/
structure Copied (parser : GenericParser) (copy : LiteralCopy) (tail first : List UInt8)
    (later : List (List UInt8)) : Prop where
  ok : parser.continueParse = true
  whole : tail = [] → parser.lines = first :: later ∧ copy.currentLineLength = copy.bytesToCopy
  part : tail ≠ [] → parser.lines = later ∧ parser.fCurrentLine = some (tail ++ first) ∧
    parser.fStartOfLineOfTokens = none ∧
    parser.fAtEndOfLine = (tail ++ first).all isWhitespace ∧
    copy.bytesToCopy = tail.length ∧ copy.currentLineLength ≠ copy.bytesToCopy

section

variable {line : List UInt8} {lines : List (List UInt8)} (isLines : parser.lines = line :: lines)
  (noNull : 0 ∉ line)
include isLines noNull

lemma advanceToNextLine_cons :
    parser.advanceToNextLine = { parser with
      lines := lines
      fCurrentLine := some line
      fStartOfLineOfTokens := none
      fNextToken := .null
      fAtEndOfLine := line.all isWhitespace } := by
  rw [advanceToNextLine, isLines]
  dsimp only
  rw [cString_zero noNull]

lemma literalLoop_line (ok : parser.continueParse = true) {number : Int}
    (more : (copy.returnString.length : Int) < number) (fuel : Nat) :
    literalLoop number (fuel + 1) parser copy =
      literalLoop number fuel parser.advanceToNextLine
        { returnString := copy.returnString ++
            line.take (min line.length (number.toNat - copy.returnString.length))
          currentLineLength := line.length
          bytesToCopy := min line.length (number.toNat - copy.returnString.length) } := by
  have current : parser.advanceToNextLine.fCurrentLine = some line := by
    rw [advanceToNextLine_cons isLines noNull]
  have stillOk : parser.advanceToNextLine.continueParse = true := by
    rw [advanceToNextLine_cons isLines noNull]
    exact ok
  rw [literalLoop, if_pos more]
  dsimp only
  rw [if_pos stillOk, current, Option.getD_some, cString_zero noNull]

end

lemma literalLoop_done {number : Int}
    (complete : number ≤ copy.returnString.length) (fuel : Nat) :
    literalLoop number (fuel + 1) parser copy = some (parser, copy) := by
  rw [literalLoop, if_neg (Int.not_lt.mpr complete)]

lemma literalLoop_lines {tail first : List UInt8} (noNull : ∀ line ∈ full, 0 ∉ line)
    (nonempty : ∀ line ∈ full, line ≠ []) (noNullLast : 0 ∉ tail ++ first) (some_ : first ≠ [])
    (ok : parser.continueParse = true) (lines : parser.lines = full ++ (tail ++ first) :: later)
    (even : copy.currentLineLength = copy.bytesToCopy) (enough : full.length + 1 < fuel) :
    ∃ after copied,
      literalLoop (copy.returnString.length + (full.flatten ++ tail).length : Nat) fuel parser
        copy = some (after, copied) ∧
      copied.returnString = copy.returnString ++ (full.flatten ++ tail) ∧
      after.Copied copied tail first later := by
  induction full generalizing parser copy fuel with
  | nil =>
    obtain ⟨fuel, rfl⟩ := Nat.exists_eq_succ_of_ne_zero (Nat.ne_of_gt (Nat.zero_lt_of_lt enough))
    by_cases ended : tail = []
    · subst ended
      refine ⟨parser, copy, literalLoop_done (Int.le_refl _) fuel, (append_nil _).symm, ok, ?_,
        fun isSome => absurd rfl isSome⟩
      exact fun _ => ⟨lines, even⟩
    · have positive := length_pos_iff.mpr ended
      have behind_ := length_pos_iff.mpr some_
      obtain ⟨fuel, rfl⟩ := Nat.exists_eq_succ_of_ne_zero
        (Nat.ne_of_gt (Nat.lt_of_succ_lt_succ enough))
      have copies : min (tail ++ first).length
          ((copy.returnString.length + (([] : List (List UInt8)).flatten ++ tail).length : Nat) -
            copy.returnString.length) = tail.length := by
        rw [flatten_nil, nil_append, length_append]
        omega
      have more : (copy.returnString.length : Int) <
          (copy.returnString.length + (([] : List (List UInt8)).flatten ++ tail).length : Nat) := by
        rw [flatten_nil, nil_append]
        omega
      rw [literalLoop_line lines noNullLast ok more, Int.toNat_natCast, copies, take_left]
      refine ⟨_, _, literalLoop_done ?_ fuel, rfl, ?_, fun isNil => absurd isNil ended, fun _ => ?_⟩
      · simp only [flatten_nil, nil_append, length_append]
        exact Int.le_refl _
      · rw [advanceToNextLine_cons lines noNullLast]
        exact ok
      · rw [advanceToNextLine_cons lines noNullLast]
        refine ⟨rfl, rfl, rfl, rfl, rfl, ?_⟩
        simp only [length_append]
        omega
  | cons line full ih =>
    obtain ⟨fuel, rfl⟩ := Nat.exists_eq_succ_of_ne_zero (Nat.ne_of_gt (Nat.zero_lt_of_lt enough))
    have positive := length_pos_iff.mpr (nonempty line mem_cons_self)
    have noNullLine := noNull line mem_cons_self
    have total : copy.returnString.length + ((line :: full).flatten ++ tail).length =
        (copy.returnString ++ line).length + (full.flatten ++ tail).length := by
      simp only [flatten_cons, length_append]
      omega
    have copies : min line.length
        (copy.returnString.length + ((line :: full).flatten ++ tail).length -
          copy.returnString.length) = line.length := by
      simp only [flatten_cons, length_append]
      omega
    have more : (copy.returnString.length : Int) <
        (copy.returnString.length + ((line :: full).flatten ++ tail).length : Nat) := by
      simp only [flatten_cons, length_append]
      omega
    have next : parser.advanceToNextLine.lines = full ++ (tail ++ first) :: later := by
      rw [advanceToNextLine_cons lines noNullLine]
      rfl
    have stillOk : parser.advanceToNextLine.continueParse = true := by
      rw [advanceToNextLine_cons lines noNullLine]
      exact ok
    have evenNext : (⟨copy.returnString ++ line, line.length, line.length⟩ :
        LiteralCopy).currentLineLength = line.length := rfl
    obtain ⟨after, copied, ran, returned, isCopied⟩ :=
      ih (fun other mem => noNull other (mem_cons_of_mem _ mem))
        (fun other mem => nonempty other (mem_cons_of_mem _ mem)) stillOk next evenNext
        (Nat.lt_of_succ_lt_succ enough)
    refine ⟨after, copied, ?_, ?_, isCopied⟩
    · rw [literalLoop_line lines noNullLine ok more, Int.toNat_natCast, copies, take_length,
        total]
      exact ran
    · rw [returned, flatten_cons, append_assoc, append_assoc]

variable {value : List UInt8}

lemma deliveredLines_literal (lines : deliveredLines (behind others) = first :: later) :
    deliveredLines (literalHead value ++ crlf ++ value ++ behind others) =
      (literalHead value ++ crlf) ::
        ((pairLines 0x0D 0x0A [] value).1 ++ (lastLine value ++ first) :: later) := by
  have unbroken : 0x0D ∉ literalHead value :=
    not_mem_literalHead (by decide) (by decide) (by decide) value
  have head := @pairLines_unbroken _ _ (0x0D : UInt8) 0x0A [] _ unbroken (.inl nofun)
  have last := @pairLines_behind _ _ (0x0D : UInt8) 0x0A [] (lastLine value) first later
    (behind others) (.inr (.inr (exists_behind others).2)) lines
  rw [append_nil] at last
  have rest : (pairLines (0x0D : UInt8) 0x0A [] (value ++ behind others)).1 =
      (pairLines 0x0D 0x0A [] value).1 ++ (lastLine value ++ first) :: later := by
    rw [pairLines_append]
    exact congrArg (List.append _) last
  rw [deliveredLines, append_assoc, append_assoc, pairLines_append, head,
    nil_append]
  dsimp only
  rw [← rest]
  exact congrArg Prod.fst (pairLines_end (by decide) (literalHead value) (value ++ behind others))

lemma AtText.literal (atText : parser.AtText (astring.send ++ behind others) following)
    (isLiteral : astring.form = .literal) : ∃ blank first later, isWhitespace blank = true ∧
      deliveredLines (behind others) = (blank :: first) :: later ∧
      parser.tokenText = some (literalHead astring.value) ∧ parser.continueParse = true ∧
      parser.lines = (pairLines 0x0D 0x0A [] astring.value).1 ++
        (lastLine astring.value ++ blank :: first) :: (later ++ following) := by
  have sends : astring.send = literalHead astring.value ++ crlf ++ astring.value := by
    rw [Astring.send, isLiteral]
  rw [sends] at atText
  obtain ⟨line, rest, lines, before, token, separator, after, split, atToken⟩ := atText
  obtain ⟨blank, first, later, isBlank, behind_⟩ := exists_lines_behind others
  obtain ⟨rfl, rfl⟩ := List.cons.inj ((deliveredLines_literal behind_).symm.trans lines)
  have isToken : Token [] (literalHead astring.value) 0x0D := by
    refine ⟨atToken.isToken.blank, ?_, cons_ne_nil _ _, by decide⟩
    intro c mem
    by_contra isBlank
    rcases isWhitespace_iff.mp (Bool.eq_true_of_not_eq_false isBlank) with rfl | rfl | rfl
    · exact not_mem_literalHead (by decide) (by decide) (by decide) _ mem
    · exact not_mem_literalHead (by decide) (by decide) (by decide) _ mem
    · exact not_mem_literalHead (by decide) (by decide) (by decide) _ mem
  obtain ⟨rfl, _, _⟩ := isToken.unique atToken.isToken split
  refine ⟨blank, first, later, isBlank, behind_, atToken.tokenText, atToken.ok, ?_⟩
  rw [atToken.lines, append_assoc]
  rfl

lemma createAstring_literalHead
    (token : parser.tokenText = some (literalHead value)) :
    parser.createAstring = parser.createLiteral := by
  rw [createAstring, token, Option.bind_some]
  exact if_pos rfl

lemma noNull_lastLine (noNull : 0 ∉ value) : 0 ∉ lastLine value := by
  have whole : (pairLines 0x0D 0x0A [] value).1.flatten ++ lastLine value = value :=
    flatten_pairLines [] value
  intro mem
  apply noNull
  rw [← whole]
  exact mem_append_right _ mem

lemma AtText.createAstring_small
    (atText : parser.AtText (astring.send ++ behind others) following)
    (isLiteral : astring.form = .literal) (small : astring.value.length < 2 ^ 31) :
    ∃ (after : GenericParser) (copied : LiteralCopy) (blank : UInt8) (first : List UInt8)
      (later : List (List UInt8)), isWhitespace blank = true ∧
      deliveredLines (behind others) = (blank :: first) :: later ∧
      after.Copied copied (lastLine astring.value) (blank :: first) (later ++ following) ∧
      parser.createAstring = some (some astring.value, after.behindLiteral copied) := by
  obtain ⟨blank, first, later, isBlank, behind_, token, ok, lines⟩ := atText.literal isLiteral
  have whole : (pairLines 0x0D 0x0A [] astring.value).1.flatten ++ lastLine astring.value =
      astring.value := flatten_pairLines [] astring.value
  have noNullFull : ∀ line ∈ (pairLines 0x0D 0x0A [] astring.value).1, (0 : UInt8) ∉ line :=
    fun line mem => noNull_of_deliveredLines astring.noNull mem
  have nonempty : ∀ line ∈ (pairLines (0x0D : UInt8) 0x0A [] astring.value).1, line ≠ [] := by
    intro line mem
    obtain ⟨before, rfl⟩ := pairLines_concat mem
    exact concat_ne_nil _ _
  have noNullLast : 0 ∉ lastLine astring.value ++ blank :: first := by
    intro mem
    rcases mem_append.mp mem with inLast | inBehind
    · exact noNull_lastLine astring.noNull inLast
    · exact noNull_of_deliveredLines (noNull_behind others) (behind_ ▸ mem_cons_self) inBehind
  have enough : (pairLines (0x0D : UInt8) 0x0A [] astring.value).1.length + 1 <
      parser.lines.length + 1 := by
    rw [lines, length_append, length_cons]
    omega
  have even : (⟨[], 0, 0⟩ : LiteralCopy).currentLineLength =
      (⟨[], 0, 0⟩ : LiteralCopy).bytesToCopy := rfl
  obtain ⟨after, copied, ran, returned, isCopied⟩ := literalLoop_lines noNullFull nonempty
    noNullLast (cons_ne_nil _ _) ok lines even enough
  rw [whole, length_nil, Nat.zero_add] at ran
  rw [whole, nil_append] at returned
  have notMinusOne : ¬ (astring.value.length : Int) = -1 := by omega
  have tail : (literalHead astring.value).tail = showDecimal astring.value.length ++ [0x7D] := rfl
  refine ⟨after, copied, blank, first, later, isBlank, behind_, isCopied, ?_⟩
  rw [createAstring_literalHead token, createLiteral, token, Option.bind_some, tail,
    atoi_small small, if_neg notMinusOne, ran, Option.map_some]
  dsimp only
  rw [returned]

lemma Copied.stands {tail : List UInt8}
    (isCopied : parser.Copied copied tail (blank :: first) later)
    (ends : ∃ before, tail ++ blank :: first = before ++ [0x0A])
    (noNull : 0 ∉ tail ++ blank :: first)
    (visible : ∃ c ∈ tail ++ blank :: first, isWhitespace c = false) :
    (parser.behindLiteral copied).Stands (blank :: first) later := by
  have notBlank : (tail ++ blank :: first).all isWhitespace = false := by
    obtain ⟨c, mem, isVisible⟩ := visible
    exact all_eq_false.mpr ⟨c, mem, by rw [isVisible]; decide⟩
  have noNullBehind : 0 ∉ blank :: first := fun mem => noNull (mem_append_right _ mem)
  rw [behindLiteral, if_pos isCopied.ok]
  by_cases ended : tail = []
  · obtain ⟨lines, even⟩ := isCopied.whole ended
    subst ended
    rw [if_pos even, advanceToNextLine_cons lines noNullBehind]
    exact ⟨rfl, isCopied.ok, notBlank, noNullBehind, .inl ⟨rfl, rfl⟩⟩
  · obtain ⟨lines, current, fresh, atEnd, copies, odd⟩ := isCopied.part ended
    have stands : parser.Stands (tail ++ blank :: first) later :=
      ⟨lines, isCopied.ok, atEnd.trans notBlank, noNull, .inl ⟨current, fresh⟩⟩
    obtain ⟨blanks, token, separator, after, split, isToken⟩ := exists_token_of_line ends visible
    rw [split] at stands
    obtain ⟨skipped, atToken, isFresh⟩ := Stands.atToken isToken stands
    have nothing := isFresh fresh
    subst nothing
    have starting := atToken.starting
    rw [length_nil] at starting
    have copiedLine : parser.advanceToNextToken.fStartOfLineOfTokens.isNone = false := by
      obtain ⟨_, _, copy⟩ := atToken.copied
      rw [copy]
      rfl
    have inside : tail.length ≤ (blanks ++ (token ++ separator :: after)).length := by
      rw [← split, length_append]
      exact Nat.le_add_right _ _
    have left := @AtToken.startingPoint _ _ _ _ _ _ _ atToken tail.length tail.length
      (by rw [length_nil]; omega) inside
    rw [if_neg odd, copies, advanceTokenizerStartingPoint_fresh fresh copiedLine]
    rw [← split, drop_left] at left
    exact left

/-- There is something to see in the line behind a string when another follows. -/
theorem exists_visible_behind {next : Astring}
    (lines : deliveredLines (behind (next :: others)) = first :: later) :
    ∃ c ∈ first, isWhitespace c = false := by
  obtain ⟨token, separator, after, _, isToken, inner⟩ := exists_lines_send next others
  obtain ⟨rfl, _⟩ := List.cons.inj (lines.symm.trans (deliveredLines_space inner))
  obtain ⟨c, rest, shape⟩ := exists_cons_of_ne_nil isToken.some
  refine ⟨c, ?_, isToken.word c (shape ▸ mem_cons_self)⟩
  rw [shape]
  exact mem_cons_of_mem _ (mem_append_left _ mem_cons_self)

lemma AtText.createAstring_literal
    (atText : parser.AtText (astring.send ++ behind others) following)
    (isLiteral : astring.form = .literal) (small : astring.value.length < 2 ^ 31)
    (visible : others = [] → ∃ c ∈ lastLine astring.value, isWhitespace c = false) :
    ∃ after, parser.createAstring = some (some astring.value, after) ∧
      after.Behind others following := by
  obtain ⟨after, copied, blank, first, later, isBlank, lines, isCopied, created⟩ :=
    atText.createAstring_small isLiteral small
  have mem : blank :: first ∈ deliveredLines (behind others) := lines ▸ mem_cons_self
  have ends : ∃ before, lastLine astring.value ++ blank :: first = before ++ [0x0A] := by
    obtain ⟨before, split⟩ := pairLines_concat mem
    exact ⟨lastLine astring.value ++ before, by rw [split, append_assoc]⟩
  have noNull : 0 ∉ lastLine astring.value ++ blank :: first := by
    intro isNull
    rcases mem_append.mp isNull with inLast | inBehind
    · exact noNull_lastLine astring.noNull inLast
    · exact noNull_of_deliveredLines (noNull_behind others) mem inBehind
  have visible_ : ∃ c ∈ lastLine astring.value ++ blank :: first, isWhitespace c = false := by
    cases others with
    | nil =>
      obtain ⟨c, inLast, isVisible⟩ := visible rfl
      exact ⟨c, mem_append_left _ inLast, isVisible⟩
    | cons next others =>
      obtain ⟨c, inBehind, isVisible⟩ := exists_visible_behind lines
      exact ⟨c, mem_append_right _ inBehind, isVisible⟩
  exact ⟨_, created, blank, first, later, isBlank, lines,
    .inl (isCopied.stands ends noNull visible_)⟩

/-- The parser has tried to read a line behind the response. -/
def Overran (parser : GenericParser) (following : List (List UInt8)) : Prop :=
  parser.stateDisconnected = true ∨ parser.lines.length < following.length

section

variable (overran : parser.Overran following)
include overran

lemma Overran.advanceToNextLine : parser.advanceToNextLine.Overran following := by
  rw [GenericParser.advanceToNextLine]
  cases lines : parser.lines with
  | nil => exact .inl rfl
  | cons line later =>
    refine overran.imp id ?_
    intro fewer
    rw [lines] at fewer
    exact Nat.lt_of_succ_lt fewer

lemma Overran.nextToken :
    (if parser.stateDisconnected = true then parser else parser.copyLine.nextToken).Overran
      following := by
  have same : parser.copyLine.nextToken.lines = parser.lines ∧
      parser.copyLine.nextToken.stateDisconnected = parser.stateDisconnected := by
    rw [GenericParser.nextToken, copyLine]
    split <;> exact ⟨rfl, rfl⟩
  split
  · exact overran
  · rw [Overran, same.1, same.2]
    exact overran

lemma Overran.advanceToNextToken : parser.advanceToNextToken.Overran following := by
  rw [GenericParser.advanceToNextToken]
  split
  · exact overran.advanceToNextLine.nextToken
  · exact overran.nextToken

end

lemma overran_of_atEnd (atEnd : parser.fAtEndOfLine = true)
    (lines : parser.lines = following) : parser.advanceToNextToken.Overran following := by
  have next : parser.advanceToNextLine.Overran following := by
    rw [GenericParser.advanceToNextLine, lines]
    cases following with
    | nil => exact .inl rfl
    | cons line later => exact .inr (Nat.lt_succ_self _)
  have again : parser.fCurrentLine.isNone = true ∨ parser.fAtEndOfLine = true := .inr atEnd
  rw [GenericParser.advanceToNextToken, if_pos again]
  exact next.nextToken

lemma overran_advanceTokenizerStartingPoint (fresh : parser.fStartOfLineOfTokens = none)
    (atEnd : parser.fAtEndOfLine = true) (lines : parser.lines = following)
    (bytesToAdvance : Nat) :
    (parser.advanceTokenizerStartingPoint bytesToAdvance).Overran following := by
  have overran := overran_of_atEnd atEnd lines
  have isFresh : parser.fStartOfLineOfTokens.isNone = true := by rw [fresh]; rfl
  rw [advanceTokenizerStartingPoint, if_pos isFresh]
  split
  · exact overran
  · exact overran

lemma Overran.not_atEnd (overran : parser.Overran following) : ¬ parser.AtEnd following := by
  intro atEnd
  rcases overran with disconnected | fewer
  · rw [connected_of_ok atEnd.ok] at disconnected
    cases disconnected
  · rw [atEnd.lines] at fewer
    exact Nat.lt_irrefl _ fewer

lemma AtText.overruns
    (atText : parser.AtText (astring.send ++ behind []) following)
    (isLiteral : astring.form = .literal) (small : astring.value.length < 2 ^ 31)
    (blank : ∀ c ∈ lastLine astring.value, isWhitespace c = true) :
    ∃ after, parser.createAstring = some (some astring.value, after) ∧
      after.advanceToNextToken.Overran following := by
  obtain ⟨after, copied, separator, first, later, _, lines, isCopied, created⟩ :=
    atText.createAstring_small isLiteral small
  rw [deliveredLines_behind_nil] at lines
  cases lines
  refine ⟨_, created, ?_⟩
  rw [behindLiteral, if_pos isCopied.ok]
  by_cases ended : lastLine astring.value = []
  · obtain ⟨lines, even⟩ := isCopied.whole ended
    rw [if_pos even, advanceToNextLine_cons lines (by decide)]
    exact overran_of_atEnd rfl rfl
  · obtain ⟨lines, _, fresh, atEnd, _, odd⟩ := isCopied.part ended
    have breakBlank : ∀ c ∈ ([0x0D, 0x0A] : List UInt8), isWhitespace c = true := by decide
    have allBlank : (lastLine astring.value ++ [0x0D, 0x0A]).all isWhitespace = true :=
      all_eq_true.mpr (forall_mem_append.mpr ⟨blank, breakBlank⟩)
    rw [if_neg odd]
    apply Overran.advanceToNextToken
    exact overran_advanceTokenizerStartingPoint fresh (atEnd.trans allBlank) lines _

lemma literalLoop_length {number : Int} {after : GenericParser}
    (ran : literalLoop number fuel parser copy = some (after, copied))
    (within : copy.returnString.length ≤ number.toNat) :
    copied.returnString.length ≤ number.toNat := by
  induction fuel generalizing parser copy with
  | zero => cases ran
  | succ fuel ih =>
    rw [literalLoop] at ran
    split at ran
    · rename_i more
      dsimp only at ran
      split at ran
      · apply ih ran
        rw [length_append, length_take]
        omega
      · cases ran
        exact within
    · cases ran
      exact within

lemma AtText.createAstring_large
    (atText : parser.AtText (astring.send ++ behind others) following)
    (isLiteral : astring.form = .literal) (large : 2 ^ 31 ≤ astring.value.length)
    {created : Option (List UInt8)} {after : GenericParser}
    (isCreated : parser.createAstring = some (created, after)) : created ≠ some astring.value := by
  obtain ⟨_, _, _, _, _, token, _, _⟩ := atText.literal isLiteral
  have less := atoi_large large
  have tail : (literalHead astring.value).tail = showDecimal astring.value.length ++ [0x7D] := rfl
  rw [createAstring_literalHead token, createLiteral, token, Option.bind_some, tail] at isCreated
  dsimp only at isCreated
  split at isCreated
  · cases isCreated
    exact (Option.some_ne_none _).symm
  · obtain ⟨⟨parser', copied⟩, ran, isResult⟩ := Option.map_eq_some_iff.mp isCreated
    cases isResult
    intro same
    have length := literalLoop_length ran (Nat.zero_le _)
    rw [Option.some.inj same] at length
    exact Nat.not_lt.mpr length less

end GenericParser

def Astring.FitsInt (astring : Astring) : Prop :=
  astring.form = .literal → astring.value.length < 2 ^ 31

/-- Something other than blanks stands behind the last line break of a literal. -/
def Astring.EndsVisibly (astring : Astring) : Prop :=
  astring.form = .literal → ∃ c ∈ lastLine astring.value, isWhitespace c = false

/-- The literals are not too long, and the last string is no literal whose last line is blank. -/
def Readable (astrings : List Astring) : Prop :=
  (∀ astring ∈ astrings, astring.FitsInt) ∧ ∀ last ∈ astrings.getLast?, last.EndsVisibly

namespace GenericParser

/-- The strings are read in order, and the parser is left at the end of the response. -/
def Reads (parser : GenericParser) (astrings : List Astring) (following : List (List UInt8)) :
    Prop :=
  ∃ last, parser.readAstrings astrings.length = some (astrings.map (some ·.value), last) ∧
    last.AtEnd following

variable {parser : GenericParser} {astring : Astring}

lemma reads_cons {after : GenericParser} {created : Option (List UInt8)}
    (isCreated : parser.createAstring = some (created, after)) :
    parser.Reads (astring :: others) following ↔
      created = some astring.value ∧ after.advanceToNextToken.Reads others following := by
  have unfolded : parser.readAstrings (others.length + 1) =
      (after.advanceToNextToken.readAstrings others.length).bind
        fun ran => some (created :: ran.1, ran.2) := by
    rw [readAstrings, isCreated]
    rfl
  constructor
  · rintro ⟨last, ran, atEnd⟩
    rw [length_cons, unfolded] at ran
    obtain ⟨⟨results, final⟩, rest, isResult⟩ := Option.bind_eq_some_iff.mp ran
    cases isResult
    exact ⟨rfl, final, rest, atEnd⟩
  · rintro ⟨rfl, last, rest, atEnd⟩
    refine ⟨last, ?_, atEnd⟩
    rw [length_cons, unfolded, rest]
    rfl

lemma AtText.createAstring (atText : parser.AtText (astring.send ++ behind others) following)
    (fits : astring.FitsInt) (visible : others = [] → astring.EndsVisibly) :
    ∃ after, parser.createAstring = some (some astring.value, after) ∧
      after.Behind others following := by
  cases isForm : astring.form with
  | atom => exact atText.createAstring_atom isForm
  | quoted => exact atText.createAstring_quoted isForm
  | literal =>
    exact atText.createAstring_literal isForm (fits isForm) fun isLast => visible isLast isForm

lemma AtText.not_reads_large
    (atText : parser.AtText (astring.send ++ behind others) following)
    (large : ¬ astring.FitsInt) : ¬ parser.Reads (astring :: others) following := by
  obtain ⟨isLiteral, large⟩ := Classical.not_imp.mp large
  have different := fun created after =>
    @AtText.createAstring_large _ _ _ _ atText isLiteral (Nat.not_lt.mp large) created after
  intro reads
  cases isCreated : parser.createAstring with
  | none =>
    obtain ⟨last, ran, _⟩ := reads
    rw [length_cons, readAstrings, isCreated] at ran
    cases ran
  | some result => exact different _ _ isCreated ((reads_cons isCreated).mp reads).1

lemma AtText.not_reads_blank (atText : parser.AtText (astring.send ++ behind []) following)
    (fits : astring.FitsInt) (blank : ¬ astring.EndsVisibly) :
    ¬ parser.Reads [astring] following := by
  obtain ⟨isLiteral, notVisible⟩ := Classical.not_imp.mp blank
  have allBlank : ∀ c ∈ lastLine astring.value, isWhitespace c = true := by
    intro c mem
    by_contra isVisible
    exact notVisible ⟨c, mem, Bool.eq_false_of_not_eq_true isVisible⟩
  obtain ⟨after, created, overran⟩ := atText.overruns isLiteral (fits isLiteral) allBlank
  intro reads
  obtain ⟨_, last, ran, atEnd⟩ := (reads_cons created).mp reads
  cases ran
  exact overran.not_atEnd atEnd

lemma AtText.reads_iff (atText : parser.AtText (astring.send ++ behind others) following) :
    parser.Reads (astring :: others) following ↔ Readable (astring :: others) := by
  induction others generalizing parser astring with
  | nil =>
    by_cases fits : astring.FitsInt
    · by_cases visible : astring.EndsVisibly
      · obtain ⟨after, created, isBehind⟩ := atText.createAstring fits fun _ => visible
        have readable : Readable [astring] := by
          refine ⟨forall_mem_singleton.mpr fits, ?_⟩
          intro last isLast
          cases isLast
          exact visible
        rw [reads_cons created]
        exact iff_of_true ⟨rfl, _, rfl, isBehind.last⟩ readable
      · refine iff_of_false (atText.not_reads_blank fits visible) ?_
        exact fun readable => visible (readable.2 astring rfl)
    · refine iff_of_false (atText.not_reads_large fits) ?_
      exact fun readable => fits (readable.1 astring mem_cons_self)
  | cons next others ih =>
    by_cases fits : astring.FitsInt
    · obtain ⟨after, created, isBehind⟩ := atText.createAstring fits fun isNil => nomatch isNil
      rw [reads_cons created, ih isBehind.next]
      constructor
      · rintro ⟨_, fitLater, visible⟩
        exact ⟨forall_mem_cons.mpr ⟨fits, fitLater⟩, visible⟩
      · rintro ⟨fit, visible⟩
        exact ⟨rfl, (forall_mem_cons.mp fit).2, visible⟩
    · refine iff_of_false (atText.not_reads_large fits) ?_
      exact fun readable => fits (readable.1 astring mem_cons_self)

end GenericParser

/-- A server sends the strings, and more lines after them. -/
def connection (astrings : List Astring) (following : List (List UInt8)) : GenericParser :=
  start (deliveredLines (response astrings) ++ following)

lemma connection_nil (following) : (connection [] following).advanceToNextToken.AtEnd following :=
  ⟨rfl, rfl, rfl, rfl⟩

lemma connection_cons (astring : Astring) (others : List Astring)
    (following : List (List UInt8)) :
    (connection (astring :: others) following).advanceToNextToken.AtText
      (astring.send ++ behind others) following := by
  obtain ⟨token, separator, after, later, isToken, lines⟩ := exists_lines_send astring others
  have noNull : 0 ∉ token ++ separator :: after := by
    refine noNull_of_deliveredLines ?_ (lines ▸ mem_cons_self)
    intro isNull
    rcases mem_append.mp isNull with inSend | inBehind
    · exact astring.noNull_send inSend
    · exact noNull_behind others inBehind
  have isLines : (connection (astring :: others) following).lines =
      (token ++ separator :: after) :: (later ++ following) :=
    congrArg (List.append · following) lines
  have visible : (token ++ separator :: after).all isWhitespace = false := by
    obtain ⟨c, rest, shape⟩ := exists_cons_of_ne_nil isToken.some
    have isVisible := isToken.word c (shape ▸ mem_cons_self)
    rw [shape, cons_append, all_cons, isVisible]
    rfl
  have stands : (connection (astring :: others) following).advanceToNextLine.Stands
      ([] ++ (token ++ separator :: after)) (later ++ following) := by
    rw [advanceToNextLine_cons isLines noNull]
    exact ⟨rfl, rfl, visible, noNull, .inl ⟨rfl, rfl⟩⟩
  have sameToken : (connection (astring :: others) following).advanceToNextToken =
      (connection (astring :: others) following).advanceToNextLine.advanceToNextToken := by
    have noLine : (connection (astring :: others) following).fCurrentLine.isNone = true ∨
        (connection (astring :: others) following).fAtEndOfLine = true := .inl rfl
    rw [stands.advanceToNextToken_eq, advanceToNextToken, if_pos noLine,
      connected_of_ok stands.ok]
    rfl
  obtain ⟨before, atToken, _⟩ := Stands.atToken isToken stands
  rw [sameToken]
  exact ⟨_, later, lines, before, token, separator, after, rfl, atToken⟩

/-- The strings of a response are read back, and no line behind it is touched, exactly if no literal
is too long and the last string is no literal whose last line is blank. -/
theorem readsBack_iff (astrings : List Astring) (following : List (List UInt8)) :
    (connection astrings following).advanceToNextToken.Reads astrings following ↔
      Readable astrings := by
  cases astrings with
  | nil =>
    have readable : Readable [] := ⟨nofun, fun _ isLast => nomatch isLast⟩
    exact iff_of_true ⟨_, rfl, connection_nil following⟩ readable
  | cons astring others => exact (connection_cons astring others following).reads_iff

/-- The literal `" "` stands last: its line is taken for the end of the response. -/
def blankLiteral : Astring where
  value := [0x20]
  form := .literal
  nonempty := cons_ne_nil _ _
  noNull := by decide
  atomChars := nofun
  oneLine := nofun

theorem readsBack_blankLiteral :
    ((connection [blankLiteral] [[0x2A, 0x0D, 0x0A]]).advanceToNextToken.readAstrings 1).map
        (fun (results, last) => (results, last.lines)) = some ([some [0x20]], []) ∧
      ¬ (connection [blankLiteral] [[0x2A, 0x0D, 0x0A]]).advanceToNextToken.Reads [blankLiteral]
        [[0x2A, 0x0D, 0x0A]] := by
  have run : ((connection [blankLiteral] [[0x2A, 0x0D, 0x0A]]).advanceToNextToken.readAstrings
      1).map (fun (results, last) => (results, last.lines)) = some ([some [0x20]], []) := by
    decide +kernel
  refine ⟨run, ?_⟩
  rintro ⟨last, ran, atEnd⟩
  change GenericParser.readAstrings 1 _ = _ at ran
  rw [ran] at run
  have noLines : last.lines = [] := congrArg Prod.snd (Option.some.inj run)
  rw [atEnd.lines] at noLines
  cases noLines

end CommCentral.Imap
