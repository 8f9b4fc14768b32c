import CommCentral.Imap.GenericParser
import CommCentral.Lib.Decision
import Mathlib.Data.List.GetD
import Mathlib.Data.List.TakeWhile

/-! Where the IMAP parser stands in a line, and the next token from there. -/
namespace CommCentral.Imap
open List

variable {before blanks token after rest : List UInt8} {separator : UInt8}

lemma cString_append (noNull : 0 ∉ rest) : cString (before ++ rest) before.length = rest := by
  rw [cString, drop_left, takeWhile_eq_self_iff]
  intro c mem
  exact bne_iff_ne.mpr fun isNull => noNull (isNull ▸ mem)

lemma cString_zero (noNull : 0 ∉ rest) : cString rest 0 = rest := @cString_append [] rest noNull

/-- The next token of a text, with the blanks before it and the separator behind it. -/
structure Token (blanks token : List UInt8) (separator : UInt8) : Prop where
  blank : ∀ c ∈ blanks, isWhitespace c = true
  word : ∀ c ∈ token, isWhitespace c = false
  some : token ≠ []
  separates : isWhitespace separator = true

lemma isWhitespace_iff : isWhitespace c = true ↔ c = 0x20 ∨ c = 0x0D ∨ c = 0x0A := by
  simp [isWhitespace, or_assoc]

lemma not_null_of_isWhitespace (blank : isWhitespace c = true) : c ≠ 0 := by
  rintro rfl
  exact absurd blank (by decide)

section

variable (isToken : Token blanks token separator)
include isToken

lemma Token.whitespace (after) :
    (blanks ++ (token ++ separator :: after)).takeWhile isWhitespace = blanks ∧
      (blanks ++ (token ++ separator :: after)).dropWhile isWhitespace =
        token ++ separator :: after := by
  obtain ⟨first, others, rfl⟩ := exists_cons_of_ne_nil isToken.some
  have starts : isWhitespace first = false := isToken.word first mem_cons_self
  rw [takeWhile_append_of_pos isToken.blank, dropWhile_append_of_pos isToken.blank,
    cons_append, takeWhile_cons_of_neg (by rw [starts]; decide),
    dropWhile_cons_of_neg (by rw [starts]; decide), append_nil]
  exact ⟨rfl, rfl⟩

lemma Token.takeWhile (after) :
    (token ++ separator :: after).takeWhile (!isWhitespace ·) = token := by
  have word : ∀ c ∈ token, (!isWhitespace c) = true :=
    fun c mem => congrArg not (isToken.word c mem)
  rw [takeWhile_append_of_pos word,
    takeWhile_cons_of_neg (by rw [isToken.separates]; decide), append_nil]

lemma Token.unique (isToken' : Token blanks token' separator')
    (same : token ++ separator :: after = token' ++ separator' :: after') :
    token = token' ∧ separator = separator' ∧ after = after' := by
  have tokens : token = token' := by
    rw [← isToken.takeWhile after, same, isToken'.takeWhile after']
  subst tokens
  obtain ⟨separators, afters⟩ := List.cons.inj (append_cancel_left same)
  exact ⟨rfl, separators, afters⟩

end

lemma nsStrtok_token (isToken : Token blanks token separator)
    (noNull : 0 ∉ blanks ++ (token ++ separator :: after)) :
    nsStrtok (before ++ (blanks ++ (token ++ separator :: after))) (some before.length) =
      { token := some (before.length + blanks.length)
        buffer := before ++ (blanks ++ (token ++ 0 :: after))
        place := some (before.length + blanks.length + token.length + 1) } := by
  have inside : before.length + blanks.length + token.length <
      before.length + (blanks ++ (token ++ separator :: after)).length := by
    simp only [length_append, length_cons]
    omega
  have terminated : (before ++ (blanks ++ (token ++ separator :: after))).set
      (before.length + blanks.length + token.length) 0 =
        before ++ (blanks ++ (token ++ 0 :: after)) := by
    rw [Nat.add_assoc, set_append_right _ _ (Nat.le_add_right _ _), Nat.add_sub_cancel_left,
      set_append_right _ _ (Nat.le_add_right _ _), Nat.add_sub_cancel_left,
      set_append_right _ _ (Nat.le_refl _), Nat.sub_self, set_cons_zero]
  obtain ⟨leading, found⟩ := isToken.whitespace after
  rw [nsStrtok, cString_append noNull]
  dsimp only
  rw [leading, found, isToken.takeWhile after, if_neg isToken.some, if_pos inside, terminated]

lemma nsStrtok_blank (blank : ∀ c ∈ rest, isWhitespace c = true) :
    nsStrtok (before ++ rest) (some before.length) =
      { token := none, buffer := before ++ rest, place := some (before.length + rest.length) } := by
  have noNull : 0 ∉ rest := fun mem => not_null_of_isWhitespace (blank 0 mem) rfl
  have all : rest.takeWhile isWhitespace = rest := takeWhile_eq_self_iff.mpr blank
  have nothing : rest.dropWhile isWhitespace = [] := dropWhile_eq_nil_iff.mpr blank
  rw [nsStrtok, cString_append noNull]
  dsimp only
  rw [all, nothing, takeWhile_nil, if_pos rfl]

/-- A text that does not start with a blank and contains one starts with a token. -/
theorem exists_token (starts : isWhitespace first = false)
    (ends : ∃ c ∈ rest, isWhitespace c = true) : ∃ token separator after,
      first :: rest = token ++ separator :: after ∧ Token [] token separator := by
  induction rest generalizing first with
  | nil =>
    obtain ⟨c, mem, _⟩ := ends
    exact absurd mem not_mem_nil
  | cons second rest ih =>
    have noBlank : ∀ c ∈ ([] : List UInt8), isWhitespace c = true :=
      fun c mem => absurd mem not_mem_nil
    cases here : isWhitespace second with
    | true =>
      refine ⟨[first], second, rest, rfl, noBlank, ?_, cons_ne_nil _ _, here⟩
      exact forall_mem_singleton.mpr starts
    | false =>
      have later : ∃ c ∈ rest, isWhitespace c = true := by
        obtain ⟨c, mem, blank⟩ := ends
        rcases mem_cons.mp mem with isSecond | inRest
        · rw [isSecond, here] at blank
          cases blank
        · exact ⟨c, inRest, blank⟩
      obtain ⟨token, separator, after, split, isToken⟩ := ih here later
      refine ⟨first :: token, separator, after, congrArg (List.cons first) split, noBlank, ?_,
        cons_ne_nil _ _, isToken.separates⟩
      exact forall_mem_cons.mpr ⟨starts, isToken.word⟩

lemma exists_token_behind (ends : isWhitespace blank = true)
    (visible : ∃ c ∈ rest, isWhitespace c = false) : ∃ blanks token separator after,
      rest ++ [blank] = blanks ++ (token ++ separator :: after) ∧
        Token blanks token separator := by
  induction rest with
  | nil =>
    obtain ⟨c, mem, _⟩ := visible
    exact absurd mem not_mem_nil
  | cons first rest ih =>
    cases here : isWhitespace first with
    | false =>
      have later : ∃ c ∈ rest ++ [blank], isWhitespace c = true :=
        ⟨blank, mem_append_right _ (mem_singleton_self _), ends⟩
      obtain ⟨token, separator, after, split, isToken⟩ := exists_token here later
      exact ⟨[], token, separator, after, split, isToken⟩
    | true =>
      have later : ∃ c ∈ rest, isWhitespace c = false := by
        obtain ⟨c, mem, isVisible⟩ := visible
        rcases mem_cons.mp mem with isFirst | inRest
        · rw [isFirst, here] at isVisible
          cases isVisible
        · exact ⟨c, inRest, isVisible⟩
      obtain ⟨blanks, token, separator, after, split, isToken⟩ := ih later
      refine ⟨first :: blanks, token, separator, after, congrArg (List.cons first) split, ?_,
        isToken.word, isToken.some, isToken.separates⟩
      exact forall_mem_cons.mpr ⟨here, isToken.blank⟩

lemma exists_token_of_line (feeds : ∃ before, rest = before ++ [0x0A])
    (visible : ∃ c ∈ rest, isWhitespace c = false) : ∃ blanks token separator after,
      rest = blanks ++ (token ++ separator :: after) ∧ Token blanks token separator := by
  obtain ⟨before, rfl⟩ := feeds
  obtain ⟨c, mem, isVisible⟩ := visible
  rcases mem_append.mp mem with inBefore | isEnd
  · exact exists_token_behind (by decide) ⟨c, inBefore, isVisible⟩
  · rw [mem_singleton.mp isEnd] at isVisible
    cases isVisible

namespace GenericParser

variable {parser : GenericParser} {lines : List (List UInt8)}

/-- The parser is inside a line, of which the text `rest` has not been read. -/
structure Stands (parser : GenericParser) (rest : List UInt8) (lines : List (List UInt8)) :
    Prop where
  lines : parser.lines = lines
  ok : parser.continueParse = true
  inLine : parser.fAtEndOfLine = false
  noNull : 0 ∉ rest
  place : (parser.fCurrentLine = some rest ∧ parser.fStartOfLineOfTokens = none) ∨
    ∃ before copied, parser.fCurrentLine = some (before ++ rest) ∧
      parser.fStartOfLineOfTokens = some (copied ++ rest) ∧ copied.length = before.length ∧
      parser.fCurrentTokenPlaceHolder = some before.length ∧ parser.fLineOfTokens ≤ before.length

/-- The parser is at a token, which stands behind `blanks` and ends at a separator that has been
overwritten in the copy of the line. -/
structure AtToken (parser : GenericParser) (before blanks token : List UInt8) (separator : UInt8)
    (after : List UInt8) (lines : List (List UInt8)) : Prop where
  lines : parser.lines = lines
  ok : parser.continueParse = true
  inLine : parser.fAtEndOfLine = false
  isToken : Token blanks token separator
  noNull : 0 ∉ blanks ++ (token ++ separator :: after)
  current : parser.fCurrentLine = some (before ++ (blanks ++ (token ++ separator :: after)))
  copied : ∃ copied, copied.length = before.length ∧
    parser.fStartOfLineOfTokens = some (copied ++ (blanks ++ (token ++ 0 :: after)))
  next : parser.fNextToken = .at (before.length + blanks.length)
  place : parser.fCurrentTokenPlaceHolder =
    some (before.length + blanks.length + token.length + 1)
  starting : parser.fLineOfTokens ≤ before.length

structure AtEnd (parser : GenericParser) (lines : List (List UInt8)) : Prop where
  lines : parser.lines = lines
  ok : parser.continueParse = true
  atEnd : parser.fAtEndOfLine = true
  next : parser.fNextToken = .crlf

lemma connected_of_ok (ok : parser.continueParse = true) : parser.stateDisconnected = false := by
  have both := Bool.and_eq_true_iff.mp ok
  exact (Bool.not_eq_eq_eq_not ..).mp both.2

lemma Stands.copyLine (stands : parser.Stands rest lines) :
    ∃ before copied, copied.length = before.length ∧
      parser.fCurrentLine = some (before ++ rest) ∧
      parser.copyLine = { parser with
        fStartOfLineOfTokens := some (copied ++ rest)
        fCurrentTokenPlaceHolder := some copied.length
        fLineOfTokens := parser.copyLine.fLineOfTokens } ∧
      parser.copyLine.fLineOfTokens ≤ before.length ∧
      (parser.fStartOfLineOfTokens = none → before = []) := by
  rcases stands.place with ⟨current, fresh⟩ | ⟨before, copied, current, copy, same, place, starting⟩
  · refine ⟨[], [], rfl, current, ?_, ?_, fun _ => rfl⟩
    · simp only [GenericParser.copyLine, fresh, current, nil_append, length_nil]
    · simp only [GenericParser.copyLine, fresh]
      exact Nat.le_refl _
  · have kept : parser.copyLine = parser := by
      simp only [GenericParser.copyLine, copy]
    refine ⟨before, copied, same, current, ?_, ?_, ?_⟩
    · rw [kept, same, ← copy, ← place]
    · rw [kept]
      exact starting
    · intro fresh
      rw [copy] at fresh
      cases fresh

lemma Stands.advanceToNextToken_eq (stands : parser.Stands rest lines) :
    parser.advanceToNextToken = parser.copyLine.nextToken := by
  have some_ : parser.fCurrentLine.isNone = false := by
    obtain ⟨_, _, _, current, _⟩ := stands.copyLine
    rw [current]
    rfl
  have goesOn : ¬ (parser.fCurrentLine.isNone = true ∨ parser.fAtEndOfLine = true) := by
    rw [some_, stands.inLine]
    decide
  rw [advanceToNextToken, if_neg goesOn, connected_of_ok stands.ok]
  rfl

lemma Stands.atToken (isToken : Token blanks token separator)
    (stands : parser.Stands (blanks ++ (token ++ separator :: after)) lines) :
    ∃ before, parser.advanceToNextToken.AtToken before blanks token separator after lines ∧
      (parser.fStartOfLineOfTokens = none → before = []) := by
  obtain ⟨before, copied, same, current, copy, starting, fresh⟩ := stands.copyLine
  refine ⟨before, ?_, fresh⟩
  rw [stands.advanceToNextToken_eq, nextToken, copy]
  dsimp only
  rw [Option.getD_some, nsStrtok_token isToken stands.noNull]
  refine ⟨stands.lines, stands.ok, ?_, isToken, stands.noNull, current, ⟨copied, same, rfl⟩, ?_, ?_,
    starting⟩
  · exact (Bool.or_false _).trans stands.inLine
  · rw [same]
  · rw [same]

lemma Stands.atEnd (stands : parser.Stands rest lines)
    (blank : ∀ c ∈ rest, isWhitespace c = true) : parser.advanceToNextToken.AtEnd lines := by
  obtain ⟨_, copied, _, _, copy, _, _⟩ := stands.copyLine
  rw [stands.advanceToNextToken_eq, nextToken, copy]
  dsimp only
  rw [Option.getD_some, nsStrtok_blank blank]
  exact ⟨stands.lines, stands.ok, Bool.or_true _, rfl⟩

lemma advanceTokenizerStartingPoint_fresh (fresh : parser.fStartOfLineOfTokens = none)
    (copied : parser.advanceToNextToken.fStartOfLineOfTokens.isNone = false)
    (bytesToAdvance : Nat) : parser.advanceTokenizerStartingPoint bytesToAdvance =
      parser.advanceToNextToken.advanceTokenizerStartingPoint bytesToAdvance := by
  rw [advanceTokenizerStartingPoint, advanceTokenizerStartingPoint, fresh, copied]
  rfl

section AtToken

variable (atToken : parser.AtToken before blanks token separator after lines)
include atToken

lemma AtToken.tokenText : parser.tokenText = some token := by
  obtain ⟨copied, same, copy⟩ := atToken.copied
  have noNull : 0 ∉ token := fun mem => atToken.noNull
    (mem_append_right _ (mem_append_left _ mem))
  have keeps : ∀ c ∈ token, (c != 0) = true :=
    fun c mem => bne_iff_ne.mpr fun isNull => noNull (isNull ▸ mem)
  rw [GenericParser.tokenText, atToken.next, copy, ← same, ← length_append,
    ← append_assoc]
  dsimp only
  rw [Option.getD_some, cString, drop_left, takeWhile_append_of_pos keeps,
    takeWhile_cons_of_neg (by decide), append_nil]

lemma AtToken.tokenDistance :
    parser.fLineOfTokens + parser.tokenDistance = before.length + blanks.length := by
  have starting := atToken.starting
  rw [GenericParser.tokenDistance, atToken.next]
  dsimp only
  omega

/-- The text behind a token that is read as a whole. -/
theorem AtToken.stands : parser.Stands after lines := by
  obtain ⟨copied, same, copy⟩ := atToken.copied
  have noNull : 0 ∉ after := fun mem => atToken.noNull
    (mem_append_right _ (mem_append_right _ (mem_cons_of_mem _ mem)))
  refine ⟨atToken.lines, atToken.ok, atToken.inLine, noNull, .inr
    ⟨before ++ (blanks ++ (token ++ [separator])), copied ++ (blanks ++ (token ++ [0])), ?_, ?_, ?_,
      ?_, ?_⟩⟩
  · rw [atToken.current]
    simp only [append_assoc, cons_append, nil_append]
  · rw [copy]
    simp only [append_assoc, cons_append, nil_append]
  · simp only [length_append, same, length_singleton]
  · rw [atToken.place]
    simp only [length_append, length_singleton, Nat.add_assoc]
  · rw [length_append]
    exact Nat.le_trans atToken.starting (Nat.le_add_right _ _)

lemma AtToken.skipBlanks :
    parser.AtToken (before ++ blanks) [] token separator after lines := by
  obtain ⟨copied, same, copy⟩ := atToken.copied
  have noBlank : ∀ c ∈ ([] : List UInt8), isWhitespace c = true :=
    fun c mem => absurd mem not_mem_nil
  have noNull : 0 ∉ token ++ separator :: after :=
    fun mem => atToken.noNull (mem_append_right _ mem)
  refine ⟨atToken.lines, atToken.ok, atToken.inLine, { atToken.isToken with blank := noBlank },
    noNull, ?_, ⟨copied ++ blanks, ?_, ?_⟩, ?_, ?_, ?_⟩
  · rw [append_assoc]
    exact atToken.current
  · rw [length_append, length_append, same]
  · rw [append_assoc]
    exact copy
  · rw [length_append]
    exact atToken.next
  · rw [length_append]
    exact atToken.place
  · rw [length_append]
    exact Nat.le_trans atToken.starting (Nat.le_add_right _ _)

lemma AtToken.startingPoint {bytesToAdvance count : Nat}
    (place : parser.fLineOfTokens + bytesToAdvance = before.length + count)
    (inside : count ≤ (blanks ++ (token ++ separator :: after)).length) :
    (parser.advanceTokenizerStartingPoint bytesToAdvance).Stands
      ((blanks ++ (token ++ separator :: after)).drop count) lines := by
  obtain ⟨copied, same, copy⟩ := atToken.copied
  have separatorAt : (before ++ (blanks ++ (token ++ separator :: after))).getD
      (before.length + blanks.length + token.length) 0 = separator := by
    rw [Nat.add_assoc, getD_append_right _ _ _ _ (Nat.le_add_right _ _),
      Nat.add_sub_cancel_left, getD_append_right _ _ _ _ (Nat.le_add_right _ _),
      Nat.add_sub_cancel_left, getD_append_right _ _ _ _ (Nat.le_refl _), Nat.sub_self,
      getD_cons_zero]
  have recovered : parser.recoverSeparator =
      copied ++ (blanks ++ (token ++ separator :: after)) := by
    rw [recoverSeparator, atToken.place, atToken.current, copy]
    dsimp only
    rw [Option.getD_some, Option.getD_some, separatorAt, ← same, Nat.add_assoc,
      set_append_right _ _ (Nat.le_add_right _ _), Nat.add_sub_cancel_left,
      set_append_right _ _ (Nat.le_add_right _ _), Nat.add_sub_cancel_left,
      set_append_right _ _ (Nat.le_refl _), Nat.sub_self, set_cons_zero]
  have advanced : parser.advanceTokenizerStartingPoint bytesToAdvance =
      { parser with
        fStartOfLineOfTokens := some (copied ++ (blanks ++ (token ++ separator :: after)))
        fLineOfTokens := before.length + count
        fCurrentTokenPlaceHolder := some (before.length + count) } := by
    have notNone : ¬ parser.fStartOfLineOfTokens.isNone = true := by
      rw [copy]
      exact Bool.false_ne_true
    rw [advanceTokenizerStartingPoint, if_neg notNone, if_neg notNone, recovered, place]
  rw [advanced]
  have noNull : 0 ∉ (blanks ++ (token ++ separator :: after)).drop count :=
    fun mem => atToken.noNull (mem_of_mem_drop mem)
  have split := take_append_drop count (blanks ++ (token ++ separator :: after))
  have taken : ((blanks ++ (token ++ separator :: after)).take count).length = count := by
    rw [length_take]
    exact Nat.min_eq_left inside
  refine ⟨atToken.lines, atToken.ok, atToken.inLine, noNull, .inr
    ⟨before ++ (blanks ++ (token ++ separator :: after)).take count,
      copied ++ (blanks ++ (token ++ separator :: after)).take count, ?_, ?_, ?_, ?_, ?_⟩⟩
  · rw [append_assoc, split]
    exact atToken.current
  · rw [append_assoc, split]
  · rw [length_append, length_append, same]
  · rw [length_append, taken]
  · rw [length_append, taken]

end AtToken

end GenericParser

end CommCentral.Imap
