import CommCentral.Imap.FlagAndUidState
import CommCentral.Lib.Ranges
import Mathlib.Data.List.Range

/-! UID sets in IMAP commands: `AllocateImapUidString` and `ParseUidString` of
`nsImapUtils.cpp`. A string is the list of its characters, without the final NUL. -/
namespace CommCentral.Imap
open List

/-- `nsCString::AppendInt` of a non-negative value. -/
def appendInt (value : Nat) : List Char := Nat.toDigits 10 value

/-- The length of `returnString` past which a UID set is cut off. -/
def maxUidStringLength : Nat := 950

/-- The out parameters and the locals of `AllocateImapUidString` that its loop changes.
An `nsTArray` holds fewer than `2^31` keys, so `curFlagStateIndex` does not wrap. -/
structure UidStringState where
  msgCount : Nat
  startSequence : Nat
  curSequenceEnd : Nat
  curFlagStateIndex : Int
  returnString : List Char
deriving Repr, DecidableEq

/-- One iteration either goes on to the next key or breaks out of the loop. -/
inductive LoopStep where
  | next (state : UidStringState)
  | stop (state : UidStringState)
deriving Repr, DecidableEq

/-- The lines after the attempts to extend the sequence: append it, check the length,
append the comma. -/
def emitSequence (flagState : Option FlagAndUidState) (keyIndex curKey nextKey : Nat)
    (state : UidStringState) : LoopStep :=
  let token := if state.curSequenceEnd > state.startSequence then
      appendInt state.startSequence ++ ':' :: appendInt state.curSequenceEnd
    else appendInt curKey
  let emitted := { state with
    returnString := state.returnString ++ token
    startSequence := nextKey
    curSequenceEnd := nextKey
    curFlagStateIndex := -1 }
  if flagState.isSome ∧ emitted.returnString.length > maxUidStringLength then
    .stop { emitted with msgCount := keyIndex }
  else if nextKey = msgKeyNone then .next emitted
  else .next { emitted with returnString := emitted.returnString ++ [','] }

/-- Compare the flag state's next UID with the next requested key. -/
def extendByFlagState (flagState : FlagAndUidState) (keyIndex curKey nextKey : Nat)
    (state : UidStringState) : LoopStep :=
  let advanced := { state with curFlagStateIndex := state.curFlagStateIndex + 1 }
  if flagState.getUidOfMessage advanced.curFlagStateIndex = nextKey then
    .next { advanced with curSequenceEnd := nextKey }
  else emitSequence (some flagState) keyIndex curKey nextKey advanced

/-- The loop body of `AllocateImapUidString`. -/
def allocateStep (flagState : Option FlagAndUidState) (keyIndex curKey nextKey : Nat)
    (state : UidStringState) : LoopStep :=
  if nextKey = msgKeyNone then
    emitSequence flagState keyIndex curKey nextKey { state with curSequenceEnd := curKey }
  else if nextKey = state.curSequenceEnd + 1 then
    .next { state with
      curSequenceEnd := nextKey
      curFlagStateIndex := state.curFlagStateIndex + 1 }
  else match flagState with
    | none => emitSequence none keyIndex curKey nextKey state
    | some known =>
      if state.curFlagStateIndex = -1 then
        let lookup := known.getMessageFlagsFromUID state.curSequenceEnd
        if lookup.foundIt then
          extendByFlagState known keyIndex curKey nextKey
            { state with curFlagStateIndex := lookup.ndx }
        else
          .next { state with
            curFlagStateIndex := -1
            startSequence := nextKey
            curSequenceEnd := nextKey }
      else extendByFlagState known keyIndex curKey nextKey state

def allocateLoop (flagState : Option FlagAndUidState) :
    Nat → List Nat → UidStringState → UidStringState
  | _, [], state => state
  | keyIndex, curKey :: rest, state =>
    match allocateStep flagState keyIndex curKey (rest.headD msgKeyNone) state with
    | .next continued => allocateLoop flagState (keyIndex + 1) rest continued
    | .stop stopped => stopped

/-- The locals at the start of the loop; `msgUids` are the first `msgCount` keys. -/
def startState (msgUids : List Nat) (returnString : List Char) : UidStringState where
  msgCount := msgUids.length
  startSequence := msgUids.headD msgKeyNone
  curSequenceEnd := msgUids.headD msgKeyNone
  curFlagStateIndex := -1
  returnString := returnString

def usableFlagState (flagState : Option FlagAndUidState) : Option FlagAndUidState :=
  flagState.filter (fun known => !known.fPartialUIDFetch)

def allocateImapUidString (msgUids : List Nat) (flagState : Option FlagAndUidState)
    (returnString : List Char) : UidStringState :=
  allocateLoop (usableFlagState flagState) 0 msgUids (startState msgUids returnString)

/-- White space that `strtoul` skips. -/
def isSpace (character : Char) : Bool := character ∈ [' ', '\t', '\n', '\x0b', '\x0c', '\r']

/-- The digits that `strtoul` reads, saturated at `ULONG_MAX`. -/
def digitsValue (text : List Char) : Nat :=
  min (2 ^ 64 - 1) (Nat.ofDigitChars 10 (text.takeWhile Char.isDigit) 0)

/-- `strtoul(text, nullptr, 10)` stored in a `uint32_t`. -/
def strtoul (text : List Char) : Nat :=
  match text.dropWhile isSpace with
  | '-' :: digits => (2 ^ 64 - digitsValue digits) % 2 ^ 32
  | '+' :: digits => digitsValue digits % 2 ^ 32
  | digits => digitsValue digits % 2 ^ 32

/-- The inner `while` of `ParseUidString` from a character that is no delimiter: the
delimiter it stops at (NUL at the end of the string) and the text after it. -/
def scanToken : List Char → Char × List Char
  | [] => ('\x00', [])
  | character :: rest =>
    if character = ':' ∨ character = ',' then (character, rest) else scanToken rest

/-- The `for` loop of `ParseUidString`. A token that starts with a delimiter is never
left again, so the loop has no result there. -/
def parseUidLoop : Nat → List Char → Bool → Nat → List Nat → Option (List Nat)
  | 0, _, _, _, _ => none
  | _ + 1, [], _, _, keys => some keys
  | fuel + 1, first :: text, isRange, saveStartToken, keys =>
    if first = ':' ∨ first = ',' then none
    else
      let curToken := strtoul (first :: text)
      let inRange := if isRange then List.range' saveStartToken (curToken - saveStartToken)
        else []
      let afterToken := scanToken (first :: text)
      if afterToken.1 = ':' then
        parseUidLoop fuel afterToken.2 true ((curToken + 1) % 2 ^ 32)
          (keys ++ inRange ++ [curToken])
      else
        parseUidLoop fuel afterToken.2 false saveStartToken (keys ++ inRange ++ [curToken])

/-- `ParseUidString`; `none` when it does not return. -/
def parseUidString (uidString : List Char) : Option (List Nat) :=
  parseUidLoop (uidString.length + 1) uidString false 0 []

/-! ### One run of the loop

The ranges that one run of the loop of `AllocateImapUidString` writes, and the UIDs that
`ParseUidString` reads from the string. -/

open Lib

/-- One token of a UID set: a single UID or `first:last`. -/
def rangeToken (range : Nat × Nat) : List Char :=
  if range.2 > range.1 then appendInt range.1 ++ ':' :: appendInt range.2
  else appendInt range.2

/-- Tokens joined by commas. -/
def rangesText : List (Nat × Nat) → List Char
  | [] => []
  | [range] => rangeToken range
  | range :: rest => rangeToken range ++ ',' :: rangesText rest

/-- The UIDs from the first to the last of a range. -/
def expandRange (range : Nat × Nat) : List Nat := List.range' range.1 (range.2 + 1 - range.1)

variable (ranges : List (Nat × Nat))

lemma mem_flatMap_expandRange (uid : Nat) :
    uid ∈ ranges.flatMap expandRange ↔ Covered ranges uid := by
  simp only [mem_flatMap, expandRange, mem_range'_1, Covered]
  constructor
  · rintro ⟨range, mem, lower, upper⟩
    exact ⟨range, mem, lower, by omega⟩
  · rintro ⟨range, mem, lower, upper⟩
    exact ⟨range, mem, lower, by omega⟩

lemma rangesText_cons_cons (range next : Nat × Nat) (rest) :
    rangesText (range :: next :: rest) = rangeToken range ++ ',' :: rangesText (next :: rest) :=
  rfl

private lemma isDigit_of_mem_appendInt {value : Nat} {character : Char}
    (mem : character ∈ appendInt value) : character.isDigit = true :=
  Nat.isDigit_of_mem_toDigits (by decide) (by decide) mem

private lemma not_delimiter_of_mem_appendInt {value : Nat} (mem : character ∈ appendInt value) :
    ¬ (character = ':' ∨ character = ',') := by
  have digit := isDigit_of_mem_appendInt mem
  rintro (rfl | rfl) <;> simp [Char.isDigit] at digit

variable (value : Nat)

private lemma appendInt_ne_nil : appendInt value ≠ [] := Nat.toDigits_ne_nil

private lemma takeWhile_isDigit_appendInt (rest : List Char)
    (delimited : ∀ character ∈ rest.head?, character.isDigit = false) :
    (appendInt value ++ rest).takeWhile Char.isDigit = appendInt value := by
  rw [takeWhile_append_of_pos (fun _ mem => isDigit_of_mem_appendInt mem)]
  cases rest with
  | nil => simp
  | cons character rest => simp [delimited character (by simp)]

/-- `strtoul` reads back what `AppendInt` wrote in front of a delimiter. -/
theorem strtoul_appendInt (rest : List Char) (bounded : value < 2 ^ 32)
    (delimited : ∀ character ∈ rest.head?, character.isDigit = false) :
    strtoul (appendInt value ++ rest) = value := by
  have read : digitsValue (appendInt value ++ rest) = value := by
    rw [digitsValue, takeWhile_isDigit_appendInt value rest delimited, appendInt,
      Nat.ofDigitChars_ten_toDigits]
    omega
  obtain ⟨first, digits, shape⟩ := exists_cons_of_ne_nil (appendInt_ne_nil value)
  have digit : first.isDigit = true := @isDigit_of_mem_appendInt value first (by rw [shape]; simp)
  have noSpace : isSpace first = false := by
    by_contra space
    simp only [isSpace, mem_cons, not_mem_nil, or_false, Bool.not_eq_false,
      decide_eq_true_eq] at space
    rcases space with rfl | rfl | rfl | rfl | rfl | rfl <;> simp [Char.isDigit] at digit
  have noMinus : first ≠ '-' := by rintro rfl; simp [Char.isDigit] at digit
  have noPlus : first ≠ '+' := by rintro rfl; simp [Char.isDigit] at digit
  have noSkip : (appendInt value ++ rest).dropWhile isSpace = appendInt value ++ rest := by
    simp [shape, noSpace]
  unfold strtoul
  rw [noSkip]
  split
  · rename_i same; simp [shape, noMinus] at same
  · rename_i same; simp [shape, noPlus] at same
  · rw [read, Nat.mod_eq_of_lt bounded]

lemma scanToken_append (token rest) (delimiter : Char)
    (plain : ∀ character ∈ token, ¬ (character = ':' ∨ character = ','))
    (stops : delimiter = ':' ∨ delimiter = ',') :
    scanToken (token ++ delimiter :: rest) = (delimiter, rest) := by
  induction token with
  | nil => simp [scanToken, stops]
  | cons character token ih =>
    have here := plain character (by simp)
    simp only [cons_append, scanToken, if_neg here]
    exact ih (fun other mem => plain other (by simp [mem]))

lemma scanToken_end (token) (plain : ∀ character ∈ token, ¬ (character = ':' ∨ character = ',')) :
    scanToken token = ('\x00', []) := by
  induction token with
  | nil => rfl
  | cons character token ih =>
    simp only [scanToken, if_neg (plain character (by simp))]
    exact ih (fun other mem => plain other (by simp [mem]))

/-- One turn of the `for` loop over a number and the text behind it. -/
private theorem parseUidLoop_token (fuel value : Nat) (rest : List Char) (isRange : Bool)
    (saveStartToken : Nat) (keys : List Nat) (bounded : value < 2 ^ 32)
    (delimited : ∀ character ∈ rest.head?, character = ':' ∨ character = ',') :
    parseUidLoop (fuel + 1) (appendInt value ++ rest) isRange saveStartToken keys =
      let inRange := if isRange then List.range' saveStartToken (value - saveStartToken) else []
      if rest.head? = some ':' then
        parseUidLoop fuel rest.tail true ((value + 1) % 2 ^ 32) (keys ++ inRange ++ [value])
      else parseUidLoop fuel rest.tail false saveStartToken (keys ++ inRange ++ [value]) := by
  obtain ⟨first, digits, shape⟩ := exists_cons_of_ne_nil (appendInt_ne_nil value)
  have plain : ∀ character ∈ appendInt value, ¬ (character = ':' ∨ character = ',') :=
    fun _ mem => not_delimiter_of_mem_appendInt mem
  have here : ¬ (first = ':' ∨ first = ',') := plain first (by simp [shape])
  have read : strtoul (appendInt value ++ rest) = value := by
    refine strtoul_appendInt value rest bounded ?_
    intro character mem
    rcases delimited character mem with rfl | rfl <;> rfl
  have scanned : scanToken (appendInt value ++ rest) =
      (rest.head?.getD '\x00', rest.tail) := by
    cases rest with
    | nil => simpa using scanToken_end _ plain
    | cons delimiter rest => exact scanToken_append _ rest delimiter plain (delimited _ rfl)
  have stop : (rest.head?.getD '\x00' = ':') ↔ rest.head? = some ':' := by
    cases rest with
    | nil => simp
    | cons delimiter rest => simp
  rw [shape, cons_append] at read scanned ⊢
  simp only [parseUidLoop, if_neg here, read, scanned, stop]

private lemma expandRange_split (first last : Nat) (proper : first < last) :
    [first] ++ List.range' (first + 1) (last - (first + 1)) ++ [last] =
      expandRange (first, last) := by
  have whole : last + 1 - first = 1 + (last - (first + 1)) + 1 := by omega
  have final : first + (1 + (last - (first + 1))) = last := by omega
  simp only [expandRange, whole]
  rw [← range'_append_1, ← range'_append_1]
  simp [final]

private lemma parseUidLoop_range (range : Nat × Nat) (rest : List Char)
    (saveStartToken : Nat) (keys : List Nat) (ordered : range.1 ≤ range.2)
    (bounded : range.2 < 2 ^ 32) (delimited : ∀ character ∈ rest.head?, character = ',') :
    ∃ (save used : Nat), used ≤ (rangeToken range).length ∧ ∀ fuel,
      parseUidLoop (fuel + used) (rangeToken range ++ rest) false saveStartToken keys =
        parseUidLoop fuel rest.tail false save (keys ++ expandRange range) := by
  obtain ⟨first, last⟩ := range
  have comma : rest.head? ≠ some ':' := by
    intro colon
    have same := delimited ':' colon
    simp at same
  by_cases proper : last > first
  · refine ⟨first + 1, 2, ?_, fun fuel => ?_⟩
    · have nonempty := length_pos_iff.mpr (appendInt_ne_nil first)
      simp only [rangeToken, if_pos proper, length_append, length_cons]
      omega
    · simp only [rangeToken, if_pos proper, append_assoc, cons_append]
      rw [parseUidLoop_token _ first _ _ _ _ (by simp at bounded; omega) (by simp)]
      simp only [head?_cons, if_true, tail_cons, Bool.false_eq_true, if_false,
        append_nil]
      rw [parseUidLoop_token _ last _ _ _ _ bounded (fun _ mem => .inr (delimited _ mem))]
      have small : (first + 1) % 2 ^ 32 = first + 1 := by
        simp only at bounded
        omega
      simp only [comma, if_false, if_true, small]
      rw [← expandRange_split first last proper]
      simp only [append_assoc]
  · obtain rfl : first = last := by simp at ordered; omega
    refine ⟨saveStartToken, 1, ?_, fun fuel => ?_⟩
    · simp only [rangeToken, gt_iff_lt, Nat.lt_irrefl, if_false]
      exact length_pos_iff.mpr (appendInt_ne_nil first)
    · simp only [rangeToken, gt_iff_lt, Nat.lt_irrefl, if_false]
      rw [parseUidLoop_token _ first _ _ _ _ bounded (fun _ mem => .inr (delimited _ mem))]
      have single : first + 1 - first = 1 := by omega
      simp [comma, expandRange, single]

private lemma parseUidLoop_mono (fuel extra : Nat) (text : List Char) (isRange : Bool)
    (saveStartToken : Nat) (keys parsed : List Nat)
    (done : parseUidLoop fuel text isRange saveStartToken keys = some parsed) :
    parseUidLoop (fuel + extra) text isRange saveStartToken keys = some parsed := by
  induction fuel generalizing text isRange saveStartToken keys with
  | zero => simp [parseUidLoop] at done
  | succ fuel ih =>
    rw [Nat.succ_add]
    cases text with
    | nil => simpa [parseUidLoop] using done
    | cons first text =>
      simp only [parseUidLoop] at done ⊢
      split
      · rename_i delimiter; simp [delimiter] at done
      · rename_i plain
        rw [if_neg plain] at done
        split
        · rename_i colon; rw [if_pos colon] at done; exact ih _ _ _ _ done
        · rename_i other; rw [if_neg other] at done; exact ih _ _ _ _ done

/-- The keys that are read go behind those that are there. -/
theorem parseUidLoop_rangesText
    (wellFormed : ∀ range ∈ ranges, range.1 ≤ range.2 ∧ range.2 < 2 ^ 32) (saveStartToken : Nat)
    (keys : List Nat) :
    parseUidLoop ((rangesText ranges).length + 1) (rangesText ranges) false saveStartToken keys =
      some (keys ++ ranges.flatMap expandRange) := by
  induction ranges generalizing saveStartToken keys with
  | nil => simp [rangesText, parseUidLoop]
  | cons range rest ih =>
    obtain ⟨ordered, bounded⟩ := wellFormed range (by simp)
    cases rest with
    | nil =>
      obtain ⟨save, used, used_le, advance⟩ :=
        parseUidLoop_range range [] saveStartToken keys ordered bounded (by simp)
      have step := advance ((rangeToken range).length - used + 1)
      have fuel : (rangeToken range).length - used + 1 + used = (rangeToken range).length + 1 := by
        omega
      rw [fuel, append_nil] at step
      rw [show rangesText [range] = rangeToken range from rfl, step]
      simp [parseUidLoop]
    | cons next rest =>
      have tail := ih (fun other mem => wellFormed other (by simp [mem]))
      rw [rangesText_cons_cons]
      obtain ⟨save, used, used_le, advance⟩ := parseUidLoop_range range
        (',' :: rangesText (next :: rest)) saveStartToken keys ordered bounded (by simp)
      have step := advance
        ((rangeToken range).length - used + 1 + (rangesText (next :: rest)).length + 1)
      have enough := parseUidLoop_mono _ ((rangeToken range).length - used + 1) _ _ _ _ _
        (tail save (keys ++ expandRange range))
      have fuel : (rangeToken range ++ ',' :: rangesText (next :: rest)).length + 1 =
          (rangeToken range).length - used + 1 + (rangesText (next :: rest)).length + 1 + used := by
        simp only [length_append, length_cons]
        omega
      have reorder : (rangeToken range).length - used + 1 + (rangesText (next :: rest)).length + 1 =
          (rangesText (next :: rest)).length + 1 + ((rangeToken range).length - used + 1) := by
        omega
      rw [fuel, step, tail_cons, reorder, enough]
      simp

lemma parseUidString_rangesText
    (wellFormed : ∀ range ∈ ranges, range.1 ≤ range.2 ∧ range.2 < 2 ^ 32) :
    parseUidString (rangesText ranges) = some (ranges.flatMap expandRange) := by
  simpa [parseUidString] using parseUidLoop_rangesText ranges wellFormed 0 []

end CommCentral.Imap
