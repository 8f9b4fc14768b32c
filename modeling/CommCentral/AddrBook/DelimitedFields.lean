import CommCentral.AddrBook.DelimitedText

/-! What `GetField` reads of an exported value: all of it up to the first two double quotes that
stand next to each other. -/
namespace CommCentral.AddrBook

open Jsmime List

def HasAdjacentQuotes (value : JsString) : Prop := [doubleQuote, doubleQuote] <:+: value

/-- The delimiters an address book is exported with. -/
def IsDelimiter (delimiter : UInt16) : Prop := delimiter = comma ∨ delimiter = tab

/-- Nothing of the value is taken for filling around a field. -/
structure Unpadded (value : JsString) : Prop where
  noNul : 0 ∉ value
  first : ∀ c, value.head? = some c → isBlank c = false
  last : ∀ c, value.getLast? = some c → isBlank c = false

/-- The value up to the first of two adjacent quotes. -/
def upToPair : JsString → JsString
  | [] => []
  | [c] => [c]
  | c :: d :: rest =>
    if c = doubleQuote ∧ d = doubleQuote then [c]
    else if c = doubleQuote then c :: d :: upToPair rest
    else c :: upToPair (d :: rest)

lemma upToPair_initial (value) : upToPair value <+: value := by
  fun_induction upToPair value with
  | case1 | case2 => exact prefix_rfl
  | case3 c d rest pair => exact ⟨d :: rest, rfl⟩
  | case4 d rest _ ih => exact (prefix_append_right_inj [doubleQuote, d]).mpr ih
  | case5 c d rest _ _ ih => exact (prefix_append_right_inj [c]).mpr ih

lemma hasAdjacentQuotes_cons (c d : UInt16) (rest) :
    HasAdjacentQuotes (c :: d :: rest) ↔
      (c = doubleQuote ∧ d = doubleQuote) ∨ HasAdjacentQuotes (d :: rest) := by
  unfold HasAdjacentQuotes
  rw [infix_cons_iff, cons_prefix_cons, cons_prefix_cons]
  simp only [ nil_prefix, and_true, eq_comm]

lemma not_hasAdjacentQuotes_singleton (c : UInt16) : ¬ HasAdjacentQuotes [c] := by
  intro adjacent
  exact absurd adjacent.length_le (by rw [length_singleton]; decide)

lemma not_hasAdjacentQuotes_nil : ¬ HasAdjacentQuotes [] := by
  intro adjacent
  exact absurd adjacent.length_le (by decide)

lemma upToPair_eq_self_iff (value) : upToPair value = value ↔ ¬ HasAdjacentQuotes value := by
  fun_induction upToPair value with
  | case1 => exact iff_of_true rfl not_hasAdjacentQuotes_nil
  | case2 c => exact iff_of_true rfl (not_hasAdjacentQuotes_singleton c)
  | case3 c d rest pair =>
    rw [hasAdjacentQuotes_cons]
    simp only [pair, and_self, true_or, not_true, iff_false]
    exact fun same => cons_ne_nil _ _ (List.cons.inj same).2.symm
  | case4 d rest notPair ih =>
    have single : d ≠ doubleQuote := fun same => notPair ⟨rfl, same⟩
    rw [hasAdjacentQuotes_cons]
    simp only [List.cons.injEq, true_and, ih, single, and_false, false_or]
    cases rest with
    | nil => exact iff_of_true not_hasAdjacentQuotes_nil (not_hasAdjacentQuotes_singleton d)
    | cons e rest =>
      rw [hasAdjacentQuotes_cons d]
      simp only [single, false_and, false_or]
  | case5 c d rest _ notQuote ih =>
    rw [hasAdjacentQuotes_cons]
    simp only [List.cons.injEq, true_and, ih, notQuote, false_and, false_or]

lemma quote_mem_upToPair (value) : doubleQuote ∈ upToPair value ↔ doubleQuote ∈ value := by
  fun_induction upToPair value with
  | case1 => exact Iff.rfl
  | case2 => exact Iff.rfl
  | case3 c d rest pair => simp only [pair, mem_cons, true_or]
  | case4 => simp only [mem_cons, true_or]
  | case5 c d rest _ notQuote ih => rw [mem_cons, ih, mem_cons (a := doubleQuote) (b := c)]

lemma doubleQuotes_quote (value) :
    doubleQuotes (doubleQuote :: value) = doubleQuote :: doubleQuote :: doubleQuotes value := rfl

lemma doubleQuotes_other (other : c ≠ doubleQuote) (value) :
    doubleQuotes (c :: value) = c :: doubleQuotes value := by
  simp only [doubleQuotes, flatMap_cons, if_neg other, singleton_append]

variable {value : JsString}

lemma doubleQuotes_eq_self (none : doubleQuote ∉ value) :
    doubleQuotes value = value := by
  induction value with
  | nil => rfl
  | cons c value ih =>
    obtain ⟨other, none⟩ := ne_and_not_mem_of_not_mem_cons none
    rw [doubleQuotes_other (Ne.symm other), ih none]

/-- The pairs that the export makes are the ones that are cut. -/
theorem cutQuotes_doubleQuotes (value : JsString) : cutQuotes (doubleQuotes value) = value := by
  induction value with
  | nil => rfl
  | cons c value ih =>
    by_cases quote : c = doubleQuote
    · subst quote
      rw [doubleQuotes_quote, cutQuotes, if_pos ⟨rfl, rfl⟩, ih]
    · rw [doubleQuotes_other quote]
      cases doubled : doubleQuotes value with
      | nil =>
        rw [doubled] at ih
        rw [cutQuotes, ← ih]
        rfl
      | cons d rest => rw [cutQuotes, if_neg fun pair => quote pair.1, ← doubled, ih]

/-- What follows a field in a row. -/
def FieldEnd (delim : UInt16) (rest : JsString) : Prop := rest = [] ∨ ∃ later, rest = delim :: later

lemma FieldEnd.head_ne_quote (delimiter : IsDelimiter delim) (ends : FieldEnd delim (c :: rest)) :
    c ≠ doubleQuote := by
  rcases ends with none | ⟨later, same⟩
  · exact absurd none (cons_ne_nil c rest)
  · rw [(List.cons.inj same).1]
    rcases delimiter with rfl | rfl <;> decide

lemma scanQuoted_closing (delimiter : IsDelimiter delim) (ends : FieldEnd delim rest) :
    scanQuoted (doubleQuote :: rest) = { rest := doubleQuote :: rest } := by
  cases rest with
  | nil => rfl
  | cons c rest =>
    have other := ends.head_ne_quote delimiter
    unfold scanQuoted
    simp only [other, and_false, if_false, if_true]

lemma scanQuoted_other (other : c ≠ doubleQuote) (text) :
    scanQuoted (c :: text) = (scanQuoted text).after [c] false := by
  cases text with
  | nil =>
    unfold scanQuoted
    simp only [if_neg other]
    rfl
  | cons d rest =>
    conv_lhs => unfold scanQuoted
    simp only [other, false_and, if_false]

lemma scanQuoted_pair (other : c ≠ doubleQuote) (text) :
    scanQuoted (doubleQuote :: doubleQuote :: c :: text) =
      (scanQuoted text).after [doubleQuote, doubleQuote, c] true := by
  rw [scanQuoted, if_pos ⟨rfl, rfl⟩, if_neg other]

/-- The quote after a doubled one ends the scan, whether or not it is doubled itself. -/
theorem scanQuoted_pair_quote (text : JsString) :
    scanQuoted (doubleQuote :: doubleQuote :: doubleQuote :: text) =
      { passed := [doubleQuote, doubleQuote], quoted := true, rest := doubleQuote :: text } := by
  rw [scanQuoted, if_pos ⟨rfl, rfl⟩, if_pos rfl]

/-- The scan of a quoted value stops at the first pair of adjacent quotes, or where it is
closed. -/
structure ScansValue (value rest : JsString) (scanned : Scanned) : Prop where
  passed : scanned.passed = doubleQuotes (upToPair value)
  quoted : scanned.quoted = value.contains doubleQuote
  rest : ¬ HasAdjacentQuotes value → scanned.rest = doubleQuote :: rest

lemma scanQuoted_value (delimiter : IsDelimiter delim) (ends : FieldEnd delim rest) (value) :
    ScansValue value rest (scanQuoted (doubleQuotes value ++ doubleQuote :: rest)) := by
  fun_induction upToPair value with
  | case1 =>
    change ScansValue [] rest (scanQuoted (doubleQuote :: rest))
    rw [scanQuoted_closing delimiter ends]
    exact ⟨rfl, rfl, fun _ => rfl⟩
  | case2 c =>
    by_cases quote : c = doubleQuote
    · subst quote
      change ScansValue _ rest (scanQuoted (doubleQuote :: doubleQuote :: doubleQuote :: rest))
      rw [scanQuoted_pair_quote]
      exact ⟨rfl, rfl, fun _ => rfl⟩
    · rw [doubleQuotes_other quote]
      change ScansValue _ rest (scanQuoted (c :: doubleQuote :: rest))
      rw [scanQuoted_other quote, scanQuoted_closing delimiter ends]
      refine ⟨?_, ?_, fun _ => rfl⟩
      · rw [upToPair, doubleQuotes_other quote]
        rfl
      · simp [Scanned.after, Ne.symm quote]
  | case3 c d later pair =>
    obtain ⟨rfl, rfl⟩ := pair
    change ScansValue _ rest (scanQuoted (doubleQuote :: doubleQuote :: doubleQuote :: _))
    rw [scanQuoted_pair_quote]
    refine ⟨?_, by simp, ?_⟩
    · rw [upToPair, if_pos ⟨rfl, rfl⟩]
      rfl
    · intro single
      exact absurd ((hasAdjacentQuotes_cons _ _ _).mpr (.inl ⟨rfl, rfl⟩)) single
  | case4 d later notPair ih =>
    have other : d ≠ doubleQuote := fun same => notPair ⟨rfl, same⟩
    rw [doubleQuotes_quote, doubleQuotes_other other]
    change ScansValue _ rest (scanQuoted (doubleQuote :: doubleQuote :: d :: (doubleQuotes later ++ _)))
    rw [scanQuoted_pair other]
    refine ⟨?_, by simp [Scanned.after], ?_⟩
    · rw [upToPair, if_neg notPair, if_pos rfl, doubleQuotes_quote, doubleQuotes_other other]
      exact congrArg ([doubleQuote, doubleQuote, d] ++ ·) ih.passed
    · intro single
      apply ih.rest
      intro adjacent
      exact single (adjacent.trans (infix_cons (infix_cons infix_rfl)))
  | case5 c d later _ notQuote ih =>
    rw [doubleQuotes_other notQuote]
    change ScansValue _ rest (scanQuoted (c :: (doubleQuotes (d :: later) ++ _)))
    rw [scanQuoted_other notQuote]
    refine ⟨?_, ?_, ?_⟩
    · rw [upToPair, if_neg fun pair => notQuote pair.1, if_neg notQuote,
        doubleQuotes_other notQuote]
      exact congrArg (c :: ·) ih.passed
    · rw [contains_cons, ← ih.quoted]
      simp [Scanned.after, Ne.symm notQuote]
    · intro single
      apply ih.rest
      intro adjacent
      exact single (adjacent.trans (infix_cons infix_rfl))

lemma exportValue_cases (value) :
    exportValue value = doubleQuote :: (doubleQuotes value ++ [doubleQuote]) ∨
      exportValue value = value ∧ doubleQuote ∉ value ∧
        ∀ c ∈ value, c ∉ [comma, tab, carriageReturn, lineFeed] := by
  unfold exportValue
  split
  · exact .inl rfl
  · rename_i quote
    have noQuote : doubleQuote ∉ value := by simpa using quote
    split
    · rw [doubleQuotes_eq_self noQuote]
      exact .inl rfl
    · rename_i special
      refine .inr ⟨rfl, noQuote, ?_⟩
      simpa only [any_eq_true, not_exists, not_and, contains_iff_mem] using special

lemma skipBlanks_cons (delim : UInt16) (text) (notBlank : isBlank c = false) (notNul : c ≠ 0) :
    skipBlanks delim (c :: text) = c :: text := by
  apply dropWhile_cons_of_neg
  simp only [isBlank, contains_eq_mem, mem_cons, not_or, decide_eq_false_iff_not]
    at notBlank
  split <;> simp [notBlank, notNul]

lemma skipBlanks_fieldEnd (delimiter : IsDelimiter delim) (ends : FieldEnd delim rest) :
    skipBlanks delim rest = rest := by
  rcases ends with rfl | ⟨later, rfl⟩
  · rfl
  · apply dropWhile_cons_of_neg
    rcases delimiter with rfl | rfl <;> decide

lemma Unpadded.skipBlanks (unpadded : Unpadded value) (delimiter : IsDelimiter delim)
    (ends : FieldEnd delim rest) : skipBlanks delim (value ++ rest) = value ++ rest := by
  cases value with
  | nil => exact skipBlanks_fieldEnd delimiter ends
  | cons c value =>
    apply skipBlanks_cons
    · exact unpadded.first c rfl
    · intro nul
      exact unpadded.noNul (by rw [nul]; exact mem_cons_self)

lemma Unpadded.trim (unpadded : Unpadded value) : trim value = value := by
  have started : value.dropWhile isBlank = value := by
    cases value with
    | nil => rfl
    | cons c value => exact dropWhile_cons_of_neg (by simp [unpadded.first c rfl])
  unfold AddrBook.trim
  rw [started, rdropWhile_eq_self_iff]
  intro some
  simp [unpadded.last _ (getLast?_eq_some_getLast some)]

/-- What is cut off is cut off behind a quote. -/
theorem upToPair_eq_or_last (value : JsString) :
    upToPair value = value ∨ (upToPair value).getLast? = some doubleQuote := by
  fun_induction upToPair value with
  | case1 => exact .inl rfl
  | case2 => exact .inl rfl
  | case3 d e rest pair =>
    rw [pair.1]
    exact .inr rfl
  | case4 d rest _ ih | case5 d e rest _ _ ih =>
    rcases ih with same | last
    · exact .inl (by rw [same])
    · exact .inr (by simp only [getLast?_cons, last, Option.getD_some])

lemma Unpadded.upToPair (unpadded : Unpadded value) :
    Unpadded (upToPair value) where
  noNul := fun nul => unpadded.noNul ((upToPair_initial value).subset nul)
  first := by
    intro c first
    apply unpadded.first c
    obtain ⟨rest, whole⟩ := upToPair_initial value
    rw [← whole, head?_append, first]
    rfl
  last := by
    intro c last
    rcases upToPair_eq_or_last value with same | quote
    · rw [same] at last
      exact unpadded.last c last
    · rw [quote] at last
      cases last
      decide

lemma doubleQuotes_head? (value) : (doubleQuotes value).head? = value.head? := by
  cases value with
  | nil => rfl
  | cons c value =>
    by_cases quote : c = doubleQuote
    · rw [quote, doubleQuotes_quote]
      rfl
    · rw [doubleQuotes_other quote]
      rfl

lemma doubleQuotes_getLast? (value) : (doubleQuotes value).getLast? = value.getLast? := by
  induction value with
  | nil => rfl
  | cons c value ih =>
    by_cases quote : c = doubleQuote
    · rw [quote, doubleQuotes_quote]
      simp only [getLast?_cons, ih, Option.getD_some]
    · rw [doubleQuotes_other quote]
      simp only [getLast?_cons, ih]

lemma mem_doubleQuotes {value : JsString} : c ∈ doubleQuotes value ↔ c ∈ value := by
  induction value with
  | nil => exact Iff.rfl
  | cons d value ih =>
    by_cases quote : d = doubleQuote
    · rw [quote, doubleQuotes_quote]
      simp only [mem_cons, ih, or_self_left]
    · rw [doubleQuotes_other quote, mem_cons, mem_cons, ih]

lemma Unpadded.doubleQuotes (unpadded : Unpadded value) :
    Unpadded (doubleQuotes value) where
  noNul := fun nul => unpadded.noNul (mem_doubleQuotes.mp nul)
  first := fun c first => unpadded.first c (doubleQuotes_head? value ▸ first)
  last := fun c last => unpadded.last c (doubleQuotes_getLast? value ▸ last)

lemma takeWhile_value {value delim rest} (delimiter : IsDelimiter delim)
    (ends : FieldEnd delim rest)
    (plain : ∀ c ∈ value, c ∉ [comma, tab, carriageReturn, lineFeed]) :
    (value ++ rest).takeWhile (· != delim) = value ∧
      (value ++ rest).dropWhile (· != delim) = rest := by
  have inside : ∀ c ∈ value, (c != delim) = true := by
    intro c mem
    have special := plain c mem
    rcases delimiter with rfl | rfl <;>
      exact bne_iff_ne.mpr fun same => special (by rw [same]; decide)
  have outside : rest.takeWhile (· != delim) = [] ∧ rest.dropWhile (· != delim) = rest := by
    rcases ends with rfl | ⟨later, rfl⟩
    · exact ⟨rfl, rfl⟩
    · simp
  rw [takeWhile_append_of_pos inside, dropWhile_append_of_pos inside, outside.1,
    outside.2, append_nil]
  exact ⟨rfl, rfl⟩

lemma readField_exportValue (unpadded : Unpadded value) (delimiter : IsDelimiter delim)
    (ends : FieldEnd delim rest) :
    readField delim (exportValue value ++ rest) = upToPair value := by
  rcases exportValue_cases value with quoted | ⟨same, noQuote, plain⟩
  · have text : exportValue value ++ rest =
        doubleQuote :: (doubleQuotes value ++ doubleQuote :: rest) := by
      rw [quoted, cons_append, append_assoc]
      rfl
    have scan := scanQuoted_value delimiter ends value
    have trimmed := unpadded.upToPair.doubleQuotes.trim
    rw [readField, text, skipBlanks_cons _ _ (by decide) (by decide)]
    dsimp only
    rw [if_pos rfl, scan.passed, scan.quoted, trimmed]
    split
    · exact cutQuotes_doubleQuotes _
    · rename_i noQuote
      apply doubleQuotes_eq_self
      rw [quote_mem_upToPair]
      simpa using noQuote
  · have whole : upToPair value = value := by
      rw [upToPair_eq_self_iff]
      exact fun adjacent => noQuote (adjacent.subset mem_cons_self)
    have taken := (takeWhile_value delimiter ends plain).1
    rw [readField, same, unpadded.skipBlanks delimiter ends, whole]
    cases split : value ++ rest with
    | nil => exact (append_eq_nil_iff.mp split).1.symm
    | cons c body =>
      have other : c ≠ doubleQuote := by
        cases value with
        | nil =>
          rw [nil_append] at split
          exact (split ▸ ends).head_ne_quote delimiter
        | cons d value =>
          rw [← (List.cons.inj split).1]
          exact fun same => noQuote (same ▸ mem_cons_self)
      dsimp only
      rw [if_neg other, ← split, taken, unpadded.trim]

lemma skipField_exportValue (unpadded : Unpadded value) (delimiter : IsDelimiter delim)
    (single : ¬ HasAdjacentQuotes value) (later) :
    skipField delim (exportValue value ++ delim :: later) = later := by
  have ends : FieldEnd delim (delim :: later) := .inr ⟨later, rfl⟩
  rcases exportValue_cases value with quoted | ⟨same, noQuote, plain⟩
  · have text : exportValue value ++ delim :: later =
        doubleQuote :: (doubleQuotes value ++ doubleQuote :: delim :: later) := by
      rw [quoted, cons_append, append_assoc]
      rfl
    have scan := scanQuoted_value delimiter ends value
    rw [skipField, text, skipBlanks_cons _ _ (by decide) (by decide)]
    dsimp only
    rw [if_pos rfl, scan.rest single]
    simp
  · have dropped := (takeWhile_value delimiter ends plain).2
    rw [skipField, same, unpadded.skipBlanks delimiter ends]
    cases split : value ++ delim :: later with
    | nil => simp at split
    | cons c body =>
      have other : c ≠ doubleQuote := by
        cases value with
        | nil =>
          rw [nil_append] at split
          exact (split ▸ ends).head_ne_quote delimiter
        | cons d value =>
          rw [← (List.cons.inj split).1]
          exact fun same => noQuote (same ▸ mem_cons_self)
      dsimp only
      rw [if_neg other, ← split, dropped]
      rfl

/-- The values of one card as the export writes them. -/
def fieldsText (delim : UInt16) : List JsString → JsString
  | [] => []
  | [value] => exportValue value
  | value :: next :: values => exportValue value ++ delim :: fieldsText delim (next :: values)

lemma getField_zero (delim : UInt16) (text) : (getField text 0 delim).2 = readField delim text := by
  cases text <;> rfl

lemma getField_succ (delim : UInt16) (text) (index : Nat) :
    getField text (index + 1) delim = getField (skipField delim text) index delim := rfl

lemma getField_fieldsText_iff (delimiter : IsDelimiter delim)
    (unpadded : ∀ value ∈ values, Unpadded value) :
    (∀ (index : Nat) (bound : index < values.length),
        (getField (fieldsText delim values) index delim).2 = values[index]) ↔
      ∀ value ∈ values, ¬ HasAdjacentQuotes value := by
  fun_induction fieldsText delim values with
  | case1 => exact iff_of_true (fun _ bound => absurd bound (Nat.not_lt_zero _)) (fun _ => nofun)
  | case2 value =>
    have read := readField_exportValue (unpadded value mem_cons_self) delimiter (.inl rfl)
    rw [append_nil] at read
    rw [forall_mem_singleton, ← upToPair_eq_self_iff]
    constructor
    · intro all
      rw [← read, ← getField_zero]
      exact all 0 Nat.one_pos
    · intro whole index bound
      cases Nat.lt_one_iff.mp bound
      rw [getField_zero, read]
      exact whole
  | case3 value next values ih =>
    have here := unpadded value mem_cons_self
    have read := readField_exportValue here delimiter
      (.inr ⟨fieldsText delim (next :: values), rfl⟩)
    have ih := ih fun value mem => unpadded value (mem_cons_of_mem _ mem)
    have later : ¬ HasAdjacentQuotes value → ∀ index,
        getField (exportValue value ++ delim :: fieldsText delim (next :: values)) (index + 1)
          delim = getField (fieldsText delim (next :: values)) index delim := by
      intro single index
      rw [getField_succ, skipField_exportValue here delimiter single]
    rw [forall_mem_cons]
    constructor
    · intro all
      have whole : upToPair value = value := by
        rw [← read, ← getField_zero]
        exact all 0 (Nat.succ_pos _)
      have single := (upToPair_eq_self_iff value).mp whole
      refine ⟨single, ih.mp ?_⟩
      intro index bound
      rw [← later single]
      exact all (index + 1) (Nat.succ_lt_succ bound)
    · intro ⟨single, others⟩ index bound
      cases index with
      | zero =>
        rw [getField_zero, read]
        exact (upToPair_eq_self_iff value).mpr single
      | succ index =>
        rw [later single]
        exact ih.mpr others index (Nat.lt_of_succ_lt_succ bound)

end CommCentral.AddrBook
