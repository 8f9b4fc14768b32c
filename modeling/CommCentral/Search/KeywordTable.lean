import CommCentral.Lib.Decision
import Mathlib.Data.List.Dedup
import CommCentral.Search.SearchTerm

/-! Keywords are matched as the logic table of `MatchKeyword` says, for different tokens. -/
namespace CommCentral.Search

open Lib List

def keywordOps : List MsgSearchOp := [.isEmpty, .isntEmpty, .contains, .doesntContain, .is, .isnt]

/-- The logic table of `MatchKeyword`: the result for a number of valid tokens, and for whether
the term was found. -/
def logicTable (operator : MsgSearchOp) (found : Bool) : (validTokens : Nat) → Bool
  | 0 => operator ∈ [.isEmpty, .doesntContain, .isnt]
  | 1 =>
    if found then operator ∈ [.isntEmpty, .contains, .is]
    else operator ∈ [.isntEmpty, .doesntContain, .isnt]
  | _ + 2 =>
    if found then operator ∈ [.isntEmpty, .contains, .isnt]
    else operator ∈ [.isntEmpty, .doesntContain, .isnt]

variable (found : Bool)

lemma logicTable_isEmpty (validTokens : Nat) :
    logicTable .isEmpty found validTokens = decide (validTokens = 0) := by
  match validTokens with
  | 0 => rfl
  | 1 => cases found <;> rfl
  | _ + 2 => cases found <;> rfl

lemma logicTable_isntEmpty (validTokens : Nat) :
    logicTable .isntEmpty found validTokens = decide (validTokens ≠ 0) := by
  match validTokens with
  | 0 => rfl
  | 1 => cases found <;> rfl
  | _ + 2 => cases found <;> rfl

lemma logicTable_contains {found : Bool} (some : found = true → validTokens ≠ 0) :
    logicTable .contains found validTokens = found ∧
      logicTable .doesntContain found validTokens = !found := by
  match validTokens with
  | 0 =>
    have notFound : found = false := Bool.eq_false_iff.mpr fun isFound => some isFound rfl
    rw [notFound]
    exact ⟨rfl, rfl⟩
  | 1 => cases found <;> exact ⟨rfl, rfl⟩
  | _ + 2 => cases found <;> exact ⟨rfl, rfl⟩

lemma logicTable_is (validTokens : Nat) :
    logicTable .is found validTokens = (found && decide (validTokens = 1)) ∧
      logicTable .isnt found validTokens = !(found && decide (validTokens = 1)) := by
  match validTokens with
  | 0 => cases found <;> exact ⟨rfl, rfl⟩
  | 1 => cases found <;> exact ⟨rfl, rfl⟩
  | _ + 2 => cases found <;> exact ⟨rfl, rfl⟩

def tokensFor (operator : MsgSearchOp) (tagKeys : List (List UInt8)) (keywordList : List UInt8) :
    List (List UInt8) :=
  if operator = .contains ∨ operator = .doesntContain then tokens 32 keywordList
  else (tokens 32 keywordList).filter (· ∈ tagKeys)

section Scan

variable {text value : List UInt8}

lemma findKeyword_iff (noNul : 0 ∉ text) (isToken : value ≠ []) (noSpace : 32 ∉ value)
    (noNulInValue : 0 ∉ value) (enough : text.length < place + steps) :
    findKeyword text value steps place = true ↔
      ∃ later, place ≤ later ∧ StandsAt 32 value text later := by
  induction steps generalizing place with
  | zero =>
    refine iff_of_false (by simp [findKeyword]) ?_
    rintro ⟨later, after, stands⟩
    have occurs := stands.occurs
    rw [drop_of_length_le (by omega), prefix_nil] at occurs
    exact isToken occurs
  | succ steps ih =>
    have noNulInRest : 0 ∉ text.drop place := fun mem => noNul (mem_of_mem_drop mem)
    have searched : strstr (text.drop place) value = firstOccurrence value (text.drop place) := by
      rw [strstr, cString_eq_self noNulInValue, cString_eq_self noNulInRest, if_neg isToken]
    rw [findKeyword, searched, cString_eq_self noNul]
    cases found : firstOccurrence value (text.drop place) with
    | none =>
      refine iff_of_false (by simp) ?_
      rintro ⟨later, after, stands⟩
      have occurs := stands.occurs
      have nowhere := firstOccurrence_none isToken found (later - place)
      rw [drop_drop, Nat.add_sub_cancel' after] at nowhere
      exact nowhere occurs
    | some offset =>
      obtain ⟨here, before⟩ := firstOccurrence_some found
      rw [drop_drop] at here
      dsimp only
      split
      · rename_i bounded
        exact iff_of_true rfl ⟨place + offset, Nat.le_add_right _ _, here, bounded.1, bounded.2⟩
      · rename_i unbounded
        have positive : 0 < value.length := length_pos_iff.mpr isToken
        rw [ih (by omega)]
        constructor
        · rintro ⟨later, after, stands⟩
          exact ⟨later, by omega, stands⟩
        · rintro ⟨later, after, stands⟩
          refine ⟨later, ?_, stands⟩
          -- an occurrence that overlaps this one begins inside of it, behind no space
          by_contra overlapping
          rcases Nat.lt_trichotomy later (place + offset) with earlier | same | inside
          · have notHere := before (later - place) (by omega)
            rw [drop_drop, Nat.add_sub_cancel' after] at notHere
            exact notHere stands.occurs
          · rw [same] at stands
            exact unbounded ⟨stands.starts, stands.ends⟩
          · exact StandsAt.not_inside noSpace here inside (Nat.not_le.mp overlapping) stands

end Scan

section Tokens

variable {term : MsgSearchTerm} {isValidKey : List UInt8 → Bool}

section

variable (keywordArray : List (List UInt8)) (lastMatched : Bool)
include keywordArray lastMatched

/-- The loop over tokens sees only the valid ones. -/
theorem matchTokens_filter :
    term.matchTokens isValidKey keywordArray lastMatched =
      term.matchTokens (fun _ => true) (keywordArray.filter isValidKey) lastMatched := by
  induction keywordArray generalizing lastMatched with
  | nil => rfl
  | cons token rest ih =>
    by_cases valid : isValidKey token = true
    · rw [filter_cons_of_pos valid, MsgSearchTerm.matchTokens, MsgSearchTerm.matchTokens,
        if_pos valid, if_pos rfl, ih, ih]
    · rw [filter_cons_of_neg valid, MsgSearchTerm.matchTokens, if_neg valid,
        ih]

lemma matchTokens_is (operator : term.operator = .is ∨ term.operator = .isnt) :
    term.matchTokens (fun _ => true) keywordArray lastMatched =
      ⟨(decide (∀ token ∈ keywordArray, token = term.utf8String) &&
          (lastMatched || !keywordArray.isEmpty)) == (term.operator = .is), true⟩ := by
  induction keywordArray generalizing lastMatched with
  | nil => rcases operator with isOp | isOp <;> simp [MsgSearchTerm.matchTokens, isOp]
  | cons token rest ih =>
    rw [MsgSearchTerm.matchTokens, ih]
    by_cases same : token = term.utf8String
    · rcases operator with isOp | isOp <;> simp [isOp, same]
    · rcases operator with isOp | isOp <;> simp [isOp, same]

lemma matchTokens_isEmpty (operator : term.operator = .isEmpty ∨ term.operator = .isntEmpty) :
    term.matchTokens (fun _ => true) keywordArray lastMatched =
      ⟨keywordArray.isEmpty == (term.operator = .isEmpty), true⟩ := by
  cases keywordArray with
  | nil | cons token rest =>
    rcases operator with isOp | isOp <;> simp [MsgSearchTerm.matchTokens, isOp]

end

lemma all_eq_iff (item : List UInt8) (list : List (List UInt8)) :
    ((∀ other ∈ list, other = item) ∧ list ≠ []) ↔ item ∈ list ∧ list.dedup.length = 1 := by
  constructor
  · rintro ⟨all, some⟩
    have filled : list.length ≠ 0 := fun empty => some (eq_nil_of_length_eq_zero empty)
    rw [eq_replicate_of_mem all]
    exact ⟨mem_replicate.mpr ⟨filled, rfl⟩, by rw [replicate_dedup filled]; rfl⟩
  · rintro ⟨mem, single⟩
    obtain ⟨only, isOnly⟩ := length_eq_one_iff.mp single
    have all (other : List UInt8) (inList : other ∈ list) : other = only := by
      rw [← mem_dedup, isOnly, mem_singleton] at inList
      exact inList
    refine ⟨fun other inList => (all other inList).trans (all item mem).symm, ?_⟩
    exact ne_nil_of_mem mem

end Tokens

/-- A keyword list is matched as the table says, where tokens that occur more than once are
counted once. -/
theorem matchKeyword_table (tagKeys : List (List UInt8)) (keywordList : List UInt8)
    (noNul : 0 ∉ keywordList) (term : MsgSearchTerm) (operator : term.operator ∈ keywordOps)
    (isToken : term.utf8String ≠ []) (noSpace : 32 ∉ term.utf8String)
    (noNulInValue : 0 ∉ term.utf8String) :
    term.matchKeyword tagKeys keywordList =
      ⟨logicTable term.operator (term.utf8String ∈ tokensFor term.operator tagKeys keywordList)
        (tokensFor term.operator tagKeys keywordList).dedup.length, true⟩ := by
  rw [MsgSearchTerm.matchKeyword]
  by_cases empty : keywordList = []
  · have noTokens : tokensFor term.operator tagKeys keywordList = [] := by
      rw [empty, tokensFor]
      split <;> simp [tokens]
    rw [if_pos empty, noTokens]
    rcases term with ⟨op, _, _, _⟩
    simp only [keywordOps, mem_cons, not_mem_nil, or_false] at operator
    rcases operator with rfl | rfl | rfl | rfl | rfl | rfl <;> rfl
  rw [if_neg empty]
  have found : findKeyword keywordList term.utf8String (keywordList.length + 1) 0 =
      decide (term.utf8String ∈ tokens 32 keywordList) := by
    rw [Bool.eq_iff_iff, decide_eq_true_eq, mem_tokens_iff isToken noSpace,
      findKeyword_iff noNul isToken noSpace noNulInValue (by omega)]
    simp
  have someToken (list : List (List UInt8)) :
      decide (term.utf8String ∈ list) = true → list.dedup.length ≠ 0 := by
    intro mem noToken
    rw [length_eq_zero_iff, dedup_eq_nil] at noToken
    rw [noToken] at mem
    cases mem
  have validOnly : term.matchTokens (· ∈ tagKeys) (tokens 32 keywordList) false =
      term.matchTokens (fun _ => true) ((tokens 32 keywordList).filter (· ∈ tagKeys)) false :=
    matchTokens_filter _ false
  have onlyItem (list : List (List UInt8)) :
      (decide (∀ token ∈ list, token = term.utf8String) && (false || !list.isEmpty)) =
        (decide (term.utf8String ∈ list) && decide (list.dedup.length = 1)) := by
    rw [Bool.eq_iff_iff]
    simpa [List.isEmpty_iff] using all_eq_iff term.utf8String list
  simp only [keywordOps, mem_cons, not_mem_nil, or_false] at operator
  rcases operator with isOp | isOp | isOp | isOp | isOp | isOp
  · have valid := validOnly.trans (matchTokens_isEmpty _ false (.inl isOp))
    rw [isOp] at valid ⊢
    rw [if_neg (by decide), valid, logicTable_isEmpty, tokensFor, if_neg (by decide)]
    generalize (tokens 32 keywordList).filter (· ∈ tagKeys) = list
    cases list <;> simp [length_eq_zero_iff]
  · have valid := validOnly.trans (matchTokens_isEmpty _ false (.inr isOp))
    rw [isOp] at valid ⊢
    rw [if_neg (by decide), valid, logicTable_isntEmpty, tokensFor, if_neg (by decide)]
    generalize (tokens 32 keywordList).filter (· ∈ tagKeys) = list
    cases list <;> simp [length_eq_zero_iff]
  · rw [isOp, if_pos (Or.inr rfl), found, tokensFor, if_pos (Or.inl rfl),
      (logicTable_contains (someToken _)).1]
    split
    · rename_i mem
      simp [mem]
    · rename_i absent
      simp [absent]
  · rw [isOp, if_pos (Or.inl rfl), found, tokensFor, if_pos (Or.inr rfl),
      (logicTable_contains (someToken _)).2]
    split
    · rename_i mem
      simp [mem]
    · rename_i absent
      simp [absent]
  · have valid := validOnly.trans (matchTokens_is _ false (.inl isOp))
    rw [isOp] at valid ⊢
    rw [if_neg (by decide), valid, (logicTable_is _ _).1, tokensFor, if_neg (by decide),
      onlyItem]
    simp
  · have valid := validOnly.trans (matchTokens_is _ false (.inr isOp))
    rw [isOp] at valid ⊢
    rw [if_neg (by decide), valid, (logicTable_is _ _).2, tokensFor, if_neg (by decide),
      onlyItem]
    simp

/-- The value is a part of other tokens, and the only valid one. -/
theorem matchKeyword_table_part :
    let term : MsgSearchTerm := { operator := .is, utf8String := [97, 97] }
    term.matchKeyword [[97, 97]] [97, 97, 97, 32, 32, 97, 97, 32, 98, 97, 97] =
      ⟨true, true⟩ := by
  intro term
  rw [matchKeyword_table [[97, 97]] _ (by decide) term (by decide) (by decide) (by decide)
    (by decide)]
  decide

/-- A valid token that occurs twice is no second token. -/
theorem matchKeyword_repeated :
    ¬ ∀ (tagKeys : List (List UInt8)) (keywordList : List UInt8) (term : MsgSearchTerm),
      0 ∉ keywordList → term.operator ∈ keywordOps → term.utf8String ≠ [] →
      32 ∉ term.utf8String → 0 ∉ term.utf8String →
        term.matchKeyword tagKeys keywordList =
          ⟨logicTable term.operator (term.utf8String ∈ tokensFor term.operator tagKeys keywordList)
            (tokensFor term.operator tagKeys keywordList).length, true⟩ := by
  intro table
  have wrong := table [[97]] [97, 32, 97] { operator := .is, utf8String := [97] } (by decide)
    (by decide) (by decide) (by decide) (by decide)
  revert wrong
  decide

end CommCentral.Search
