import CommCentral.Lib.LdapFilter
import Mathlib

/-! How the texts of LDAP filters are read: plain values, and one reading for each text. -/
namespace CommCentral.Lib.LdapFilter
open List

lemma mem_splitOn (separator : Char) {text : Text} (mem : c ∈ text) :
    c = separator ∨ ∃ piece ∈ text.splitOn separator, c ∈ piece := by
  induction text with
  | nil => exact absurd mem not_mem_nil
  | cons d text ih =>
    rw [splitOn_cons_eq_if_modifyHead]
    obtain ⟨first, pieces, split⟩ := exists_cons_of_ne_nil (splitOn_ne_nil separator text)
    rw [split] at ih ⊢
    by_cases same : d = separator
    · rw [if_pos (beq_iff_eq.mpr same)]
      rcases mem_cons.mp mem with rfl | mem
      · exact .inl same
      · rcases ih mem with here | ⟨piece, listed, inside⟩
        · exact .inl here
        · exact .inr ⟨piece, mem_cons_of_mem _ listed, inside⟩
    · rw [if_neg (by simpa using same), modifyHead_cons]
      rcases mem_cons.mp mem with rfl | mem
      · exact .inr ⟨c :: first, mem_cons_self, mem_cons_self⟩
      · rcases ih mem with here | ⟨piece, listed, inside⟩
        · exact .inl here
        · rcases mem_cons.mp listed with rfl | listed
          · exact .inr ⟨d :: piece, mem_cons_self, mem_cons_of_mem _ inside⟩
          · exact .inr ⟨piece, mem_cons_of_mem _ listed, inside⟩

def isAttrChar (c : Char) : Bool := isKeyChar c || c == '.' || c == ';'

variable {text : Text}

lemma isDescr_chars (descr : isDescr text = true) :
    ∀ c ∈ text, isKeyChar c = true := by
  cases text with
  | nil => exact nofun
  | cons c text =>
    obtain ⟨first, rest⟩ := Bool.and_eq_true_iff.mp descr
    rw [forall_mem_cons]
    refine ⟨?_, all_eq_true.mp rest⟩
    simp [isKeyChar, Char.isAlphanum, first]

lemma isNumericOid_chars (oid : isNumericOid text = true) :
    ∀ c ∈ text, isAttrChar c = true := by
  intro c mem
  rcases mem_splitOn '.' mem with rfl | ⟨number, listed, digit⟩
  · rfl
  · have numbers := all_eq_true.mp (Bool.and_eq_true_iff.mp oid).2 number listed
    have digits := all_eq_true.mp (Bool.and_eq_true_iff.mp numbers).1 c digit
    simp [isAttrChar, isKeyChar, Char.isAlphanum, digits]

lemma isOid_chars (oid : isOid text = true) : ∀ c ∈ text, isAttrChar c = true := by
  rcases Bool.or_eq_true_iff.mp oid with descr | numeric
  · intro c mem
    simp [isAttrChar, isDescr_chars descr c mem]
  · exact isNumericOid_chars numeric

section

variable (named : isAttributeDescription attr = true)
include named

/-- An attribute description has none of the characters that filters are made of. -/
theorem isAttributeDescription_chars : ∀ c ∈ attr, isAttrChar c = true := by
  intro c mem
  unfold isAttributeDescription at named
  rcases mem_splitOn ';' mem with rfl | ⟨piece, listed, inside⟩
  · rfl
  · split at named
    · exact absurd named Bool.false_ne_true
    · rename_i type options split
      obtain ⟨oid, options⟩ := Bool.and_eq_true_iff.mp named
      rw [split] at listed
      rcases mem_cons.mp listed with rfl | listed
      · exact isOid_chars oid c inside
      · have option := (Bool.and_eq_true_iff.mp (all_eq_true.mp options piece listed)).2
        simp [isAttrChar, all_eq_true.mp option c inside]

lemma isAttributeDescription_ne_nil : attr ≠ [] := by
  intro nothing
  subst nothing
  exact absurd named (by decide)

lemma split_attr (ends : endsAttribute c = true) (rest : Text) :
    (attr ++ c :: rest).takeWhile (!endsAttribute ·) = attr ∧
      (attr ++ c :: rest).dropWhile (!endsAttribute ·) = c :: rest := by
  have inside : ∀ d ∈ attr, (!endsAttribute d) = true := by
    intro d mem
    have attrChar := isAttributeDescription_chars named d mem
    cases stops : endsAttribute d with
    | false => rfl
    | true =>
      simp only [endsAttribute, contains_eq_mem, mem_cons, not_mem_nil, or_false,
        decide_eq_true_eq] at stops
      rcases stops with rfl | rfl | rfl | rfl | rfl <;> exact absurd attrChar (by decide)
  rw [takeWhile_append_of_pos inside, dropWhile_append_of_pos inside]
  simp only [takeWhile_cons, dropWhile_cons, ends, Bool.not_true, Bool.false_eq_true,
    if_false, append_nil, and_self]

end

/-- No special character has to be read. -/
def IsPlain (text : Text) : Prop := ∀ c ∈ text, isSpecial c = false

lemma decodeValue_cons (plain : isSpecial c = false) (rest : Text) :
    decodeValue (c :: rest) = (decodeValue rest).map (String.utf8EncodeChar c ++ ·) := by
  have noEscape : c ≠ '\\' := by
    intro escape
    subst escape
    exact absurd plain (by decide)
  conv_lhs => unfold decodeValue
  simp only [noEscape, if_false, plain, Bool.false_eq_true]

lemma decodeValue_plain (plain : IsPlain text) :
    decodeValue text = some (encodeText text) := by
  induction text with
  | nil => rfl
  | cons c text ih =>
    obtain ⟨here, later⟩ := forall_mem_cons.mp plain
    rw [decodeValue_cons here, ih later]
    rfl

lemma IsPlain.asterisk (plain : IsPlain text) : '*' ∉ text := by
  intro mem
  exact absurd (plain '*' mem) (by decide)

lemma IsPlain.parenthesis (plain : IsPlain text) : ')' ∉ text := by
  intro mem
  exact absurd (plain ')' mem) (by decide)

variable {attr value : Text}

section

variable (named : isAttributeDescription attr = true)
include named

lemma readItem_comparison (plain : IsPlain value) :
    readItem (attr ++ '=' :: value) = some (.compare .equal attr (encodeText value)) ∧
      readItem (attr ++ '~' :: '=' :: value) = some (.compare .approx attr (encodeText value)) ∧
      readItem (attr ++ '>' :: '=' :: value) =
        some (.compare .greaterOrEqual attr (encodeText value)) ∧
      readItem (attr ++ '<' :: '=' :: value) =
        some (.compare .lessOrEqual attr (encodeText value)) := by
  have decoded := decodeValue_plain plain
  have noAsterisk : value.contains '*' = false := by simpa using plain.asterisk
  refine ⟨?_, ?_, ?_, ?_⟩
  all_goals
    rw [readItem, (split_attr named (by decide) _).1, (split_attr named (by decide) _).2]
    simp only [readComparison, named, noAsterisk, decoded, Bool.and_false, Bool.false_eq_true,
      if_true, if_false, Option.map_some]

lemma readItem_asterisk (asterisk : '*' ∈ value) :
    readItem (attr ++ '=' :: value) = readSubstrings attr value := by
  rw [readItem, (split_attr named (by decide) value).1, (split_attr named (by decide) value).2]
  simp [named, asterisk]

lemma readItem_present : readItem (attr ++ ['=', '*']) = some (.present attr) :=
  readItem_asterisk named mem_cons_self

end

lemma decodeEnd_plain (plain : IsPlain text) (some_ : text ≠ []) :
    decodeEnd text = some (some (encodeText text)) := by
  rw [decodeEnd, if_neg some_, decodeValue_plain plain]
  rfl

section

variable (named : isAttributeDescription attr = true) (plain : IsPlain value)
include named plain

/-- A value between two asterisks, also the empty one. -/
theorem readItem_contains :
    readItem (attr ++ '=' :: '*' :: (value ++ ['*'])) =
      some (.substrings attr none [encodeText value] none) := by
  have split : ('*' :: (value ++ ['*'])).splitOn '*' = [[], value, []] := by
    change ([] ++ '*' :: (value ++ '*' :: [])).splitOn '*' = _
    rw [splitOn_append_cons_self_of_not_mem (not_mem_nil),
      splitOn_append_cons_self_of_not_mem plain.asterisk, splitOn_nil]
  rw [readItem_asterisk named mem_cons_self, readSubstrings, split]
  simp [readPieces, decodeEnd, decodeValue_plain plain]

lemma readItem_begins (some_ : value ≠ []) :
    readItem (attr ++ '=' :: (value ++ ['*'])) =
      some (.substrings attr (some (encodeText value)) [] none) := by
  have split : (value ++ ['*']).splitOn '*' = [value, []] := by
    rw [splitOn_append_cons_self_of_not_mem plain.asterisk, splitOn_nil]
  rw [readItem_asterisk named (mem_append_right _ mem_cons_self), readSubstrings, split]
  simp [readPieces, decodeEnd_plain plain some_, some_]
  simp [decodeEnd]

lemma readItem_ends (some_ : value ≠ []) :
    readItem (attr ++ '=' :: '*' :: value) =
      some (.substrings attr none [] (some (encodeText value))) := by
  have split : ('*' :: value).splitOn '*' = [[], value] := by
    change ([] ++ '*' :: value).splitOn '*' = _
    rw [splitOn_append_cons_self_of_not_mem (not_mem_nil),
      splitOn_eq_singleton plain.asterisk]
  rw [readItem_asterisk named mem_cons_self, readSubstrings, split]
  simp [readPieces, decodeEnd_plain plain some_, some_]
  simp [decodeEnd]

end

lemma readExtensible_unnamed (unnamed : isAttributeDescription attr = false) (some_ : attr ≠ [])
    (text : Text) : readExtensible attr text = none := by
  unfold readExtensible
  have noAttr : attr.isEmpty = false := by simpa using some_
  simp only [unnamed, some_, noAttr, false_and, if_false, Bool.false_eq_true, Bool.or_self,
    Bool.and_false]
  split
  · rfl
  · split <;> rfl

lemma readItem_unnamed
    (unnamed : isAttributeDescription (text.takeWhile (!endsAttribute ·)) = false)
    (some_ : text.takeWhile (!endsAttribute ·) ≠ []) : readItem text = none := by
  unfold readItem
  simp only [readComparison, unnamed, Bool.false_and, Bool.false_eq_true, if_false]
  split
  all_goals first | rfl | exact readExtensible_unnamed unnamed some_ _

/-- An item does not begin like a list of filters or a negation. -/
theorem readItem_first (read : readItem (c :: rest) = some assertion) :
    c ≠ '&' ∧ c ≠ '|' ∧ c ≠ '!' := by
  have named : isAttrChar c = true ∨ endsAttribute c = true := by
    cases stops : endsAttribute c with
    | true => exact .inr rfl
    | false =>
      left
      have first : (c :: rest).takeWhile (!endsAttribute ·) =
          c :: rest.takeWhile (!endsAttribute ·) :=
        takeWhile_cons_of_pos (by simp only [stops, Bool.not_false])
      cases named : isAttributeDescription ((c :: rest).takeWhile (!endsAttribute ·)) with
      | true =>
        rw [first] at named
        exact isAttributeDescription_chars named c mem_cons_self
      | false =>
        rw [readItem_unnamed named (by rw [first]; exact cons_ne_nil _ _)] at read
        cases read
  refine ⟨?_, ?_, ?_⟩
  all_goals
    intro same
    subst same
    exact absurd named (by decide)

lemma readItem_opening {text rest later : Text} (read : readItem text = some assertion)
    (same : text ++ rest = c :: later) : c ≠ '&' ∧ c ≠ '|' ∧ c ≠ '!' := by
  cases text with
  | nil =>
    have nothing : readItem [] = none := by decide
    rw [nothing] at read
    cases read
  | cons d text =>
    rw [← (List.cons.inj same).1]
    exact readItem_first read

lemma append_closed {text text' rest rest' : Text} (closed : ')' ∉ text) (closed' : ')' ∉ text')
    (same : text ++ ')' :: rest = text' ++ ')' :: rest') : text = text' := by
  have taken : ∀ text rest : Text, ')' ∉ text →
      (text ++ ')' :: rest).takeWhile (· != ')') = text := by
    intro text rest closed
    rw [takeWhile_append_of_pos]
    · simp
    · intro c mem
      exact bne_iff_ne.mpr fun same => closed (same ▸ mem)
  rw [← taken text rest closed, same, taken text' rest' closed']

lemma Reads.first {filter : Filter} (reads : Reads text filter) :
    ∃ rest, text = '(' :: rest := by
  cases reads <;> exact ⟨_, rfl⟩

lemma ReadsList.first (reads : ReadsList text filters) : ∃ rest, text = '(' :: rest := by
  cases reads with
  | one first => exact first.first
  | cons first _ =>
    obtain ⟨rest, rfl⟩ := first.first
    exact ⟨_, rfl⟩

mutual

lemma Reads.unique {text text' rest rest' : Text} {filter filter' : Filter} :
    Reads text filter → Reads text' filter' → text ++ rest = text' ++ rest' →
      text = text' ∧ filter = filter'
  | .and list, .and list', same => by
    simp only [cons_append, append_assoc, List.cons.injEq, true_and] at same
    obtain ⟨rfl, rfl⟩ := list.unique list' same
    exact ⟨rfl, rfl⟩
  | .or list, .or list', same => by
    simp only [cons_append, append_assoc, List.cons.injEq, true_and] at same
    obtain ⟨rfl, rfl⟩ := list.unique list' same
    exact ⟨rfl, rfl⟩
  | .not inner, .not inner', same => by
    simp only [cons_append, append_assoc, List.cons.injEq, true_and] at same
    obtain ⟨rfl, rfl⟩ := inner.unique inner' same
    exact ⟨rfl, rfl⟩
  | .item read closed, .item read' closed', same => by
    simp only [cons_append, append_assoc, List.cons.injEq, true_and] at same
    cases append_closed closed closed' same
    exact ⟨rfl, congrArg Filter.item (Option.some.inj (read.symm.trans read'))⟩
  | .and _, .or _, same => absurd (List.cons.inj (List.cons.inj same).2).1 (by decide)
  | .and _, .not _, same => absurd (List.cons.inj (List.cons.inj same).2).1 (by decide)
  | .or _, .and _, same => absurd (List.cons.inj (List.cons.inj same).2).1 (by decide)
  | .or _, .not _, same => absurd (List.cons.inj (List.cons.inj same).2).1 (by decide)
  | .not _, .and _, same => absurd (List.cons.inj (List.cons.inj same).2).1 (by decide)
  | .not _, .or _, same => absurd (List.cons.inj (List.cons.inj same).2).1 (by decide)
  | .and _, .item read _, same => by
    simp only [cons_append, append_assoc, List.cons.injEq, true_and] at same
    exact absurd rfl (readItem_opening read same.symm).1
  | .or _, .item read _, same => by
    simp only [cons_append, append_assoc, List.cons.injEq, true_and] at same
    exact absurd rfl (readItem_opening read same.symm).2.1
  | .not _, .item read _, same => by
    simp only [cons_append, append_assoc, List.cons.injEq, true_and] at same
    exact absurd rfl (readItem_opening read same.symm).2.2
  | .item read _, .and _, same => by
    simp only [cons_append, append_assoc, List.cons.injEq, true_and] at same
    exact absurd rfl (readItem_opening read same).1
  | .item read _, .or _, same => by
    simp only [cons_append, append_assoc, List.cons.injEq, true_and] at same
    exact absurd rfl (readItem_opening read same).2.1
  | .item read _, .not _, same => by
    simp only [cons_append, append_assoc, List.cons.injEq, true_and] at same
    exact absurd rfl (readItem_opening read same).2.2

lemma ReadsList.unique {text text' rest rest' : Text} :
    ReadsList text filters → ReadsList text' filters' →
      text ++ ')' :: rest = text' ++ ')' :: rest' → text = text' ∧ filters = filters'
  | .one first, .one first', same => by
    obtain ⟨rfl, rfl⟩ := first.unique first' same
    exact ⟨rfl, rfl⟩
  | .cons first later, .cons first' later', same => by
    rw [append_assoc, append_assoc] at same
    obtain ⟨rfl, rfl⟩ := first.unique first' same
    obtain ⟨rfl, rfl⟩ := later.unique later' (append_cancel_left same)
    exact ⟨rfl, rfl⟩
  | .one first, .cons first' later', same => by
    rw [append_assoc] at same
    obtain ⟨rfl, rfl⟩ := first.unique first' same
    obtain ⟨_, rfl⟩ := later'.first
    exact absurd (List.cons.inj (append_cancel_left same)).1 (by decide)
  | .cons first later, .one first', same => by
    rw [append_assoc] at same
    obtain ⟨rfl, rfl⟩ := first.unique first' same
    obtain ⟨_, rfl⟩ := later.first
    exact absurd (List.cons.inj (append_cancel_left same)).1 (by decide)

end

lemma Reads.eq {text : Text} {filter other : Filter} (reads : Reads text filter)
    (readsOther : Reads text other) : filter = other :=
  (reads.unique readsOther (congrArg (· ++ []) rfl)).2

lemma not_reads_emptyOr {filter : Filter} : ¬ Reads ['(', '|', ')'] filter := by
  intro reads
  generalize same : ['(', '|', ')'] = text at reads
  cases reads with
  | and | not => exact absurd (List.cons.inj (List.cons.inj same).2).1 (by decide)
  | or list =>
    have nothing : [] ++ [')'] = _ ++ [')'] := (List.cons.inj (List.cons.inj same).2).2
    have nothing := append_cancel_right nothing
    obtain ⟨_, begun⟩ := list.first
    exact cons_ne_nil _ _ (nothing.trans begun).symm
  | item read _ =>
    have one : ['|'] ++ [')'] = _ ++ [')'] := (List.cons.inj same).2
    rw [← append_cancel_right one] at read
    have none : readItem ['|'] = none := by decide
    exact Option.some_ne_none _ (read.symm.trans none)

/-- The least number of characters that an octet of a value takes. What continues a character takes
none. -/
def octetWeight (octet : UInt8) : Nat :=
  if [0x00, 0x28, 0x29, 0x2A, 0x5C].contains octet then 3
  else if octet.IsUTF8FirstByte then 1
  else 0

def valueWeight (value : Value) : Nat := (value.map octetWeight).sum

lemma valueWeight_append (value later) :
    valueWeight (value ++ later) = valueWeight value + valueWeight later := by
  rw [valueWeight, map_append, sum_append]
  rfl

lemma octetWeight_le (octet : UInt8) : octetWeight octet ≤ 3 := by
  unfold octetWeight
  split
  · exact Nat.le_refl 3
  · split <;> decide

lemma utf8EncodeChar_octets (plain : isSpecial c = false) :
    ∀ octet ∈ String.utf8EncodeChar c, octet ∉ [0x00, 0x28, 0x29, 0x2A, 0x5C] := by
  intro octet mem special
  have small : octet.toNat < 0x80 := by
    simp only [mem_cons, not_mem_nil, or_false] at special
    rcases special with rfl | rfl | rfl | rfl | rfl <;> decide
  have high : ∀ {v k : Nat}, octet = UInt8.ofNat (v % k + (0x100 - 2 * k)) → k ≤ 0x40 → 0 < k → False := by
    intro v k same bound positive
    rw [same, UInt8.toNat_ofNat'] at small
    have := Nat.mod_lt v positive
    omega
  unfold String.utf8EncodeChar at mem
  dsimp only at mem
  split at mem
  · rename_i ascii
    have same : octet = UInt8.ofNat c.toNat := mem_singleton.mp mem
    have value : octet.toNat = c.toNat := by
      rw [same, UInt8.toNat_ofNat']
      have : c.toNat ≤ 0x7f := ascii
      omega
    have char : c = Char.ofNat octet.toNat := by
      rw [value, Char.ofNat_toNat]
    simp only [mem_cons, not_mem_nil, or_false] at special
    rcases special with rfl | rfl | rfl | rfl | rfl <;>
      exact absurd plain (by rw [char]; decide)
  · split at mem
    · simp only [mem_cons, not_mem_nil, or_false] at mem
      rcases mem with same | same
      · exact high (k := 0x20) same (by decide) (by decide)
      · exact high (k := 0x40) same (by decide) (by decide)
    · split at mem
      · simp only [mem_cons, not_mem_nil, or_false] at mem
        rcases mem with same | same | same
        · exact high (k := 0x10) same (by decide) (by decide)
        · exact high (k := 0x40) same (by decide) (by decide)
        · exact high (k := 0x40) same (by decide) (by decide)
      · simp only [mem_cons, not_mem_nil, or_false] at mem
        rcases mem with same | same | same | same
        · exact high (k := 0x08) same (by decide) (by decide)
        · exact high (k := 0x40) same (by decide) (by decide)
        · exact high (k := 0x40) same (by decide) (by decide)
        · exact high (k := 0x40) same (by decide) (by decide)

lemma valueWeight_utf8EncodeChar (plain : isSpecial c = false) :
    valueWeight (String.utf8EncodeChar c) = 1 := by
  have octets := utf8EncodeChar_octets plain
  have firsts : ∀ i (bound : i < (String.utf8EncodeChar c).length),
      octetWeight (String.utf8EncodeChar c)[i] = if i = 0 then 1 else 0 := by
    intro i bound
    have other : [0x00, 0x28, 0x29, 0x2A, 0x5C].contains (String.utf8EncodeChar c)[i] = false := by
      simpa using octets _ (getElem_mem bound)
    rw [octetWeight, other, if_neg Bool.false_ne_true]
    simp only [UInt8.isUTF8FirstByte_getElem_utf8EncodeChar]
  cases encoded : String.utf8EncodeChar c with
  | nil => exact absurd encoded String.utf8EncodeChar_ne_nil
  | cons first later =>
    simp only [encoded] at firsts
    have here := firsts 0 (Nat.succ_pos _)
    have none : ∀ octet ∈ later, octetWeight octet = 0 := by
      intro octet mem
      obtain ⟨i, bound, rfl⟩ := getElem_of_mem mem
      exact firsts (i + 1) (Nat.succ_lt_succ bound)
    have nothing : (later.map octetWeight).sum = 0 := by
      rw [List.sum_eq_zero_iff_forall_eq_nat]
      intro weight mem
      obtain ⟨octet, listed, rfl⟩ := mem_map.mp mem
      exact none octet listed
    rw [valueWeight, map_cons, sum_cons, nothing]
    exact here

lemma valueWeight_special (special : isSpecial c = true) :
    valueWeight (String.utf8EncodeChar c) = 3 := by
  simp only [isSpecial, contains_eq_mem, mem_cons, not_mem_nil, or_false,
    decide_eq_true_eq] at special
  rcases special with rfl | rfl | rfl | rfl | rfl <;> decide

lemma valueWeight_encodeText (text : Text) :
    valueWeight (encodeText text) = text.length + 2 * text.countP isSpecial := by
  induction text with
  | nil => rfl
  | cons c text ih =>
    rw [encodeText, flatMap_cons, valueWeight_append]
    change _ + valueWeight (encodeText text) = _
    rw [ih, length_cons]
    cases special : isSpecial c with
    | true =>
      rw [valueWeight_special special, countP_cons_of_pos special]
      omega
    | false =>
      rw [valueWeight_utf8EncodeChar special,
        countP_cons_of_neg (by rw [special]; exact Bool.false_ne_true)]
      omega

lemma decodeValue_weight {text : Text} {value : Value} (decoded : decodeValue text = some value) :
    valueWeight value ≤ text.length := by
  fun_induction decodeValue text generalizing value with
  | case1 => 
    cases decoded
    exact Nat.le_refl 0
  | case2 high low rest high' low' value' decodedLater _ _ ih =>
    cases decoded
    have later := ih decodedLater
    have here := octetWeight_le (UInt8.ofNat (16 * high' + low'))
    rw [valueWeight, map_cons, sum_cons]
    simp only [length_cons]
    unfold valueWeight at later
    omega
  | case3 | case4 | case5 => cases decoded
  | case6 c rest _ plain ih =>
    obtain ⟨value, decodedLater, rfl⟩ := Option.map_eq_some_iff.mp decoded
    have later := ih decodedLater
    rw [valueWeight_append, valueWeight_utf8EncodeChar (by simpa using plain), length_cons]
    omega

lemma length_splitOn (separator : Char) (text : Text) :
    text.length + 1 =
      ((text.splitOn separator).map List.length).sum + (text.splitOn separator).length := by
  induction text with
  | nil => rfl
  | cons c text ih =>
    rw [splitOn_cons_eq_if_modifyHead]
    obtain ⟨first, pieces, split⟩ := exists_cons_of_ne_nil (splitOn_ne_nil separator text)
    rw [split] at ih ⊢
    split
    · simp only [length_cons, map_cons, sum_cons, length_nil] at ih ⊢
      omega
    · simp only [length_cons, map_cons, sum_cons, modifyHead_cons] at ih ⊢
      omega

/-- The least length of an item's text. Nothing is counted for an extensible match but the value. -/
def Assertion.weight : Assertion → Nat
  | compare .equal attr value => attr.length + 1 + valueWeight value
  | compare _ attr value => attr.length + 2 + valueWeight value
  | present attr => attr.length + 2
  | substrings attr initial any final =>
    attr.length + 1 + (initial.elim 0 valueWeight + (any.map valueWeight).sum +
      final.elim 0 valueWeight + (any.length + 1))
  | extensible _ _ _ value => valueWeight value

mutual

def Filter.weight : Filter → Nat
  | .and filters => 3 + weights filters
  | .or filters => 3 + weights filters
  | .not filter => 3 + filter.weight
  | .item assertion => 2 + assertion.weight

def weights : List Filter → Nat
  | [] => 0
  | filter :: filters => filter.weight + weights filters

end

lemma decodeEnd_weight {text : Text} (decoded : decodeEnd text = some piece) :
    piece.elim 0 valueWeight ≤ text.length := by
  unfold decodeEnd at decoded
  split at decoded
  · cases decoded
    exact Nat.zero_le _
  · obtain ⟨value, decodedText, rfl⟩ := Option.map_eq_some_iff.mp decoded
    exact decodeValue_weight decodedText

lemma mapM_decodeValue_weight {pieces : List Text}
    (decoded : pieces.mapM decodeValue = some values) :
    (values.map valueWeight).sum ≤ (pieces.map List.length).sum ∧
      values.length = pieces.length := by
  induction pieces generalizing values with
  | nil =>
    cases decoded
    exact ⟨Nat.le_refl 0, rfl⟩
  | cons piece pieces ih =>
    rw [mapM_cons] at decoded
    obtain ⟨value, here, decoded⟩ := Option.bind_eq_some_iff.mp decoded
    obtain ⟨values, later, decoded⟩ := Option.bind_eq_some_iff.mp decoded
    cases decoded
    obtain ⟨weight, length⟩ := ih later
    have := decodeValue_weight here
    simp only [map_cons, sum_cons, length_cons]
    omega

lemma readPieces_weight {attr first last : Text}
    (read : readPieces attr first middle last = some assertion) :
    assertion.weight ≤ attr.length + 1 +
      (first.length + (middle.map List.length).sum + last.length + (middle.length + 1)) := by
  unfold readPieces at read
  split at read
  · rename_i initial any final begins between ends
    cases read
    have := decodeEnd_weight begins
    have := mapM_decodeValue_weight between
    have := decodeEnd_weight ends
    simp only [Assertion.weight]
    omega
  · cases read

lemma length_splitOn_of_mem {text : Text} (mem : separator ∈ text) :
    2 ≤ (text.splitOn separator).length := by
  obtain ⟨before, after, rfl⟩ := append_of_mem mem
  rw [splitOn_append_cons_self, length_append]
  have := length_pos_iff.mpr (splitOn_ne_nil separator before)
  have := length_pos_iff.mpr (splitOn_ne_nil separator after)
  omega

lemma readSubstrings_weight {attr text : Text} (asterisk : '*' ∈ text)
    (read : readSubstrings attr text = some assertion) :
    assertion.weight ≤ attr.length + 1 + text.length := by
  have length := length_splitOn '*' text
  have several := length_splitOn_of_mem asterisk
  unfold readSubstrings at read
  split at read
  · cases read
  · rename_i first pieces split
    rw [split] at length several
    split at read
    · rename_i both
      cases read
      have := length_pos_of_mem asterisk
      simp only [Assertion.weight]
      omega
    · rcases eq_nil_or_concat pieces with rfl | ⟨middle, last, rfl⟩
      · exact absurd several (by simp)
      · rw [concat_eq_append] at read length
        rw [dropLast_concat, getLastD_concat] at read
        have := readPieces_weight read
        simp only [map_cons, map_append, map_nil, sum_cons, sum_append,
          sum_nil, length_cons, length_append, length_nil] at length
        omega

lemma readComparison_weight {attr text : Text}
    (read : readComparison comparison attr text = some assertion) :
    assertion.weight ≤ attr.length + (if comparison = .equal then 1 else 2) + text.length := by
  unfold readComparison at read
  split at read
  · obtain ⟨value, decoded, rfl⟩ := Option.map_eq_some_iff.mp read
    have := decodeValue_weight decoded
    cases comparison <;> simp [Assertion.weight] <;> omega
  · cases read

lemma readExtensible_weight {attr text : Text}
    (read : readExtensible attr text = some assertion) : assertion.weight ≤ text.length := by
  have ofValue : ∀ {value : Text} {make : Value → Assertion},
      (∀ value, (make value).weight = valueWeight value) →
      (decodeValue value).map make = some assertion → assertion.weight ≤ value.length := by
    intro value make weight read
    obtain ⟨octets, decoded, rfl⟩ := Option.map_eq_some_iff.mp read
    rw [weight]
    exact decodeValue_weight decoded
  unfold readExtensible at read
  dsimp only at read
  have shorter : (if ['d', 'n', ':'].isPrefixOf text then text.drop 3 else text).length ≤
      text.length := by
    split
    · rw [length_drop]
      exact Nat.sub_le _ _
    · exact Nat.le_refl _
  generalize (if ['d', 'n', ':'].isPrefixOf text then text.drop 3 else text) = body
    at read shorter
  split at read
  · rw [length_cons] at shorter
    split at read
    · have := ofValue (fun _ => rfl) read
      omega
    · split at read
      · have := ofValue (fun _ => rfl) read
        omega
      · cases read
  · split at read
    · rename_i value dropped
      have := (dropWhile_sublist (fun c : Char => c != ':') (l := body)).length_le
      rw [dropped, length_cons, length_cons] at this
      split at read
      · have := ofValue (fun _ => rfl) read
        omega
      · cases read
    · cases read

lemma readItem_weight {text : Text} (read : readItem text = some assertion) :
    assertion.weight ≤ text.length := by
  have length : (text.takeWhile (!endsAttribute ·)).length +
      (text.dropWhile (!endsAttribute ·)).length = text.length := by
    rw [← length_append, takeWhile_append_dropWhile]
  unfold readItem at read
  dsimp only at read
  split at read
  · rename_i value dropped
    rw [dropped, length_cons] at length
    split at read
    · rename_i both
      have := readSubstrings_weight (by simpa using (Bool.and_eq_true_iff.mp both).2) read
      omega
    · have := readComparison_weight read
      rw [if_pos rfl] at this
      omega
  · rename_i value dropped
    rw [dropped, length_cons, length_cons] at length
    have := readComparison_weight read
    rw [if_neg (by decide)] at this
    omega
  · rename_i value dropped
    rw [dropped, length_cons, length_cons] at length
    have := readComparison_weight read
    rw [if_neg (by decide)] at this
    omega
  · rename_i value dropped
    rw [dropped, length_cons, length_cons] at length
    have := readComparison_weight read
    rw [if_neg (by decide)] at this
    omega
  · rename_i rest dropped
    rw [dropped, length_cons] at length
    have := readExtensible_weight read
    omega
  · cases read

mutual

/-- A filter takes as many characters as it weighs. -/
theorem Reads.weight_le {text : Text} {filter : Filter} :
    Reads text filter → filter.weight ≤ text.length
  | .and list => by
    have := list.weight_le
    simp only [Filter.weight, length_cons, length_append, length_nil]
    omega
  | .or list => by
    have := list.weight_le
    simp only [Filter.weight, length_cons, length_append, length_nil]
    omega
  | .not inner => by
    have := inner.weight_le
    simp only [Filter.weight, length_cons, length_append, length_nil]
    omega
  | .item read _ => by
    have := readItem_weight read
    simp only [Filter.weight, length_cons, length_append, length_nil]
    omega

lemma ReadsList.weight_le {text : Text} :
    ReadsList text filters → weights filters ≤ text.length
  | .one first => by
    have := first.weight_le
    simp only [weights]
    omega
  | .cons first later => by
    have := first.weight_le
    have := later.weight_le
    simp only [weights, length_append]
    omega

end

end CommCentral.Lib.LdapFilter
