import CommCentral.Base.KeySetBounds
import CommCentral.Base.KeySetOutput

/-! Reading back the newsrc string of a set. -/
namespace CommCentral.Base
open Lib List

lemma digit_not_space (digit : character.isDigit = true) : isSpace character = false := by
  have lower : 48 ≤ character.toNat := (Char.isDigit_iff_toNat.mp digit).1
  rw [isSpace, Bool.or_eq_false_iff, Bool.and_eq_false_iff]
  constructor
  · apply beq_eq_false_iff_ne.mpr
    intro same
    rw [same] at lower
    exact absurd lower (by decide)
  · right
    apply decide_eq_false
    omega

lemma readDigits_append {digits rest : List Char} (number : Nat)
    (all : ∀ character ∈ digits, character.isDigit = true)
    (ended : ∀ character ∈ rest.head?, character.isDigit = false) :
    readDigits number (digits ++ rest) = (((Nat.ofDigitChars 10 digits number : Nat) : Int), rest) := by
  induction digits generalizing number with
  | nil =>
    cases rest with
    | nil => rfl
    | cons character more =>
      rw [nil_append, readDigits, if_neg]
      · rfl
      · rw [ended character rfl]
        exact Bool.false_ne_true
  | cons digit digits ih =>
    have next : (number : Int) * 10 + (digit.toNat - '0'.toNat : Nat) =
        (10 * number + (digit.toNat - '0'.toNat) : Nat) := by omega
    rw [cons_append, readDigits, if_pos (all digit mem_cons_self), next,
      Nat.ofDigitChars_cons]
    exact ih _ fun character mem => all character (mem_cons_of_mem _ mem)

lemma digit_of_mem_showNumber {number : Int} (mem : character ∈ showNumber number) :
    character.isDigit = true :=
  Nat.isDigit_of_mem_toDigits (by omega) (le_refl 10) mem

lemma showNumber_ne_nil (number : Int) : showNumber number ≠ [] := Nat.toDigits_ne_nil

lemma readDigits_showNumber {number : Int} (nonnegative : 0 ≤ number) (small : number < 2 ^ 32)
    (ended : ∀ character ∈ rest.head?, character.isDigit = false) :
    readDigits 0 (showNumber number ++ rest) = (number, rest) := by
  have digits : ∀ character ∈ showNumber number, character.isDigit = true :=
    fun character => digit_of_mem_showNumber
  have value : ((Nat.ofDigitChars 10 (showNumber number) 0 : Nat) : Int) = number := by
    rw [showNumber, Nat.ofDigitChars_ten_toDigits, Int.emod_eq_of_lt nonnegative small,
      Int.toNat_of_nonneg nonnegative]
  have read : readDigits 0 (showNumber number ++ rest) =
      (((Nat.ofDigitChars 10 (showNumber number) 0 : Nat) : Int), rest) :=
    readDigits_append 0 digits ended
  rw [read, value]

/-- The text of a chunk without the comma. -/
def showChunk (chunk : Chunk) : List Char :=
  if chunk.first < chunk.last then showNumber chunk.first ++ '-' :: showNumber chunk.last
  else showNumber chunk.first

variable (chunk : Chunk)

lemma showRange_eq : showRange chunk.first chunk.last = showChunk chunk ++ [','] := by
  rw [showRange, showChunk]
  split
  · rw [append_assoc, cons_append]
  · rfl

/-- The chunk that is read for a chunk: article 0 is read together with article 1. -/
def Chunk.widen (chunk : Chunk) : Chunk :=
  ⟨if chunk.first = 1 then 0 else chunk.first, chunk.last, by
    have nonnegative := chunk.nonnegative
    split
    · exact le_refl 0
    · exact nonnegative, by
    have nonnegative := chunk.nonnegative
    have ordered := chunk.ordered
    split
    · exact le_trans nonnegative ordered
    · exact ordered⟩

lemma Chunk.eq_of_bounds {chunk other : Chunk} (first : chunk.first = other.first)
    (last : chunk.last = other.last) : chunk = other := by
  cases chunk
  cases other
  cases first
  cases last
  rfl

/-- The end of the string, or a comma. -/
def EntryEnds (rest : List Char) : Prop := ∀ character ∈ rest.head?, character = ','

lemma skipSpace_of_head {text : List Char}
    (head : ∀ character ∈ text.head?, isSpace character = false) : skipSpace text = text := by
  cases text with
  | nil => rfl
  | cons character rest =>
    rw [skipSpace, dropWhile_cons_of_neg]
    rw [head character rfl]
    exact Bool.false_ne_true

lemma readEntry_showChunk {chunk : Chunk} (small : chunk.last < 2 ^ 32) (ended : EntryEnds rest) :
    readEntry (showChunk chunk ++ rest) = (chunk.widen.first, chunk.widen.last, rest) := by
  have nonnegative := chunk.nonnegative
  have ordered := chunk.ordered
  have notDigit : ∀ character ∈ rest.head?, character.isDigit = false := by
    intro character mem
    rw [ended character mem]
    rfl
  have notSpace : ∀ character ∈ rest.head?, isSpace character = false := by
    intro character mem
    rw [ended character mem]
    rfl
  have skips := skipSpace_of_head notSpace
  have last : readDigits 0 (showNumber chunk.last ++ rest) = (chunk.last, rest) :=
    readDigits_showNumber (le_trans nonnegative ordered) small notDigit
  rw [readEntry, showChunk]
  by_cases several : chunk.first < chunk.last
  · have first : readDigits 0 (showNumber chunk.first ++ '-' :: (showNumber chunk.last ++ rest)) =
        (chunk.first, '-' :: (showNumber chunk.last ++ rest)) := by
      apply readDigits_showNumber nonnegative (lt_trans several small)
      rintro _ ⟨⟩
      rfl
    have skipsDash : skipSpace ('-' :: (showNumber chunk.last ++ rest)) =
        '-' :: (showNumber chunk.last ++ rest) := rfl
    rw [if_pos several, append_assoc, cons_append, first]
    simp only [skipsDash, readLast, last, skips]
    rw [if_neg (not_lt.mpr ordered)]
    rfl
  · have single : chunk.last = chunk.first := le_antisymm (not_lt.mp several) ordered
    have first : readDigits 0 (showNumber chunk.first ++ rest) = (chunk.first, rest) := by
      rw [← single]
      exact last
    have noLast : readLast chunk.first rest = (chunk.first, rest) := by
      cases rest with
      | nil => rfl
      | cons character more =>
        rw [ended character rfl]
        rfl
    rw [if_neg several, first]
    simp only [skips, noLast, lt_irrefl, if_false]
    exact congrArg (fun last => (chunk.widen.first, last, rest)) single.symm

lemma showChunk_head : ∃ digit rest, showChunk chunk = digit :: rest ∧ digit.isDigit = true := by
  have head (number : Int) (rest : List Char) :
      ∃ digit more, showNumber number ++ rest = digit :: more ∧ digit.isDigit = true := by
    obtain ⟨digit, more, text⟩ := exists_cons_of_ne_nil (showNumber_ne_nil number)
    refine ⟨digit, more ++ rest, by rw [text, cons_append], ?_⟩
    have mem : digit ∈ showNumber number := by
      rw [text]
      exact mem_cons_self
    exact digit_of_mem_showNumber mem
  rw [showChunk]
  split
  · exact head _ _
  · rw [← append_nil (showNumber chunk.first)]
    exact head _ _

lemma showAll_cons (chunks) :
    ∃ rest, showAll (chunk :: chunks) = showChunk chunk ++ rest ∧ EntryEnds rest ∧
      rest.dropWhile (fun character => character == ',' || isSpace character) = showAll chunks := by
  have text : showAll (chunk :: chunks) =
      showChunk chunk ++ (',' :: showChunks chunks).dropLast := by
    rw [showAll, showChunks, flatMap_cons, showRange_eq, append_assoc]
    exact dropLast_append_of_ne_nil (cons_ne_nil _ _)
  refine ⟨_, text, ?_, ?_⟩
  · cases showChunks chunks with
    | nil => exact fun character mem => absurd mem (Option.not_mem_none character)
    | cons head rest =>
      rintro _ ⟨⟩
      rfl
  · cases chunks with
    | nil => rfl
    | cons next more =>
      obtain ⟨digit, rest, head, isDigit⟩ := showChunk_head next
      have shape : showChunks (next :: more) = digit :: (rest ++ (',' :: showChunks more)) := by
        rw [showChunks, flatMap_cons, showRange_eq, head, append_assoc, cons_append]
        rfl
      have shorter : (digit :: (rest ++ (',' :: showChunks more))).dropLast =
          digit :: (rest ++ (',' :: showChunks more)).dropLast :=
        dropLast_cons_of_ne_nil (append_ne_nil_of_right_ne_nil _ (cons_ne_nil _ _))
      rw [showAll, shape, dropLast_cons_of_ne_nil (cons_ne_nil _ _),
        dropWhile_cons_of_pos rfl, shorter, dropWhile_cons_of_neg]
      rw [digit_not_space isDigit, Bool.or_false]
      intro isComma
      rw [beq_iff_eq.mp isComma] at isDigit
      cases isDigit

lemma skipSpace_showAll (chunks) : skipSpace (showAll chunks) = showAll chunks := by
  cases chunks with
  | nil => rfl
  | cons chunk rest =>
    obtain ⟨ending, text, -, -⟩ := showAll_cons chunk rest
    obtain ⟨digit, more, head, isDigit⟩ := showChunk_head chunk
    rw [text]
    apply skipSpace_of_head
    rw [head]
    rintro _ ⟨⟩
    exact digit_not_space isDigit

lemma length_le_showAll (chunks) : chunks.length ≤ (showAll chunks).length := by
  induction chunks with
  | nil => exact Nat.zero_le _
  | cons chunk rest ih =>
    obtain ⟨ending, text, -, next⟩ := showAll_cons chunk rest
    obtain ⟨digit, more, head, -⟩ := showChunk_head chunk
    have shorter := (dropWhile_suffix
      (fun character => character == ',' || isSpace character) (l := ending)).length_le
    rw [next] at shorter
    rw [text, head, length_append, length_cons, length_cons]
    omega

variable {chunks : List Chunk}

/-- The chunks of a text that shows chunks are these, with article 0 next to article 1. -/
theorem readChunks_showAll (small : Bounded (2 ^ 32) chunks) (enough : chunks.length < fuel) :
    readChunks fuel (showAll chunks) = chunks.map Chunk.widen := by
  induction chunks generalizing fuel with
  | nil =>
    obtain ⟨fuel, rfl⟩ := Nat.exists_eq_add_of_lt enough
    exact if_pos rfl
  | cons chunk chunks ih =>
    obtain ⟨fuel, rfl⟩ : ∃ more, fuel = more + 1 := ⟨fuel - 1, by omega⟩
    obtain ⟨rest, text, ended, next⟩ := showAll_cons chunk chunks
    obtain ⟨digit, more, head, isDigit⟩ := showChunk_head chunk
    have entry := readEntry_showChunk (small chunk mem_cons_self) ended
    have skips : skipSpace (showChunk chunk ++ rest) = showChunk chunk ++ rest := by
      apply skipSpace_of_head
      rw [head]
      rintro _ ⟨⟩
      exact digit_not_space isDigit
    have legal : ¬ (showChunk chunk ++ rest).head?.any (fun character => !character.isDigit) := by
      rw [head, cons_append, head?_cons, Option.any_some, isDigit]
      exact Bool.false_ne_true
    have read : readChunk (showChunk chunk ++ rest) = chunk.widen := by
      apply Chunk.eq_of_bounds
      · exact congrArg Prod.fst entry
      · exact congrArg (fun read => read.2.1) entry
    rw [text, readChunks, skips, if_neg, if_neg legal, nextEntry, entry, read, next,
      ih small.tail (Nat.lt_of_succ_lt_succ enough)]
    · rfl
    · rw [head]
      exact cons_ne_nil _ _

/-- The set that is read back: article 0 is in it when article 1 is. -/
def readBack (numbers : Set Int) : Set Int :=
  { number | if number = 0 then 1 ∈ numbers else number ∈ numbers }

lemma holds_nonnegative {number : Int} (held : Holds chunks number) :
    0 ≤ number := by
  obtain ⟨chunk, -, lower, -⟩ := (holds_iff ..).mp held
  exact le_trans chunk.nonnegative lower

lemma positive_of_mem {chunk : Chunk}
    (mem : chunk ∈ chunks.filterMap Chunk.positive?) : 1 ≤ chunk.first := by
  obtain ⟨source, -, shown⟩ := mem_filterMap.mp mem
  rw [Chunk.positive?] at shown
  split at shown
  · cases shown
    exact le_max_left _ _
  · cases shown

lemma holds_filterMap_positive? (chunks) (number : Int) :
    Holds (chunks.filterMap Chunk.positive?) number ↔ 1 ≤ number ∧ Holds chunks number := by
  induction chunks with
  | nil =>
    rw [filterMap_nil]
    exact ⟨fun held => absurd held (not_holds_nil number), fun both => both.2⟩
  | cons chunk chunks ih =>
    rw [holds_cons, and_or_left, ← ih]
    by_cases order : 1 ≤ chunk.last
    · obtain ⟨shown, isShown, first, last⟩ := Chunk.positive?_eq_some order
      rw [filterMap_cons_some isShown, holds_cons, first, last]
      apply or_congr_left
      omega
    · rw [filterMap_cons_none (Chunk.positive?_eq_none order)]
      constructor
      · exact .inr
      · rintro (⟨positive, -, upper⟩ | held)
        · omega
        · exact held

lemma holds_map_widen (positive : ∀ chunk ∈ chunks, 1 ≤ chunk.first)
    (number : Int) :
    Holds (chunks.map Chunk.widen) number ↔
      if number = 0 then Holds chunks 1 else Holds chunks number := by
  induction chunks with
  | nil =>
    rw [map_nil]
    split
    · exact ⟨fun held => absurd held (not_holds_nil number), fun held => absurd held (not_holds_nil 1)⟩
    · rfl
  | cons chunk chunks ih =>
    have later := ih fun other mem => positive other (mem_cons_of_mem _ mem)
    have from1 := positive chunk mem_cons_self
    have ordered := chunk.ordered
    rw [map_cons, holds_cons, holds_cons, holds_cons, later]
    have first : chunk.widen.first = if chunk.first = 1 then 0 else chunk.first := rfl
    have last : chunk.widen.last = chunk.last := rfl
    rw [first, last]
    by_cases zero : number = 0
    · rw [if_pos zero, if_pos zero]
      apply or_congr_left
      split
      · omega
      · omega
    · rw [if_neg zero, if_neg zero]
      apply or_congr_left
      split
      · omega
      · omega

lemma ascending_readBack (ascending : Ascending chunks) :
    Ascending ((chunks.filterMap Chunk.positive?).map Chunk.widen) := by
  have shown : Ascending (chunks.filterMap Chunk.positive?) := by
    apply List.Pairwise.filterMap _ _ ascending
    intro chunk later apart shown isShown shown' isShown'
    rw [Chunk.positive?] at isShown isShown'
    split at isShown
    · split at isShown'
      · cases isShown
        cases isShown'
        exact lt_of_lt_of_le apart (le_max_right _ _)
      · cases isShown'
    · cases isShown
  apply pairwise_map.mpr
  apply shown.imp_of_mem
  intro chunk later mem member' apart
  have positive := positive_of_mem mem
  have ordered := chunk.ordered
  have first : later.widen.first = if later.first = 1 then 0 else later.first := rfl
  have last : chunk.widen.last = chunk.last := rfl
  rw [first, last, if_neg]
  · exact apart
  · omega

namespace MsgKeySet

variable (junk : Junk) {set : MsgKeySet} {chunks : List Chunk}

/-- Reading the text of a set gives the set, up to article 0. -/
theorem create_output (represents : RepresentsBelow (2 ^ 31) set chunks numbers) (junk' : Junk) :
    RepresentsBelow (2 ^ 31) (create junk' (output junk set))
      ((chunks.filterMap Chunk.positive?).map Chunk.widen) (readBack numbers) := by
  have bounded : Bounded (2 ^ 31) (chunks.filterMap Chunk.positive?) :=
    Bounded.of_holds represents.bounded fun number held =>
      ((holds_filterMap_positive? chunks number).mp held).2
  have small : Bounded (2 ^ 32) (chunks.filterMap Chunk.positive?) := by
    intro chunk mem
    have upper := bounded chunk mem
    omega
  have read := readChunks_showAll small
    (Nat.lt_succ_of_le (length_le_showAll (chunks.filterMap Chunk.positive?)))
  have sound := create_spec junk' (output junk set)
  rw [output_spec junk represents.layout represents.ascending] at sound ⊢
  rw [skipSpace_showAll, read] at sound
  refine ⟨sound.layout, ascending_readBack represents.ascending, ?_, ?_, sound.room, ?_⟩
  · intro chunk mem
    obtain ⟨source, member', rfl⟩ := mem_map.mp mem
    exact bounded source member'
  · intro number
    rw [holds_map_widen fun chunk => positive_of_mem, holds_filterMap_positive?,
      holds_filterMap_positive?, readBack, Set.mem_ofPred_eq]
    by_cases zero : number = 0
    · rw [if_pos zero, if_pos zero, and_iff_right (le_refl 1)]
      exact represents.holds 1
    · rw [if_neg zero, if_neg zero, represents.holds, and_iff_right_iff_imp]
      intro mem
      have nonnegative := holds_nonnegative ((represents.holds number).mpr mem)
      omega
  · exact fun positive => absurd (show (0 : Int) < -1 from positive) (by decide)

end MsgKeySet

/-- The values of a call fit in an `int32_t`, and a range of more than one number is not added to
a set with the largest of them. -/
def KeySetCall.Fits (numbers : Set Int) : KeySetCall → Prop
  | .add number => 0 ≤ number ∧ number < 2 ^ 31
  | .remove _ => True
  | .addRange start finish => 0 ≤ start ∧ finish < 2 ^ 31 ∧ (start < finish → 2 ^ 31 - 1 ∉ numbers)
  | .isMember _ => True

namespace MsgKeySet

lemma call_represents (junk : Junk) {set : MsgKeySet} (request)
    (represents : ∃ chunks, RepresentsBelow (2 ^ 31) set chunks numbers)
    (fits : request.Fits numbers) :
    ∃ chunks, RepresentsBelow (2 ^ 31) (call junk set request) chunks (request.meaning numbers) := by
  obtain ⟨chunks, represents⟩ := represents
  have int32 : (2 ^ 31 : Int) ≤ 2 ^ 31 := le_refl _
  cases request with
  | add number => exact (add_refines junk represents int32 fits.1 fits.2).2
  | remove number => exact (remove_refines junk represents int32 number).2
  | isMember number => exact ⟨chunks, (isMember_spec junk represents number).2⟩
  | addRange start finish =>
    obtain ⟨nonnegative, small, largest⟩ := fits
    by_cases order : start ≤ finish
    · apply addRange_refines junk represents int32 nonnegative order small
      intro several chunk mem
      have held : Holds chunks chunk.last :=
        (holds_iff ..).mpr ⟨chunk, mem, chunk.ordered, le_refl _⟩
      have upper := represents.bounded chunk mem
      have other : chunk.last ≠ 2 ^ 31 - 1 := by
        intro same
        rw [same] at held
        exact largest several ((represents.holds _).mp held)
      omega
    · have unchanged : (addRange junk set start finish).1 = { set with cachedValue := -1 } := by
        rw [addRange, if_pos (not_le.mp order)]
      have empty : Set.Icc start finish = ∅ := Set.Icc_eq_empty order
      refine ⟨chunks, ?_⟩
      rw [call, KeySetCall.meaning, unchanged, empty, Set.union_empty]
      exact represents.forget

private def plainJunk : Junk := ⟨fun _ => 0, fun _ => 0, fun _ => 0⟩

private def largestNumbers : KeySetSteps :=
  [(.addRange 1 9, plainJunk), (.remove 5, plainJunk), (.add (2 ^ 31 - 1), plainJunk)]

private def rangeBehindLargest : KeySetSteps :=
  [(.add (2 ^ 31 - 1), plainJunk), (.addRange 1 5, plainJunk)]

end MsgKeySet

end CommCentral.Base
