import CommCentral.Base.KeySetOptimize

/-! `Add` and `Remove` up to the call of `Optimize`: the chunks before and after the edited
place stay. -/
namespace CommCentral.Base
open List

section

variable {block : Block} {length : Nat} {front middle back : List Chunk}

lemma Layout.parts (layout : Layout block length 0 (front ++ (middle ++ back))) :
    ∃ rest, block.words = encode front ++ (encode middle ++ (encode back ++ rest)) ∧
      length = (encode front).length + ((encode middle).length + (encode back).length) := by
  obtain ⟨rest, shape, ends⟩ := layout.shape
  rw [encode_append, encode_append] at shape ends
  rw [append_assoc, append_assoc] at shape
  rw [length_append, length_append] at ends
  exact ⟨rest, shape, ends.symm⟩

lemma Layout.of_parts {rest : List Int}
    (shape : block.words = encode front ++ (encode middle ++ (encode back ++ rest)))
    (ends : length = (encode front).length + ((encode middle).length + (encode back).length)) :
    Layout block length 0 (front ++ (middle ++ back)) := by
  have words : block.words = encode (front ++ (middle ++ back)) ++ rest := by
    rw [encode_append, encode_append, shape, append_assoc, append_assoc]
  apply Layout.of_shape words
  rw [encode_append, encode_append, length_append, length_append, ends]

end

lemma Layout.grow {length : Nat} {chunks : List Chunk} (layout : Layout block length 0 chunks)
    (junk : Junk) : Layout (block.grow junk) length 0 chunks := by
  obtain ⟨rest, shape, ends⟩ := layout.shape
  refine ⟨by omega, ?_⟩
  rw [Block.grow, shape, drop_zero, append_assoc]
  exact prefix_append _ _

/-- The chunks hold what is left of a chunk without one number. -/
structure Remainder (chunk : Chunk) (number : Int) (pieces : List Chunk) : Prop where
  ascending : Ascending pieces
  holds : ∀ other, Holds pieces other ↔ (chunk.first ≤ other ∧ other ≤ chunk.last) ∧ other ≠ number

lemma Remainder.single {chunk piece : Chunk} {number : Int}
    (same : ∀ other, (piece.first ≤ other ∧ other ≤ piece.last) ↔
      (chunk.first ≤ other ∧ other ≤ chunk.last) ∧ other ≠ number) :
    Remainder chunk number [piece] where
  ascending := pairwise_singleton _ _
  holds := by
    intro other
    rw [holds_cons, same]
    simp

lemma Remainder.pair {chunk first second : Chunk} {number : Int}
    (order : first.last < second.first)
    (same : ∀ other, ((first.first ≤ other ∧ other ≤ first.last) ∨
        (second.first ≤ other ∧ other ≤ second.last)) ↔
      (chunk.first ≤ other ∧ other ≤ chunk.last) ∧ other ≠ number) :
    Remainder chunk number [first, second] where
  ascending := by
    refine (ascending_cons ..).mpr ⟨?_, pairwise_singleton _ _⟩
    intro later mem
    rw [mem_singleton.mp mem]
    exact order
  holds := by
    intro other
    rw [holds_cons, holds_cons, ← same]
    simp

lemma Remainder.within {chunk piece : Chunk} {number : Int}
    (remainder : Remainder chunk number pieces) (mem : piece ∈ pieces) :
    chunk.first ≤ piece.first ∧ piece.last ≤ chunk.last := by
  have first : Holds pieces piece.first :=
    (holds_iff ..).mpr ⟨piece, mem, Int.le_refl _, piece.ordered⟩
  have last : Holds pieces piece.last :=
    (holds_iff ..).mpr ⟨piece, mem, piece.ordered, Int.le_refl _⟩
  exact ⟨((remainder.holds _).mp first).1.1, ((remainder.holds _).mp last).1.2⟩

lemma Remainder.bounded {front back pieces : List Chunk} {chunk : Chunk} {number : Int}
    (remainder : Remainder chunk number pieces)
    (bounded : Bounded limit (front ++ ([chunk] ++ back))) :
    Bounded limit (front ++ (pieces ++ back)) := by
  have outer : Bounded limit (front ++ back) := by
    intro other mem
    apply bounded
    cases mem_append.mp mem with
    | inl mem => exact mem_append_left _ mem
    | inr mem => exact mem_append_right _ (mem_append_right _ mem)
  apply Bounded.append outer
  intro piece mem
  have upper := bounded chunk (mem_append_right _ mem_cons_self)
  exact Int.lt_of_le_of_lt (remainder.within mem).2 upper

lemma EndsNonzero.append {front back : List Chunk} (nonzero : EndsNonzero back)
    (inner : back = [] → EndsNonzero front) : EndsNonzero (front ++ back) := by
  intro chunk last
  cases back with
  | nil =>
    rw [append_nil] at last
    exact inner rfl chunk last
  | cons first back =>
    rw [getLast?_append, getLast?_cons, Option.some_or, ← getLast?_cons] at last
    exact nonzero chunk last

/-- The space that taking `number` out of the range `[first, last]` needs. -/
def RangeRoom (size length : Nat) (first last number : Int) (nonzero : Prop) : Prop :=
  if last = first + 1 then length < size
  else if last = first + 2 ∨ number = first ∨ number = last then length < size ∨ nonzero
  else length + 2 < (if size - length ≤ 2 then 2 * size else size)

instance (size length : Nat) (first last number : Int) (nonzero : Prop) [Decidable nonzero] :
    Decidable (RangeRoom size length first last number nonzero) :=
  inferInstanceAs (Decidable (ite _ _ _))

lemma RangeRoom.imp {size length : Nat} {first last number : Int} {weak strong : Prop}
    (room : RangeRoom size length first last number strong) (implies : strong → weak) :
    RangeRoom size length first last number weak := by
  rw [RangeRoom] at room ⊢
  split
  · rename_i two
    rw [if_pos two] at room
    exact room
  · rename_i two
    rw [if_neg two] at room
    split
    · rename_i edge
      rw [if_pos edge] at room
      exact room.imp id implies
    · rename_i edge
      rw [if_neg edge] at room
      exact room

namespace MsgKeySet

variable (junk : Junk) {set : MsgKeySet} {chunks : List Chunk}

/-- The block that `Add` hands to `Optimize`. -/
theorem insertLiteral_spec {data : Block} {length : Nat} {front back : List Chunk} {number : Int}
    (layout : Layout data length 0 (front ++ back)) (room : 0 < data.size)
    (nonnegative : 0 ≤ number) :
    Layout (insertLiteral junk data length (encode front).length number) (length + 1) 0
        (front ++ ([Chunk.literal number nonnegative] ++ back)) ∧
      (insertLiteral junk data length (encode front).length number).size =
        (if data.size ≤ length + 1 then 2 * data.size else data.size) ∧
      (data.inBounds = true →
        (insertLiteral junk data length (encode front).length number).inBounds = true) := by
  obtain ⟨grown, same⟩ : ∃ grown,
    grown = if data.size ≤ length + 1 then data.grow junk else data := ⟨_, rfl⟩
  have size : grown.size = if data.size ≤ length + 1 then 2 * data.size else data.size := by
    rw [same, apply_ite Block.size, Block.size_grow]
  have inside := layout.le_size (Nat.zero_le _)
  have larger : length < grown.size := by
    rw [size]
    split
    · omega
    · omega
  have bounds : data.inBounds = true → grown.inBounds = true := by
    intro before
    rw [same]
    split
    · exact before
    · exact before
  have layout' : Layout grown length 0 (front ++ ([] ++ back)) := by
    rw [same]
    split
    · exact layout.grow junk
    · exact layout
  obtain ⟨rest, shape, ends⟩ := layout'.parts
  simp only [encode_nil, nil_append, length_nil, Nat.zero_add] at shape ends
  have count : (encode [Chunk.literal number nonnegative]).length = 1 := by simp
  have total := congrArg List.length shape
  have size' : grown.size = grown.words.length := rfl
  simp only [length_append] at total
  rw [insertLiteral, ← same]
  by_cases final : (encode front).length = length
  · rw [if_pos final]
    have none : encode back = [] := length_eq_zero_iff.mp (by omega)
    obtain ⟨gap, tail, rfl⟩ : ∃ gap tail, rest = gap :: tail :=
      exists_cons_of_length_pos (by rw [none, length_nil] at total; omega)
    have shape' : (grown.store length number).words =
        encode front ++ (encode [Chunk.literal number nonnegative] ++ (encode back ++ tail)) := by
      rw [Block.words_store, shape, none, ← final]
      simp
    refine ⟨Layout.of_parts shape' (by omega), by rw [Block.size_store, size], ?_⟩
    intro before
    rw [Block.inBounds_store]
    exact ⟨bounds before, larger⟩
  · rw [if_neg final]
    obtain ⟨gap, tail, opened, single⟩ := grown.words_openGap junk.outside 1 length
      (length - (encode front).length) (encode front) [] (encode back) rest shape (by omega)
      (by omega) (by omega) (by simp only [length_nil]; omega)
      (by simp only [length_nil]; omega) (by omega) (by omega)
    obtain ⟨left, rfl⟩ := length_eq_one_iff.mp single
    have shape' : ((grown.openGap junk.outside 1 length (length - (encode front).length)).store
        (encode front).length number).words =
        encode front ++ (encode [Chunk.literal number nonnegative] ++ (encode back ++ tail)) := by
      rw [Block.words_store, opened]
      simp
    refine ⟨Layout.of_parts shape' (by omega), by rw [Block.size_store, Block.size_openGap, size], ?_⟩
    intro before
    rw [Block.inBounds_store, Block.inBounds_openGap _ _ _ _ _ (by omega), Block.size_openGap]
    exact ⟨⟨bounds before, fun _ => larger⟩, by omega⟩

/-- What `Remove` hands to `Optimize`. -/
structure Shortened (set result : MsgKeySet) (front : List Chunk) (chunk : Chunk)
    (back : List Chunk) (number : Int) (pieces : List Chunk) : Prop where
  remainder : Remainder chunk number pieces
  layout : Layout result.data result.length 0 (front ++ (pieces ++ back))
  grown : set.data.size ≤ result.data.size
  inBounds : (chunk.first < chunk.last →
      RangeRoom set.data.size set.length chunk.first chunk.last number (EndsNonzero back)) →
    set.data.inBounds = true → result.data.inBounds = true ∧
      (result.length < result.data.size ∨ EndsNonzero (front ++ (pieces ++ back)))

variable {front back : List Chunk} {chunk : Chunk} {number : Int}

section

variable (several : chunk.first < chunk.last)
  (layout : Layout set.data set.length 0 (front ++ ([chunk] ++ back)))
include several layout

private lemma Shortened.pair (two : chunk.last = chunk.first + 1) (piece : Chunk)
    (single : piece.first = piece.last) (remainder : Remainder chunk number [piece]) :
    Shortened set { set with
      data := (set.data.store (encode front).length piece.first).closeGap junk.outside
        ((encode front).length + 1) (set.length - ((encode front).length + 1))
      length := set.length - 1 } front chunk back number [piece] := by
  obtain ⟨rest, shape, ends⟩ := layout.parts
  have inside := layout.le_size (Nat.zero_le _)
  have width : (encode [chunk]).length = 2 := by simp [Chunk.words_range several]
  have width' : (encode [piece]).length = 1 := by simp [Chunk.words_literal single]
  have count : set.length - ((encode front).length + 1) = (encode back).length + 1 := by omega
  have stored : (set.data.store (encode front).length piece.first).words =
      (encode front ++ [piece.first]) ++ chunk.first :: (encode back ++ rest) := by
    rw [Block.words_store, shape, encode_cons, Chunk.words_range several]
    simp
  obtain ⟨left, closed⟩ := Block.words_closeGap_succ _ junk.outside _ _ _ _ stored
  rw [length_append, length_singleton] at closed
  rw [count]
  have shape' : ((set.data.store (encode front).length piece.first).closeGap junk.outside
      ((encode front).length + 1) ((encode back).length + 1)).words =
      encode front ++ (encode [piece] ++ (encode back ++ left :: rest)) := by
    rw [closed, encode_cons, Chunk.words_literal single]
    simp
  refine ⟨remainder, Layout.of_parts shape' (by simp only; omega), ?_, ?_⟩
  · rw [Block.size_closeGap, Block.size_store]
  · intro space before
    have room := space several
    rw [RangeRoom, if_pos two] at room
    rw [Block.inBounds_closeGap, Block.inBounds_store, Block.size_closeGap, Block.size_store]
    refine ⟨⟨⟨before, by omega⟩, fun _ => by omega⟩, .inl ?_⟩
    simp only
    omega

private lemma Shortened.inPlace (long : ¬ chunk.last = chunk.first + 1)
    (short : chunk.last = chunk.first + 2 ∨ number = chunk.first ∨ number = chunk.last)
    (pieces : List Chunk) (remainder : Remainder chunk number pieces) (head start : Int)
    (words : encode pieces = [head, start]) (nonzero : EndsNonzero pieces) {data : Block} (stored :
      data.words = (set.data.words.set (encode front).length head).set ((encode front).length + 1)
      start) (writes : (encode front).length + 1 < set.data.size → set.data.inBounds = true →
      data.inBounds = true) :
    Shortened set { set with data := data } front chunk back number pieces := by
  obtain ⟨rest, shape, ends⟩ := layout.parts
  have inside := layout.le_size (Nat.zero_le _)
  have width : (encode [chunk]).length = 2 := by simp [Chunk.words_range several]
  have size : data.size = set.data.size := by
    simp only [Block.size, stored, length_set]
  have shape' : data.words = encode front ++ (encode pieces ++ (encode back ++ rest)) := by
    rw [stored, shape, encode_cons, Chunk.words_range several, words]
    simp
  have width' : (encode pieces).length = 2 := congrArg List.length words
  refine ⟨remainder, Layout.of_parts shape' (by simp only; omega), Nat.le_of_eq size.symm, ?_⟩
  intro space before
  have room := space several
  rw [RangeRoom, if_neg long, if_pos short] at room
  refine ⟨writes (by omega) before, ?_⟩
  simp only [size]
  apply room.imp id
  intro nonzero'
  apply EndsNonzero.append
  · exact nonzero'.append (fun _ => nonzero)
  · intro none
    rw [(append_eq_nil_iff.mp none).1] at words
    cases words

end

private lemma dropZeroLength_nonzero {data : Block} {front rest : List Int} {head : Int}
    (shape : data.words = front ++ head :: rest) (nonzero : head ≠ 0) (length : Nat) :
    dropZeroLength junk data length front.length = (data, length) := by
  have inside : front.length < data.size := by simp [Block.size, shape]
  have read : data.word junk.outside front.length = head := by simp [Block.word, shape]
  simp only [dropZeroLength, data.touch_of_lt inside, read, if_neg nonzero]

private lemma dropZeroLength_zero {data : Block} {front rest : List Int} {start : Int}
    (back : List Int) (shape : data.words = front ++ 0 :: start :: (back ++ rest)) {length : Nat}
    (ends : length = front.length + 2 + back.length) :
    ∃ left result, dropZeroLength junk data length front.length = (result, length - 1) ∧
      result.words = front ++ start :: (back ++ left :: rest) ∧ result.size = data.size ∧
      (length < data.size → data.inBounds = true → result.inBounds = true) := by
  have inside : front.length + 1 < data.size := by simp [Block.size, shape]
  have read : data.word junk.outside front.length = 0 := by simp [Block.word, shape]
  have count : length - (front.length + 1) = back.length + 1 := by omega
  have copied : (data.copyWord junk.outside (front.length + 1) front.length).words =
      (front ++ [start]) ++ start :: (back ++ rest) := by
    have read' : data.word junk.outside (front.length + 1) = start := by simp [Block.word, shape]
    rw [Block.words_copyWord, read', shape]
    simp
  obtain ⟨left, closed⟩ := Block.words_closeGap_succ _ junk.outside _ _ _ _ copied
  rw [length_append, length_singleton] at closed
  refine ⟨left, (data.copyWord junk.outside (front.length + 1) front.length).closeGap junk.outside
    (front.length + 1) (back.length + 1), ?_, ?_, ?_, ?_⟩
  · simp only [dropZeroLength, data.touch_of_lt (Nat.lt_of_succ_lt inside), read, if_true, count]
  · rw [closed]
    simp
  · rw [Block.size_closeGap, Block.size_copyWord]
  · intro room before
    rw [Block.inBounds_closeGap, Block.inBounds_copyWord, Block.size_copyWord]
    exact ⟨⟨before, by omega, by omega⟩, fun _ => by omega⟩

section

variable (several : chunk.first < chunk.last)
  (layout : Layout set.data set.length 0 (front ++ ([chunk] ++ back)))
include several layout

/-- The four words that stand for the two ends of a split range. -/
private theorem removeSplit_words (number : Int) :
    ∃ (data : Block) (rest : List Int),
      removeSplit junk set (encode front).length chunk.first chunk.last number =
        (let (data, length) := dropZeroLength junk data (set.length + 2) (encode front).length
        let (data, length) := dropZeroLength junk data length ((encode front).length + 2)
        { set with data := data, length := length }) ∧
      data.words = encode front ++ -(number - chunk.first - 1) :: chunk.first ::
        -(chunk.last - number - 1) :: (number + 1) :: (encode back ++ rest) ∧
      data.size = (if set.data.size - set.length ≤ 2 then 2 * set.data.size else set.data.size) ∧
      (set.length + 2 < data.size → set.data.inBounds = true → data.inBounds = true) := by
  obtain ⟨grown, same⟩ : ∃ grown, grown =
    if set.data.size - set.length ≤ 2 then set.data.grow junk else set.data := ⟨_, rfl⟩
  have size : grown.size =
      if set.data.size - set.length ≤ 2 then 2 * set.data.size else set.data.size := by
    rw [same, apply_ite Block.size, Block.size_grow]
  have bounds : set.data.inBounds = true → grown.inBounds = true := by
    intro before
    rw [same]
    split
    · exact before
    · exact before
  have layout' : Layout grown set.length 0 (front ++ ([chunk] ++ back)) := by
    rw [same]
    split
    · exact layout.grow junk
    · exact layout
  obtain ⟨rest, shape, ends⟩ := layout'.parts
  have width : (encode [chunk]).length = 2 := by simp [Chunk.words_range several]
  have inside := layout.le_size (Nat.zero_le _)
  have total := congrArg List.length shape
  have size' : grown.size = grown.words.length := rfl
  simp only [length_append] at total
  have room : set.length + 2 ≤ grown.size := by
    rw [size]
    split
    · omega
    · omega
  obtain ⟨gap, tail, opened, four⟩ := grown.words_openGap junk.outside 2 (set.length + 2)
    (set.length - (encode front).length) (encode front) (encode [chunk]) (encode back) rest shape
    (by omega) (by omega) (by omega) (by omega) (by omega) (by omega) (by omega)
  rw [width] at four
  obtain ⟨a, b, c, d, rfl⟩ : ∃ a b c d, gap = [a, b, c, d] :=
    match gap, four with
    | [a, b, c, d], _ => ⟨a, b, c, d, rfl⟩
  refine ⟨_, tail, by rw [removeSplit, ← same], ?_, ?_, ?_⟩
  · simp only [Block.words_store, opened]
    simp
  · simp only [Block.size_store, Block.size_openGap, size]
  · intro inside' before
    simp only [Block.size_store, Block.size_openGap] at inside'
    simp only [Block.inBounds_store, Block.size_store, Block.size_openGap]
    rw [Block.inBounds_openGap _ _ _ _ _ (by omega)]
    exact ⟨⟨⟨⟨⟨bounds before, fun _ => inside'⟩, by omega⟩, by omega⟩, by omega⟩, by omega⟩

private lemma Shortened.split (long : chunk.first + 2 < chunk.last) (lower : chunk.first < number)
    (upper : number < chunk.last) :
    ∃ pieces, Shortened set
      (removeSplit junk set (encode front).length chunk.first chunk.last number) front chunk back
      number pieces := by
  obtain ⟨data, rest, run, words, size, bounds⟩ := removeSplit_words junk several layout number
  have width : (encode [chunk]).length = 2 := by simp [Chunk.words_range several]
  obtain ⟨_, _, ends⟩ := layout.parts
  have room : RangeRoom set.data.size set.length chunk.first chunk.last number (EndsNonzero back) →
      set.length + 2 < data.size := by
    intro room
    rw [RangeRoom, if_neg (by omega), if_neg (by omega)] at room
    rw [size]
    exact room
  have grown : set.data.size ≤ data.size := by
    rw [size]
    split
    · omega
    · exact Nat.le_refl _
  have low := chunk.nonnegative
  obtain ⟨left, leftFirst, leftLast⟩ : ∃ left : Chunk, left.first = chunk.first ∧
    left.last = number - 1 := ⟨⟨chunk.first, number - 1, low, by omega⟩, rfl, rfl⟩
  obtain ⟨right, rightFirst, rightLast⟩ : ∃ right : Chunk, right.first = number + 1 ∧
    right.last = chunk.last := ⟨⟨number + 1, chunk.last, by omega, by omega⟩, rfl, rfl⟩
  have remainder : Remainder chunk number [left, right] :=
    Remainder.pair (by omega) (fun other => by omega)
  have finish : ∀ (result : Block) (length : Nat) (rest : List Int),
      result.words = encode front ++ ((left.words ++ right.words) ++ (encode back ++ rest)) →
      length = (encode front).length + ((left.words ++ right.words).length + (encode back).length) →
      length ≤ set.length + 2 → result.size = data.size →
      (set.length + 2 < data.size → data.inBounds = true → result.inBounds = true) →
      Shortened set { set with data := result, length := length } front chunk back number
        [left, right] := by
    intro result length rest shape ends' short size' writes
    have both : encode [left, right] = left.words ++ right.words := by simp
    refine ⟨remainder, Layout.of_parts (by rw [both]; exact shape) (by rw [both]; exact ends'), ?_, ?_⟩
    · simp only [size']
      exact grown
    · intro space before
      have wide := room (space several)
      refine ⟨writes wide (bounds wide before), .inl ?_⟩
      simp only [size']
      omega
  refine ⟨[left, right], ?_⟩
  rw [run]
  by_cases single : number = chunk.first + 1
  · have zero : -(number - chunk.first - 1) = 0 := by omega
    have words' : data.words = encode front ++ 0 :: chunk.first ::
        ([-(chunk.last - number - 1), number + 1] ++ encode back ++ rest) := by
      rw [words, zero]
      simp
    obtain ⟨filler, result, run₁, words₁, size₁, writes₁⟩ :=
      dropZeroLength_zero junk ([-(chunk.last - number - 1), number + 1] ++ encode back) words'
        (show set.length + 2 = _ by simp only [length_append, length_cons, length_nil]; omega)
    have words₂ : result.words = (encode front ++ [chunk.first, -(chunk.last - number - 1)]) ++
        (number + 1) :: (encode back ++ filler :: rest) := by
      rw [words₁]
      simp
    have index : (encode front).length + 2 =
        (encode front ++ [chunk.first, -(chunk.last - number - 1)]).length := by simp
    have nonzero : number + 1 ≠ 0 := by omega
    rw [run₁, index]
    simp only
    rw [dropZeroLength_nonzero junk words₂ nonzero]
    apply finish result _ (filler :: rest)
    · rw [words₁, Chunk.words_literal (by omega), Chunk.words_range (by omega), leftFirst,
        rightFirst, rightLast]
      simp
      omega
    · rw [Chunk.words_literal (by omega), Chunk.words_range (by omega)]
      simp only [length_append, length_cons, length_nil]
      omega
    · omega
    · exact size₁
    · exact writes₁
  · have head : -(number - chunk.first - 1) ≠ 0 := by omega
    rw [dropZeroLength_nonzero junk words head]
    have words' : data.words = (encode front ++ [-(number - chunk.first - 1), chunk.first]) ++
        -(chunk.last - number - 1) :: (number + 1) :: (encode back ++ rest) := by
      rw [words]
      simp
    have index : (encode front).length + 2 =
        (encode front ++ [-(number - chunk.first - 1), chunk.first]).length := by simp
    simp only [index]
    by_cases final : number + 1 = chunk.last
    · have zero : -(chunk.last - number - 1) = 0 := by omega
      rw [zero] at words'
      obtain ⟨filler, result, run₁, words₁, size₁, writes₁⟩ :=
        dropZeroLength_zero junk (encode back) words'
          (show set.length + 2 = _ by
            simp only [length_append, length_cons, length_nil]
            omega)
      rw [run₁]
      apply finish result _ (filler :: rest)
      · rw [words₁, Chunk.words_range (by omega), Chunk.words_literal (by omega), leftFirst,
          leftLast, rightFirst]
        simp
        omega
      · rw [Chunk.words_range (by omega), Chunk.words_literal (by omega)]
        simp only [length_append, length_cons, length_nil]
        omega
      · omega
      · exact size₁
      · exact writes₁
    · have tail : -(chunk.last - number - 1) ≠ 0 := by omega
      rw [dropZeroLength_nonzero junk words' tail]
      apply finish data _ rest
      · rw [words, Chunk.words_range (by omega), Chunk.words_range (by omega), leftFirst,
          leftLast, rightFirst, rightLast]
        simp
        omega
      · rw [Chunk.words_range (by omega), Chunk.words_range (by omega)]
        simp only [length_append, length_cons, length_nil]
        omega
      · exact Nat.le_refl _
      · rfl
      · exact fun _ => id

lemma removeFromRange_spec (lower : chunk.first ≤ number) (upper : number ≤ chunk.last) :
    ∃ pieces, Shortened set
      (removeFromRange junk set (encode front).length chunk.first chunk.last number) front chunk
      back number pieces := by
  have low := chunk.nonnegative
  obtain ⟨_, shape, ends⟩ := layout.parts
  have head : set.data.word junk.outside (encode front).length = -(chunk.last - chunk.first) := by
    simp [Block.word, shape, Chunk.words_range several]
  unfold removeFromRange
  by_cases two : chunk.last = chunk.first + 1
  · rw [if_pos two]
    by_cases same : number = chunk.first
    · rw [if_pos same]
      refine ⟨_, Shortened.pair junk several layout two
        (Chunk.literal chunk.last (by omega)) rfl (Remainder.single (fun other => ?_))⟩
      simp only [Chunk.literal]
      omega
    · rw [if_neg same]
      refine ⟨_, Shortened.pair junk several layout two
        (Chunk.literal chunk.first (by omega)) rfl (Remainder.single (fun other => ?_))⟩
      simp only [Chunk.literal]
      omega
  · rw [if_neg two]
    by_cases three : chunk.last = chunk.first + 2
    · rw [if_pos three]
      have literals : ∀ (data : Block) (x y : Int) (before : 0 ≤ x) (after : x < y),
          data.words = (set.data.words.set (encode front).length x).set
            ((encode front).length + 1) y →
          ((encode front).length + 1 < set.data.size → set.data.inBounds = true →
            data.inBounds = true) →
          (∀ other, (other = x ∨ other = y) ↔
            (chunk.first ≤ other ∧ other ≤ chunk.last) ∧ other ≠ number) →
          ∃ pieces, Shortened set { set with data := data } front chunk back number pieces := by
        intro data x y before after stored writes same
        refine ⟨_, Shortened.inPlace several layout two (.inl three)
          [Chunk.literal x before, Chunk.literal y (by omega)]
          (Remainder.pair after (fun other => ?_)) x y (by simp) ?_ stored writes⟩
        · rw [← same]
          simp only [Chunk.literal]
          omega
        · intro piece last
          simp at last
          rw [← last]
          exact Int.lt_of_le_of_lt before after
      by_cases first : chunk.first = number
      · simp only [if_pos first]
        apply literals _ (chunk.first + 1) chunk.last (by omega) (by omega)
        · simp only [Block.words_store]
          rw [set_comm _ _ (by omega), set_set]
        · intro inside before
          simp only [Block.inBounds_store, Block.size_store]
          exact ⟨⟨⟨before, by omega⟩, inside⟩, by omega⟩
        · intro other
          omega
      · simp only [if_neg first]
        by_cases last : chunk.last = number
        · simp only [if_pos last]
          apply literals _ chunk.first (chunk.last - 1) (by omega) (by omega)
          · simp only [Block.words_store]
            rw [set_set]
          · intro inside before
            simp only [Block.inBounds_store, Block.size_store]
            exact ⟨⟨⟨before, by omega⟩, inside⟩, inside⟩
          · intro other
            omega
        · simp only [if_neg last]
          apply literals _ chunk.first chunk.last (by omega) (by omega)
          · rfl
          · intro inside before
            simp only [Block.inBounds_store, Block.size_store]
            exact ⟨⟨before, by omega⟩, inside⟩
          · intro other
            omega
    · rw [if_neg three]
      have range : ∀ (data : Block) (x y : Int) (nonnegative : 0 ≤ x) (order : x < y),
          data.words = (set.data.words.set (encode front).length (-(y - x))).set
            ((encode front).length + 1) x →
          ((encode front).length + 1 < set.data.size → set.data.inBounds = true →
            data.inBounds = true) →
          (number = chunk.first ∨ number = chunk.last) →
          (∀ other, (x ≤ other ∧ other ≤ y) ↔
            (chunk.first ≤ other ∧ other ≤ chunk.last) ∧ other ≠ number) →
          ∃ pieces, Shortened set { set with data := data } front chunk back number pieces := by
        intro data x y nonnegative order stored writes edge same
        refine ⟨_, Shortened.inPlace several layout two (.inr edge)
          [⟨x, y, nonnegative, Int.le_of_lt order⟩] (Remainder.single same) (-(y - x)) x ?_ ?_ stored
          writes⟩
        · rw [encode_cons, Chunk.words_range order, encode_nil, append_nil]
        · intro piece last
          simp at last
          rw [← last]
          exact Int.lt_of_le_of_lt nonnegative order
      have head' : -(chunk.last - chunk.first) + 1 = -(chunk.last - (chunk.first + 1)) := by omega
      by_cases first : chunk.first = number
      · rw [if_pos first]
        apply range _ (chunk.first + 1) chunk.last (by omega) (by omega)
        · have later : ∀ value, ((set.data.touch (encode front).length).store (encode front).length
              value).word junk.outside ((encode front).length + 1) = chunk.first := by
            intro value
            simp [Block.word, Block.store, shape, Chunk.words_range several]
          simp only [Block.words_store, Block.words_touch, later, head, head']
        · intro inside before
          simp only [Block.inBounds_store, Block.inBounds_touch, Block.size_touch, Block.size_store]
          exact ⟨⟨⟨⟨before, by omega⟩, by omega⟩, inside⟩, inside⟩
        · exact .inl first.symm
        · intro other
          omega
      · rw [if_neg first]
        by_cases last : chunk.last = number
        · rw [if_pos last]
          apply range _ chunk.first (chunk.last - 1) low (by omega)
          · have head'' : -(chunk.last - chunk.first) + 1 = -(chunk.last - 1 - chunk.first) := by
              omega
            simp only [Block.words_store, Block.words_touch, head, head'']
            simp [shape, Chunk.words_range several]
          · intro inside before
            simp only [Block.inBounds_store, Block.inBounds_touch, Block.size_touch]
            exact ⟨⟨before, by omega⟩, by omega⟩
          · exact .inr last.symm
          · intro other
            omega
        · rw [if_neg last]
          exact Shortened.split junk several layout (by omega) (by omega) (by omega)

end

private lemma Shortened.literal (single : chunk.first = chunk.last)
    (layout : Layout set.data set.length 0 (front ++ ([chunk] ++ back))) (same : chunk.first = number) :
    Shortened set { set with
      data := set.data.closeGap junk.outside (encode front).length
        (set.length - 1 - (encode front).length)
      length := set.length - 1 } front chunk back number [] := by
  obtain ⟨rest, shape, ends⟩ := layout.parts
  have inside := layout.le_size (Nat.zero_le _)
  have width : (encode [chunk]).length = 1 := by simp [Chunk.words_literal single]
  have count : set.length - 1 - (encode front).length = (encode back).length := by omega
  have shape' : set.data.words = encode front ++ chunk.first :: (encode back ++ rest) := by
    rw [shape, encode_cons, Chunk.words_literal single]
    rfl
  obtain ⟨left, closed⟩ := Block.words_closeGap _ junk.outside _ _ _ _ shape'
  rw [count]
  refine ⟨⟨List.Pairwise.nil, ?_⟩, Layout.of_parts closed (by simp; omega), ?_, ?_⟩
  · intro other
    simp only [not_holds_nil, false_iff]
    omega
  · rw [Block.size_closeGap]
  · intro _ before
    rw [Block.inBounds_closeGap, Block.size_closeGap]
    refine ⟨⟨before, fun _ => by omega⟩, .inl ?_⟩
    simp only
    omega

lemma remove_spec (layout : Layout set.data set.length 0 chunks) (number : Int) :
    (¬ Holds chunks number ∧ remove junk set number = ({ set with cachedValue := -1 }, 0)) ∨
      ∃ edited front chunk back pieces, chunks = front ++ ([chunk] ++ back) ∧
        ¬ Holds front number ∧ chunk.first ≤ number ∧ number ≤ chunk.last ∧
        remove junk set number = (optimize junk edited, 1) ∧
        Shortened set edited front chunk back number pieces := by
  have enough : chunks.length < set.length + 1 := Nat.lt_succ_of_le layout.count_le
  rcases removeLoop_spec junk layout number _ enough with ⟨absent, run⟩ |
    ⟨front, chunk, back, split, absent, lower, upper, run⟩
  · left
    refine ⟨absent, ?_⟩
    simp only [remove, run]
  · right
    rw [Nat.zero_add] at run
    have layout' : Layout set.data set.length 0 (front ++ ([chunk] ++ back)) := split ▸ layout
    rcases Int.lt_or_eq_of_le chunk.ordered with several | single
    · obtain ⟨pieces, shortened⟩ : ∃ pieces, Shortened { set with cachedValue := -1 }
          (removeFromRange junk { set with cachedValue := -1 } (encode front).length chunk.first
            chunk.last number) front chunk back number pieces :=
        removeFromRange_spec junk several layout' lower upper
      refine ⟨_, front, chunk, back, pieces, split, absent, lower, upper, ?_, shortened.remainder,
        shortened.layout, shortened.grown, shortened.inBounds⟩
      simp only [remove, run, several, decide_true]
    · have shortened : Shortened { set with cachedValue := -1 } _ front chunk back number [] :=
        Shortened.literal junk single layout' (by omega)
      refine ⟨_, front, chunk, back, [], split, absent, lower, upper, ?_, shortened.remainder,
        shortened.layout, shortened.grown, shortened.inBounds⟩
      have same : ¬ chunk.first < chunk.last := by omega
      simp only [remove, run, same, decide_false]

lemma add_spec (layout : Layout set.data set.length 0 chunks) (room : 0 < set.data.size)
    {number : Int} (nonnegative : 0 ≤ number) :
    ∃ front back, StopsAt number chunks front back ∧
      (startsBelow number back = true →
        add junk set number = ({ set with cachedValue := -1 }, 0)) ∧
      (¬ startsBelow number back = true → ∃ edited, add junk set number = (optimize junk edited, 1) ∧
        Layout edited.data edited.length 0
          (front ++ ([Chunk.literal number nonnegative] ++ back)) ∧
        edited.length = set.length + 1 ∧
        edited.data.size =
          (if set.data.size ≤ set.length + 1 then 2 * set.data.size else set.data.size) ∧
        (set.data.inBounds = true → edited.data.inBounds = true)) := by
  have enough : chunks.length < set.length + 1 := Nat.lt_succ_of_le layout.count_le
  obtain ⟨front, back, stops, run⟩ := addLoop_spec junk layout number _ enough
  rw [Nat.zero_add] at run
  refine ⟨front, back, stops, ?_, ?_⟩
  · intro present
    rw [if_pos present] at run
    simp only [add, if_neg (Int.not_lt.mpr nonnegative), run]
  · intro absent
    rw [if_neg absent] at run
    obtain ⟨layout', size, bounds⟩ :=
      insertLiteral_spec junk (stops.split ▸ layout) room nonnegative
    refine ⟨{ set with
      data := insertLiteral junk set.data set.length (encode front).length number
      length := set.length + 1
      cachedValue := -1 }, ?_, layout', rfl, size, bounds⟩
    simp only [add, if_neg (Int.not_lt.mpr nonnegative), run]

end MsgKeySet

end CommCentral.Base
