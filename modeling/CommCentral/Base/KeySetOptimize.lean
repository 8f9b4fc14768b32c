import CommCentral.Base.KeySetScan

/-! `Optimize`: chunks without a gap between them become one chunk. -/
namespace CommCentral.Base
open Lib List

lemma Chunk.ordered_of_touching {current next : Chunk} (touching : next.first = current.last + 1) :
    current.first ≤ next.last := by
  have upper := current.ordered
  have later := next.ordered
  omega

/-- The chunk with the chunks that follow it without a gap, and the chunks after those. -/
def absorb (current : Chunk) : List Chunk → Chunk × List Chunk
  | [] => (current, [])
  | next :: rest =>
    if touching : next.first = current.last + 1 then
      absorb ⟨current.first, next.last, current.nonnegative, Chunk.ordered_of_touching touching⟩ rest
    else (current, next :: rest)

lemma absorb_holds (current) (chunks) (number : Int) :
    Holds ((absorb current chunks).1 :: (absorb current chunks).2) number ↔
      Holds (current :: chunks) number := by
  induction chunks generalizing current with
  | nil => rfl
  | cons next rest ih =>
    rw [absorb]
    split
    · rename_i touching
      have upper := current.ordered
      have later := next.ordered
      rw [ih]
      simp only [holds_cons]
      rw [← or_assoc]
      apply or_congr_left
      omega
    · rfl

lemma absorb_ascending {chunks : List Chunk} (ascending : Ascending (current :: chunks)) :
    Ascending ((absorb current chunks).1 :: (absorb current chunks).2) := by
  induction chunks generalizing current with
  | nil => exact ascending
  | cons next rest ih =>
    rw [absorb]
    split
    · apply ih
      exact (ascending_cons ..).mpr ((ascending_cons next rest).mp ((ascending_cons ..).mp ascending).2)
    · exact ascending

lemma ascending_cons_of_holds {chunk : Chunk} {chunks others : List Chunk}
    (ascending : Ascending (chunk :: chunks)) (ascending' : Ascending others)
    (same : ∀ number, Holds others number ↔ Holds chunks number) : Ascending (chunk :: others) := by
  obtain ⟨later, _⟩ := (ascending_cons ..).mp ascending
  refine (ascending_cons ..).mpr ⟨?_, ascending'⟩
  intro other mem
  have held : Holds others other.first :=
    (holds_iff ..).mpr ⟨other, mem, Int.le_refl _, other.ordered⟩
  obtain ⟨origin, member', lower, _⟩ := (holds_iff ..).mp ((same other.first).mp held)
  exact Int.lt_of_lt_of_le (later origin member') lower

/-- A range of two numbers as two literals. -/
def splitPair (chunk : Chunk) : List Chunk :=
  if chunk.last = chunk.first + 1 then
    [Chunk.literal chunk.first chunk.nonnegative, Chunk.literal chunk.last (by
      have lower := chunk.nonnegative
      have ordered := chunk.ordered
      omega)]
  else [chunk]

lemma length_encode_splitPair (chunk) : (encode (splitPair chunk)).length = chunk.words.length := by
  rw [splitPair]
  split
  · rw [Chunk.words_range (by omega)]
    simp [Chunk.literal, Chunk.words]
  · rw [encode_cons, encode_nil, append_nil]

variable (chunks : List Chunk)

lemma length_encode_splitPairs :
    (encode (chunks.flatMap splitPair)).length = (encode chunks).length := by
  induction chunks with
  | nil => rfl
  | cons chunk chunks ih =>
    rw [flatMap_cons, encode_append, encode_cons, length_append, length_append,
      length_encode_splitPair, ih]

lemma mem_splitPair {chunk piece : Chunk} (mem : piece ∈ splitPair chunk) :
    chunk.first ≤ piece.first ∧ piece.last ≤ chunk.last := by
  rw [splitPair] at mem
  have ordered := chunk.ordered
  split at mem
  · simp only [mem_cons, not_mem_nil, or_false] at mem
    rcases mem with rfl | rfl
    · exact ⟨Int.le_refl _, ordered⟩
    · exact ⟨ordered, Int.le_refl _⟩
  · rw [mem_singleton.mp mem]
    exact ⟨Int.le_refl _, Int.le_refl _⟩

lemma splitPairs_holds (number : Int) :
    Holds (chunks.flatMap splitPair) number ↔ Holds chunks number := by
  induction chunks with
  | nil => rfl
  | cons chunk chunks ih =>
    rw [flatMap_cons, holds_append, holds_cons, ih, splitPair]
    apply or_congr_left
    split
    · simp only [holds_cons, not_holds_nil, or_false, Chunk.literal]
      omega
    · simp

lemma splitPairs_ascending {chunks : List Chunk} (ascending : Ascending chunks) :
    Ascending (chunks.flatMap splitPair) := by
  induction chunks with
  | nil => exact ascending
  | cons chunk chunks ih =>
    obtain ⟨later, ascending⟩ := (ascending_cons ..).mp ascending
    rw [flatMap_cons, ascending_append]
    refine ⟨?_, ih ascending, ?_⟩
    · rw [splitPair]
      split
      · simp only [Ascending, pairwise_cons, mem_singleton, forall_eq, Chunk.literal]
        simp
        omega
      · exact pairwise_singleton _ _
    · intro piece mem other member'
      obtain ⟨origin, member₁, member₂⟩ := mem_flatMap.mp member'
      have gap := later origin member₁
      have lower := (mem_splitPair member₂).1
      have upper := (mem_splitPair mem).2
      omega

/-- Every number is below the limit. -/
def Bounded (limit : Int) (chunks : List Chunk) : Prop := ∀ chunk ∈ chunks, chunk.last < limit

lemma Bounded.tail {chunk : Chunk} {chunks : List Chunk}
    (bounded : Bounded limit (chunk :: chunks)) : Bounded limit chunks :=
  fun other mem => bounded other (mem_cons_of_mem chunk mem)

lemma Bounded.int32 {chunks : List Chunk} (bounded : Bounded (2 ^ 31 - 1) chunks) :
    Bounded (2 ^ 31) chunks := by
  intro chunk mem
  have upper := bounded chunk mem
  omega

lemma Bounded.of_holds {chunks others : List Chunk} (bounded : Bounded limit chunks)
    (held : ∀ number, Holds others number → Holds chunks number) : Bounded limit others := by
  intro other mem
  have inside : Holds others other.last :=
    (holds_iff ..).mpr ⟨other, mem, other.ordered, Int.le_refl _⟩
  obtain ⟨chunk, member', _, upper⟩ := (holds_iff ..).mp (held _ inside)
  exact Int.lt_of_le_of_lt upper (bounded chunk member')

lemma Bounded.append {front middle back : List Chunk} (bounded : Bounded limit (front ++ back))
    (inner : Bounded limit middle) : Bounded limit (front ++ (middle ++ back)) := by
  intro chunk mem
  rcases mem_append.mp mem with mem | mem
  · exact bounded chunk (mem_append_left back mem)
  · cases mem_append.mp mem with
    | inl mem => exact inner chunk mem
    | inr mem => exact bounded chunk (mem_append_right front mem)

/-- The last chunk is not the literal 0. -/
def EndsNonzero (chunks : List Chunk) : Prop := ∀ chunk ∈ chunks.getLast?, 0 < chunk.last

lemma EndsNonzero.suffix {chunks rest : List Chunk} (nonzero : EndsNonzero chunks)
    (suffix : rest <:+ chunks) : EndsNonzero rest := by
  intro chunk last
  obtain ⟨front, rfl⟩ := suffix
  apply nonzero
  rw [getLast?_append, Option.mem_def.mp last]
  rfl

lemma add32_succ {last : Int} (lower : 0 ≤ last) (upper : last < 2 ^ 31 - 1) :
    add32 last 1 = last + 1 := by
  rw [add32, Int.bmod_eq_of_le] <;> omega

lemma add32_succ_max : add32 (2 ^ 31 - 1) 1 = -2 ^ 31 := by decide

/-- The comparison with the next number is right even where that number wraps. -/
theorem eq_add32_succ_iff {last word : Int} (lower : 0 ≤ last) (upper : last < 2 ^ 31)
    (wordLower : -2 ^ 31 < word) (wordUpper : word < 2 ^ 31) :
    word = add32 last 1 ↔ word = last + 1 := by
  rcases Int.lt_or_eq_of_le (Int.le_sub_one_of_lt upper) with small | largest
  · rw [add32_succ lower small]
  · rw [largest, add32_succ_max]
    omega

namespace MsgKeySet

variable (junk : Junk)

private lemma words_lengthen {output : Block} {current : Chunk}
    (shape : output.words = front ++ current.words) (limit : Nat) (added : Int) (merged : Chunk)
    (positive : 0 < added) (start : merged.first = current.first)
    (finish : merged.last = current.last + added) :
    (lengthen junk limit output current.first (decide (current.first < current.last)) added).words =
      front ++ merged.words := by
  have ordered := current.ordered
  have target : merged.words = [-(current.last - current.first) - added, current.first] := by
    rw [Chunk.words_range (by omega), start, finish]
    congr 1
    omega
  rw [target]
  rcases Int.lt_or_eq_of_le ordered with several | single
  · rw [Chunk.words_range several] at shape
    simp only [lengthen, several, decide_true, if_true, Block.words_store, Block.word, Block.size,
      shape]
    simp
  · rw [Chunk.words_literal single] at shape
    have same : ¬ current.first < current.last := by omega
    simp only [lengthen, same, decide_false, Block.words_store, Block.word, Block.size, Block.push,
      shape]
    simp [single]

private lemma size_lengthen_le (limit : Nat) (output : Block) (first : Int) (isRange : Bool)
    (added : Int) : (lengthen junk limit output first isRange added).size ≤ output.size + 1 := by
  cases isRange with
  | false => simp [lengthen]
  | true => simp [lengthen]

private lemma inBounds_lengthen {output : Block} {current : Chunk}
    (shape : output.words = front ++ current.words) (room : output.size < limit) (added : Int)
    (before : output.inBounds = true) :
    (lengthen junk limit output current.first (decide (current.first < current.last))
      added).inBounds = true := by
  have count := congrArg List.length shape
  rw [length_append] at count
  rcases Int.lt_or_eq_of_le current.ordered with several | single
  · rw [Chunk.words_range several] at count
    simp only [lengthen, several, decide_true, if_true, Block.inBounds_store]
    refine ⟨before, ?_⟩
    simp only [Block.size, count, length_cons, length_nil]
    omega
  · rw [Chunk.words_literal single] at count
    have same : ¬ current.first < current.last := by omega
    have final : output.size - 1 < output.size := by
      simp only [Block.size, count, length_singleton]
      omega
    simp only [lengthen, same, decide_false, Bool.false_eq_true, if_false, Block.inBounds_store,
      Block.inBounds_push, Block.size_push, Block.size_store]
    exact ⟨⟨⟨before, final⟩, room⟩, by omega⟩

/-- What the inner loop leaves: a longer chunk at the end of the output and the chunks that
are still to be read. -/
structure Extended (input : Block) (length : Nat) (front : List Int) (current : Chunk)
    (chunks : List Chunk) (output : Block) (result : Block × Nat × Block) (merged : Chunk)
    (rest : List Chunk) : Prop where
  words : result.1.words = input.words
  reads : length < input.size ∨ EndsNonzero chunks → input.inBounds = true →
    result.1.inBounds = true
  next : Layout result.1 length result.2.1 rest ∨ rest = [] ∧ length < result.2.1
  suffix : rest <:+ chunks
  written : result.2.2.words = front ++ merged.words
  writes : output.inBounds = true → result.2.2.inBounds = true
  fits : result.2.2.size ≤ result.2.1 ∧ result.2.2.size ≤ length
  exact : Ascending (current :: chunks) →
    absorb current chunks = (merged, rest) ∧ Layout result.1 length result.2.1 rest

private lemma Extended.step {input input' output output' : Block} {length : Nat}
    {current longer merged : Chunk} {chunks rest : List Chunk} (passed : List Chunk)
    (extended : Extended input' length front longer chunks output' result merged rest)
    (words : input'.words = input.words) (reads : length < input.size ∨ EndsNonzero (passed ++
      chunks) → input.inBounds = true → input'.inBounds = true)
    (writes : output.inBounds = true → output'.inBounds = true) (exact : Ascending (current ::
      (passed ++ chunks)) → Ascending (longer :: chunks) ∧ absorb current (passed ++ chunks) =
      absorb longer chunks) :
    Extended input length front current (passed ++ chunks) output result merged rest where
  words := extended.words.trans words
  reads := by
    intro room before
    have suffix : chunks <:+ passed ++ chunks := suffix_append passed chunks
    have room' : length < input'.size ∨ EndsNonzero chunks := by
      apply room.imp
      · intro inside
        rw [Block.size, words]
        exact inside
      · intro nonzero
        exact nonzero.suffix suffix
    exact extended.reads room' (reads room before)
  next := extended.next
  suffix := extended.suffix.trans (suffix_append passed chunks)
  written := extended.written
  writes := fun before => extended.writes (writes before)
  fits := extended.fits
  exact := by
    intro ascending
    obtain ⟨ascending', same⟩ := exact ascending
    rw [same]
    exact extended.exact ascending'

/-- The inner loop stops where it stands. -/
private theorem Extended.stop {input input' output : Block} {length position : Nat}
    {chunks : List Chunk} (words : input'.words = input.words) (reads : length < input.size ∨
      EndsNonzero chunks → input.inBounds = true → input'.inBounds = true)
    (layout : Layout input length position chunks) (written : output.words = front ++ current.words)
    (fits : output.size ≤ position)
    (exact : Ascending (current :: chunks) → absorb current chunks = (current, chunks)) :
    Extended input length front current chunks output (input', position, output) current chunks where
  words := words
  reads := reads
  next := .inl (layout.congr words)
  suffix := suffix_rfl
  written := written
  writes := id
  fits := ⟨fits, Nat.le_trans fits (by have ends := layout.ends; omega)⟩
  exact := fun ascending => ⟨exact ascending, layout.congr words⟩

/-- The chunk `[current.first, last]`. -/
private def stretch (current : Chunk) (last : Int) (later : current.last < last) : Chunk :=
  ⟨current.first, last, current.nonnegative, by
    have ordered := current.ordered
    omega⟩

private lemma absorb_touching {current chunk : Chunk} (chunks : List Chunk)
    (touching : chunk.first = current.last + 1) (later : current.last < chunk.last) :
    absorb current (chunk :: chunks) = absorb (stretch current chunk.last later) chunks := by
  rw [absorb, dif_pos touching]
  rfl

private lemma ascending_stretch {current chunk : Chunk} {chunks : List Chunk}
    (ascending : Ascending (current :: chunk :: chunks)) (later : current.last < chunk.last) :
    Ascending (stretch current chunk.last later :: chunks) :=
  (ascending_cons ..).mpr ((ascending_cons chunk chunks).mp ((ascending_cons ..).mp ascending).2)

lemma optimizeExtend_spec {input output : Block} {length position : Nat} {chunks : List Chunk}
    (layout : Layout input length position chunks) (written : output.words = front ++ current.words)
    (fits : output.size ≤ position) (bounded : Bounded (2 ^ 31) (current :: chunks)) (fuel : Nat)
    (enough : chunks.length < fuel) :
    ∃ merged rest, Extended input length front current chunks output
      (optimizeExtend junk length fuel input position output current.first current.last
        (decide (current.first < current.last))) merged rest := by
  induction fuel generalizing input output position current chunks with
  | zero => omega
  | succ fuel ih =>
    have small : current.last < 2 ^ 31 := bounded current mem_cons_self
    have lower : 0 ≤ current.last := Int.le_trans current.nonnegative current.ordered
    cases chunks with
    | nil =>
      have ends := layout.nil_ends
      refine ⟨current, [], ?_⟩
      rw [optimizeExtend, if_neg (by omega)]
      exact Extended.stop rfl (fun _ => id) layout written fits (fun _ => rfl)
    | cons chunk chunks =>
      have bounded' : Bounded (2 ^ 31) (chunk :: chunks) := fun other mem =>
        bounded other (mem_cons_of_mem _ mem)
      rw [length_cons] at enough
      have room : position < length := by
        have ends := layout.ends
        have width := chunk.words_length_pos
        rw [encode_cons, length_append] at ends
        omega
      -- the chunks in `passed`, with `added` numbers more, become part of the current one
      have merge : ∀ (passed others : List Chunk) (width : Nat) (added : Int) (longer : Chunk),
          chunk :: chunks = passed ++ others → others.length < fuel → 0 < width → 0 < added →
          longer.first = current.first → longer.last = current.last + added →
          longer.last < 2 ^ 31 → Layout input length (position + width) others →
          (Ascending (current :: (passed ++ others)) → Ascending (longer :: others) ∧
            absorb current (passed ++ others) = absorb longer others) →
          ∃ merged rest, Extended input length front current (chunk :: chunks) output
            (optimizeExtend junk length fuel input (position + width)
              (lengthen junk (length + 1) output current.first
                (decide (current.first < current.last)) added) current.first
              (current.last + added) true) merged rest := by
        intro passed others width added longer split enough' wide positive start finish upper next
          exact
        have isRange : decide (longer.first < longer.last) = true :=
          decide_eq_true (by have below := current.ordered; omega)
        have smaller : Bounded (2 ^ 31) (longer :: others) := by
          intro other mem
          rcases mem_cons.mp mem with rfl | mem
          · exact upper
          · exact bounded' other (split ▸ mem_append_right passed mem)
        obtain ⟨merged, rest, extended⟩ := ih next
          (words_lengthen junk written (length + 1) added longer positive start finish)
          (Nat.le_trans (size_lengthen_le ..) (by omega)) smaller enough'
        rw [isRange, start, finish] at extended
        rw [split]
        exact ⟨merged, rest, Extended.step passed extended rfl (fun _ => id)
          (inBounds_lengthen junk written (by omega) added) exact⟩
      -- a chunk that starts right behind the current one
      have touch : ∀ (width : Nat) (added : Int), 0 < width → added = chunk.last - chunk.first + 1 →
          chunk.first = current.last + 1 → Layout input length (position + width) chunks →
          ∃ merged rest, Extended input length front current (chunk :: chunks) output
            (optimizeExtend junk length fuel input (position + width)
              (lengthen junk (length + 1) output current.first
                (decide (current.first < current.last)) added) current.first
              (current.last + added) true) merged rest := by
        intro width added wide sum touching next
        have ordered := chunk.ordered
        have later : current.last < chunk.last := by omega
        exact merge [chunk] chunks width added (stretch current chunk.last later) rfl (by omega)
          wide (by omega) rfl (show chunk.last = _ by omega)
          (bounded' chunk mem_cons_self) next
          (fun ascending => ⟨ascending_stretch ascending later,
            absorb_touching chunks touching later⟩)
      have stay : ∀ input' : Block, input'.words = input.words →
          (length < input.size ∨ EndsNonzero (chunk :: chunks) → input.inBounds = true →
            input'.inBounds = true) →
          (Ascending (current :: chunk :: chunks) → ¬ chunk.first = current.last + 1) →
          ∃ merged rest, Extended input length front current (chunk :: chunks) output
            (input', position, output) merged rest := by
        intro input' words reads apart
        exact ⟨current, _, Extended.stop words reads layout written fits
          (fun ascending => by rw [absorb, dif_neg (apart ascending)])⟩
      have touches : chunk.first = add32 current.last 1 ↔ chunk.first = current.last + 1 := by
        have below := bounded' chunk mem_cons_self
        have start := chunk.nonnegative
        have ordered := chunk.ordered
        exact eq_add32_succ_iff lower small (by omega) (by omega)
      rcases layout_cases junk layout with
        ⟨before, touched, single, head, nonnegative, width, next⟩ |
        ⟨before, touched, several, head, negative, touched', start, width, next⟩
      · by_cases positive : chunk.first > 0
        · simp only [optimizeExtend, if_pos before, touched, head, touches, if_pos positive]
          by_cases touching : chunk.first = current.last + 1
          · rw [if_pos touching]
            exact touch 1 1 (by omega) (by omega) touching next
          · rw [if_neg touching]
            exact stay input rfl (fun _ => id) (fun _ => touching)
        · simp only [optimizeExtend, if_pos before, touched, head, if_neg positive,
            Block.word_touch]
          -- a literal 0 behind another chunk is taken for the length of a range
          have zero : chunk.first = 0 := by omega
          have notAscending : ¬ Ascending (current :: chunk :: chunks) := by
            intro ascending
            have later := ((ascending_cons ..).mp ascending).1 chunk mem_cons_self
            omega
          have apart : Ascending (current :: chunk :: chunks) → ¬ chunk.first = current.last + 1 :=
            fun ascending => absurd ascending notAscending
          have grown : current.last < current.last + (-chunk.first + 1) := by omega
          cases chunks with
          | nil =>
            have ends := next.nil_ends
            have reads : length < input.size ∨ EndsNonzero [chunk] → input.inBounds = true →
                (input.touch (position + 1)).inBounds = true := by
              intro room before
              rw [Block.inBounds_touch]
              cases room with
              | inl inside => exact ⟨before, by omega⟩
              | inr nonzero =>
                have last : 0 < chunk.last := nonzero chunk rfl
                omega
            by_cases touching : input.word junk.outside (position + 1) = add32 current.last 1
            · obtain ⟨fuel, rfl⟩ : ∃ rest, fuel = rest + 1 := ⟨fuel - 1, by omega⟩
              rw [if_pos touching, optimizeExtend, if_neg (by omega)]
              exact ⟨stretch current _ grown, [], {
                words := rfl
                reads := reads
                next := .inr ⟨rfl, by simp only; omega⟩
                suffix := nil_suffix
                written := words_lengthen junk written (length + 1) _ _ (by omega) rfl rfl
                writes := inBounds_lengthen junk written (by omega) _
                fits := by
                  have size := size_lengthen_le junk (length + 1) output current.first
                    (decide (current.first < current.last)) (-chunk.first + 1)
                  simp only
                  omega
                exact := fun ascending => absurd ascending notAscending }⟩
            · rw [if_neg touching]
              exact stay _ rfl reads apart
          | cons second chunks =>
            rcases layout_cases junk next with
              ⟨_, touched', single', head', _, _, next'⟩ | ⟨_, touched', _, head', negative, _⟩
            · have upper := bounded' second (mem_cons_of_mem _ mem_cons_self)
              have lower' := second.nonnegative
              have touches' : second.first = add32 current.last 1 ↔ second.first = current.last + 1 :=
                eq_add32_succ_iff lower small (by omega) (by omega)
              simp only [touched', head', touches']
              by_cases touching : second.first = current.last + 1
              · rw [if_pos touching]
                refine merge [chunk, second] chunks 2 (-chunk.first + 1) (stretch current _ grown) rfl
                  (by rw [length_cons] at enough; omega) (by omega) (by omega) rfl rfl ?_ next'
                  (fun ascending => absurd ascending notAscending)
                change current.last + (-chunk.first + 1) < 2 ^ 31
                omega
              · rw [if_neg touching]
                exact stay input rfl (fun _ => id) apart
            · have upper := bounded' second (mem_cons_of_mem _ mem_cons_self)
              have lower' := second.nonnegative
              have apart' : ¬ -(second.last - second.first) = add32 current.last 1 := by
                rw [eq_add32_succ_iff lower small (by omega) (by omega)]
                omega
              rw [touched', head', if_neg apart']
              exact stay input rfl (fun _ => id) apart
      · simp only [optimizeExtend, if_pos before, touched, head, touched', start, touches,
          if_neg (show ¬ -(chunk.last - chunk.first) > 0 by omega)]
        by_cases touching : chunk.first = current.last + 1
        · rw [if_pos touching]
          exact touch 2 _ (by omega) (by omega) touching next
        · rw [if_neg touching]
          exact stay input rfl (fun _ => id) (fun _ => touching)

/-- What the outer loop leaves in the output. -/
structure Coalesced (input : Block) (length : Nat) (front chunks : List Chunk) (output : Block)
    (input' output' : Block) (others : List Chunk) : Prop where
  words : input'.words = input.words
  reads : length < input.size ∨ EndsNonzero chunks.tail → input.inBounds = true →
    input'.inBounds = true
  written : output'.words = encode (front ++ others)
  writes : output.inBounds = true → output'.inBounds = true
  fits : output'.size ≤ length
  exact : Ascending chunks →
    Ascending others ∧ ∀ number, Holds others number ↔ Holds chunks number

lemma optimizeLoop_spec {input output : Block} {length position : Nat} {front chunks : List Chunk}
    (layout : Layout input length position chunks ∨ chunks = [] ∧ length < position)
    (written : output.words = encode front) (fits : output.size ≤ position ∧ output.size ≤ length)
    (bounded : Bounded (2 ^ 31) chunks) (fuel : Nat) (enough : chunks.length < fuel) :
    ∃ input' output' others, optimizeLoop junk length fuel input position output =
      (input', some output') ∧
        Coalesced input length front chunks output input' output' others := by
  induction fuel generalizing input output position front chunks with
  | zero => omega
  | succ fuel ih =>
    cases chunks with
    | nil =>
      have ends : ¬ position < length := by
        rcases layout with layout | ⟨_, beyond⟩
        · have ends := layout.nil_ends
          omega
        · omega
      rw [optimizeLoop, if_neg ends]
      exact ⟨input, output, [], rfl, rfl, fun _ => id, by rw [written, append_nil], id, fits.2,
        fun ascending => ⟨ascending, fun _ => Iff.rfl⟩⟩
    | cons chunk chunks =>
      have layout : Layout input length position (chunk :: chunks) :=
        layout.resolve_right (fun ends => cons_ne_nil _ _ ends.1)
      rw [length_cons] at enough
      have finish : ∀ (output₁ : Block) (position₁ : Nat),
          Layout input length position₁ chunks → output₁.words = encode front ++ chunk.words →
          output₁.size ≤ position₁ → (output.inBounds = true → output₁.inBounds = true) →
          optimizeLoop junk length (fuel + 1) input position output =
            (let found := optimizeExtend junk length (length + 1) input position₁ output₁ chunk.first
              chunk.last (decide (chunk.first < chunk.last))
            optimizeLoop junk length fuel found.1 found.2.1 found.2.2) →
          ∃ input' output' others, optimizeLoop junk length (fuel + 1) input position output =
            (input', some output') ∧
              Coalesced input length front (chunk :: chunks) output input' output' others := by
        intro output₁ position₁ next written₁ fits₁ writes₁ run
        have count := next.count_le
        obtain ⟨merged, rest, extended⟩ := optimizeExtend_spec junk next written₁ fits₁ bounded
          (length + 1) (by omega)
        have shorter : rest.length ≤ chunks.length := extended.suffix.length_le
        have written₂ := extended.written
        rw [← show encode (front ++ [merged]) = encode front ++ merged.words by simp] at written₂
        obtain ⟨input', output', others, run', coalesced⟩ := ih extended.next written₂ extended.fits
          (fun other mem => bounded other (mem_cons_of_mem _ (extended.suffix.mem mem)))
          (by omega)
        refine ⟨input', output', merged :: others, run.trans run', ?_⟩
        constructor
        · exact coalesced.words.trans extended.words
        · intro room before
          apply coalesced.reads
          · apply room.imp
            · intro inside
              rw [Block.size, extended.words]
              exact inside
            · intro nonzero
              exact nonzero.suffix ((tail_suffix rest).trans extended.suffix)
          · exact extended.reads room before
        · rw [coalesced.written, append_assoc, singleton_append]
        · intro before
          exact coalesced.writes (extended.writes (writes₁ before))
        · exact coalesced.fits
        · intro ascending
          have absorbed := (extended.exact ascending).1
          have ascending₁ := absorb_ascending ascending
          have holds₁ := absorb_holds chunk chunks
          rw [absorbed] at ascending₁ holds₁
          obtain ⟨ascending₂, holds₂⟩ := coalesced.exact ((ascending_cons ..).mp ascending₁).2
          refine ⟨ascending_cons_of_holds ascending₁ ascending₂ holds₂, ?_⟩
          intro number
          rw [← holds₁ number, holds_cons, holds_cons, holds₂ number]
      rcases layout_cases junk layout with
        ⟨before, touched, single, head, nonnegative, width, next⟩ |
        ⟨before, touched, several, head, negative, touched', start, width, next⟩
      · refine finish (output.push (length + 1) chunk.first) (position + 1) next ?_ ?_ ?_ ?_
        · rw [Block.words_push, written, Chunk.words_literal single]
        · rw [Block.size_push]
          omega
        · intro before'
          rw [Block.inBounds_push]
          exact ⟨before', by omega⟩
        · have fits' : ¬ (output.push (length + 1) chunk.first).size ≥ length + 1 := by
            rw [Block.size_push]
            omega
          simp only [optimizeLoop, if_pos before, touched, head, nonnegative, decide_false,
            Bool.false_eq_true, if_false, if_neg fits', ← single, Int.lt_irrefl]
      · have ends := next.ends
        refine finish ((output.push (length + 1) (-(chunk.last - chunk.first))).push (length + 1)
          chunk.first) (position + 2) next ?_ ?_ ?_ ?_
        · rw [Block.words_push, Block.words_push, written, Chunk.words_range several]
          simp
        · rw [Block.size_push, Block.size_push]
          omega
        · intro before'
          rw [Block.inBounds_push, Block.inBounds_push, Block.size_push]
          exact ⟨⟨before', by omega⟩, by omega⟩
        · have sum : chunk.first + -(-(chunk.last - chunk.first)) = chunk.last := by omega
          have fits' : ¬ ((output.push (length + 1) (-(chunk.last - chunk.first))).push (length + 1)
              chunk.first).size ≥ length + 1 := by
            rw [Block.size_push, Block.size_push]
            omega
          simp only [optimizeLoop, if_pos before, touched, head, negative, decide_true, if_true,
            touched', start, sum, if_neg fits', several]

lemma splitPairs_spec {data : Block} {front back : List Int} {chunks : List Chunk}
    (shape : data.words = front ++ (encode chunks ++ back)) (fuel : Nat)
    (enough : chunks.length < fuel) :
    (splitPairs junk (front.length + (encode chunks).length) fuel data front.length).words =
        front ++ (encode (chunks.flatMap splitPair) ++ back) ∧
      (data.inBounds = true → (splitPairs junk (front.length + (encode chunks).length) fuel data
        front.length).inBounds = true) := by
  induction fuel generalizing data front chunks with
  | zero => omega
  | succ fuel ih =>
    cases chunks with
    | nil =>
      rw [splitPairs, if_neg (by simp)]
      exact ⟨shape, id⟩
    | cons chunk chunks =>
      have layout := Layout.of_middle shape
      rw [length_cons] at enough
      have step : ∀ data' : Block,
          data'.words = front ++ (encode (splitPair chunk) ++ (encode chunks ++ back)) →
          (data.inBounds = true → data'.inBounds = true) →
          splitPairs junk (front.length + (encode (chunk :: chunks)).length) (fuel + 1) data
              front.length =
            splitPairs junk (front.length + (encode (chunk :: chunks)).length) fuel data'
              (front.length + chunk.words.length) →
          (splitPairs junk (front.length + (encode (chunk :: chunks)).length) (fuel + 1) data
              front.length).words =
              front ++ (encode ((chunk :: chunks).flatMap splitPair) ++ back) ∧
            (data.inBounds = true → (splitPairs junk
              (front.length + (encode (chunk :: chunks)).length) (fuel + 1) data
              front.length).inBounds = true) := by
        intro data' shape' writes run
        have same : front.length + chunk.words.length =
            (front ++ encode (splitPair chunk)).length := by
          rw [length_append, length_encode_splitPair]
        have total : front.length + (encode (chunk :: chunks)).length =
            (front ++ encode (splitPair chunk)).length + (encode chunks).length := by
          rw [length_append, length_encode_splitPair, encode_cons, length_append]
          omega
        rw [run, same, total]
        obtain ⟨words, bounds⟩ := ih (by rw [shape', append_assoc]) (by omega)
        refine ⟨?_, fun before => bounds (writes before)⟩
        rw [words, flatMap_cons, encode_append, append_assoc, append_assoc]
      rcases layout_cases junk layout with
        ⟨before, touched, single, head, nonnegative, width, next⟩ |
        ⟨before, touched, several, head, negative, touched', start, width, next⟩
      · have whole : splitPair chunk = [chunk] := by rw [splitPair, if_neg (by omega)]
        apply step data
        · rw [shape, whole]
          simp
        · exact id
        · rw [width]
          simp only [splitPairs, if_pos before, touched, head, if_neg nonnegative]
      · by_cases pair : chunk.last = chunk.first + 1
        · have shape' : data.words = front ++ (-1 :: chunk.first :: (encode chunks ++ back)) := by
            have one : -(chunk.last - chunk.first) = -1 := by omega
            rw [shape, encode_cons, Chunk.words_range several, one]
            simp
          apply step ((data.copyWord junk.outside (front.length + 1) front.length).store
            (front.length + 1) (chunk.first + 1))
          · rw [Block.words_store, Block.words_copyWord, start, shape', splitPair, if_pos pair]
            simp [Chunk.literal, Chunk.words, pair]
          · intro before'
            have size : front.length + 1 < data.size := by
              rw [Block.size, shape']
              simp
            rw [Block.inBounds_store, Block.inBounds_copyWord, Block.size_copyWord]
            exact ⟨⟨before', size, by omega⟩, size⟩
          · have first : (data.copyWord junk.outside (front.length + 1) front.length).word
                junk.outside (front.length + 1) = chunk.first := by
              rw [Block.word, Block.words_copyWord, shape']
              simp
            have one : -(chunk.last - chunk.first) = -1 := by omega
            rw [width]
            simp only [splitPairs, if_pos before, touched, head, if_pos negative, if_pos one, first]
        · have whole : splitPair chunk = [chunk] := by rw [splitPair, if_neg pair]
          have one : ¬ -(chunk.last - chunk.first) = -1 := by omega
          apply step data
          · rw [shape, whole]
            simp
          · exact id
          · rw [width]
            simp only [splitPairs, if_pos before, touched, head, if_pos negative, if_neg one]

/-- `Optimize` keeps the numbers and leaves a block that is longer than its contents. -/
structure Optimized (set result : MsgKeySet) (chunks others : List Chunk) : Prop where
  layout : Layout result.data result.length 0 others
  size : result.data.size = set.length + 1
  shorter : result.length ≤ set.length
  cache : result.cachedValue = -1
  inBounds : set.length < set.data.size ∨ EndsNonzero chunks.tail → set.data.inBounds = true →
    result.data.inBounds = true
  exact : Ascending chunks →
    Ascending others ∧ ∀ number, Holds others number ↔ Holds chunks number

lemma optimize_spec {set : MsgKeySet} {chunks : List Chunk}
    (layout : Layout set.data set.length 0 chunks) (bounded : Bounded (2 ^ 31) chunks) :
    ∃ others, Optimized set (optimize junk set) chunks others := by
  have written : (⟨[], true⟩ : Block).words = encode [] := rfl
  obtain ⟨input, output, others, run, coalesced⟩ := optimizeLoop_spec junk (.inl layout) written
    ⟨Nat.zero_le _, Nat.zero_le _⟩ bounded (set.length + 1) (Nat.lt_succ_of_le layout.count_le)
  have count : output.size = 0 + (encode others).length := by
    rw [Nat.zero_add]
    exact congrArg List.length coalesced.written
  have fits := coalesced.fits
  obtain ⟨data, same⟩ : ∃ data, data = { (output.finish junk (set.length + 1)) with
    inBounds := input.inBounds && output.inBounds } := ⟨_, rfl⟩
  obtain ⟨back, shape⟩ : ∃ back, data.words = [] ++ (encode others ++ back) := by
    rw [same]
    exact ⟨_, congrArg (· ++ _) coalesced.written⟩
  obtain ⟨words, bounds⟩ := splitPairs_spec junk shape (output.size + 1) (by
    have enough := length_le_encode others
    omega)
  have size : data.size = set.length + 1 := by
    rw [same]
    simp only [Block.size, Block.finish, length_append, length_map,
      length_range] at fits ⊢
    omega
  have width : (encode (others.flatMap splitPair)).length = (encode others).length :=
    length_encode_splitPairs others
  rw [length_nil, ← count] at words bounds
  have result : optimize junk set =
      { data := splitPairs junk output.size (output.size + 1) data 0
        length := output.size
        cachedValue := -1
        cachedValueIndex := set.cachedValueIndex } := by
    rw [optimize, run, same]
  rw [result]
  refine ⟨others.flatMap splitPair, Layout.of_shape words (by simp only; omega), ?_, fits, rfl, ?_, ?_⟩
  · have total := congrArg List.length words
    have total' := congrArg List.length shape
    simp only [nil_append, length_append, width] at total total'
    rw [← size]
    exact total.trans total'.symm
  · intro room before
    apply bounds
    rw [same]
    simp only [Bool.and_eq_true]
    exact ⟨coalesced.reads room before, coalesced.writes rfl⟩
  · intro ascending
    obtain ⟨ascending', holds⟩ := coalesced.exact ascending
    refine ⟨splitPairs_ascending ascending', ?_⟩
    intro number
    rw [splitPairs_holds, holds]

end MsgKeySet

end CommCentral.Base
