import CommCentral.Base.KeySetOptimize

/-! The set that `nsMsgKeySet::Create` reads from a newsrc string, and the calls that read
and lower the last member. -/
namespace CommCentral.Base
open List

/-- `isspace` in the C locale. -/
def isSpace (character : Char) : Bool :=
  character == ' ' || (9 ≤ character.toNat && character.toNat ≤ 13)

/-- Read decimal digits onto a number. The overflow of an `int32_t` is undefined, so the
number is not reduced; a set that such a number enters is not `Representable`. -/
def readDigits (number : Int) : List Char → Int × List Char
  | [] => (number, [])
  | character :: rest =>
    if character.isDigit then
      readDigits (number * 10 + (character.toNat - '0'.toNat : Nat)) rest
    else (number, character :: rest)

def skipSpace (numbers : List Char) : List Char := numbers.dropWhile isSpace

/-- The number `to` after a `-`, or else `from`. -/
def readLast (first : Int) : List Char → Int × List Char
  | '-' :: numbers =>
    let (last, numbers) := readDigits 0 numbers
    (last, skipSpace numbers)
  | numbers => (first, numbers)

/-- The numbers `from` and `to` of one entry, and the string after it. Article 0 counts as
read together with article 1. -/
def readEntry (numbers : List Char) : Int × Int × List Char :=
  let (first, numbers) := readDigits 0 numbers
  let (last, numbers) := readLast first (skipSpace numbers)
  (if first = 1 then 0 else first, if last < first then first else last, numbers)

lemma readDigits_nonnegative {number : Int} (nonnegative : 0 ≤ number) (numbers) :
    0 ≤ (readDigits number numbers).1 := by
  induction numbers generalizing number with
  | nil => exact nonnegative
  | cons character rest ih =>
    rw [readDigits]
    split
    · apply ih
      omega
    · exact nonnegative

lemma readEntry_ordered (numbers) :
    0 ≤ (readEntry numbers).1 ∧ (readEntry numbers).1 ≤ (readEntry numbers).2.1 := by
  have digits := readDigits_nonnegative (Int.le_refl 0) numbers
  simp only [readEntry]
  constructor
  · split
    · exact Int.le_refl 0
    · exact digits
  · split <;> split <;> omega

/-- The chunk of the entry at the start of a string. -/
def readChunk (numbers : List Char) : Chunk :=
  ⟨(readEntry numbers).1, (readEntry numbers).2.1, (readEntry_ordered numbers).1,
    (readEntry_ordered numbers).2⟩

/-- The string after the entry and the commas behind it. -/
def nextEntry (numbers : List Char) : List Char :=
  (readEntry numbers).2.2.dropWhile (fun character => character == ',' || isSpace character)

/-- The chunks of the entries of a string. -/
def readChunks : Nat → List Char → List Chunk
  | 0, _ => []
  | fuel + 1, numbers =>
    if numbers = [] then []
    else if (skipSpace numbers).head?.any (fun character => !character.isDigit) then []
    else readChunk (skipSpace numbers) :: readChunks fuel (nextEntry (skipSpace numbers))

namespace MsgKeySet

variable (junk : Junk)

/-- The loop of the constructor: the block and the index behind the last word. -/
def createLoop : Nat → List Char → Block → Nat → Block × Nat
  | 0, _, data, tail => (data, tail)
  | fuel + 1, numbers, data, tail =>
    if numbers = [] then (data, tail)
    else
      let data := if data.size ≤ tail + 4 then data.grow junk else data
      let numbers := skipSpace numbers
      if numbers.head?.any (fun character => !character.isDigit) then (data, tail)
      else
        let (first, last, numbers) := readEntry numbers
        let numbers := numbers.dropWhile (fun character => character == ',' || isSpace character)
        if last = first then createLoop fuel numbers (data.store tail first) (tail + 1)
        else
          createLoop fuel numbers ((data.store tail (-(last - first))).store (tail + 1) first)
            (tail + 2)

def create (numbers : List Char) : MsgKeySet :=
  let data : Block := ⟨(List.range initialSize).map junk.fresh, true⟩
  let numbers := skipSpace numbers
  let (data, tail) := createLoop junk (numbers.length + 1) numbers data 0
  { data := data, length := tail, cachedValue := -1, cachedValueIndex := 0 }

def getLastMember (set : MsgKeySet) : Block × Int :=
  if set.length > 1 then
    let data := set.data.touch (set.length - 2)
    let nextToLast := data.word junk.outside (set.length - 2)
    let data := data.touch (set.length - 1)
    let last := data.word junk.outside (set.length - 1)
    if nextToLast < 0 then (data, -nextToLast + last - 1) else (data, last)
  else if set.length = 1 then (set.data.touch 0, set.data.word junk.outside 0)
  else (set.data, 0)

/-- The loop of `SetLastMember`. -/
def lowerLoop (newHighWaterMark : Int) : Nat → Block → Nat → Block × Nat
  | 0, data, length => (data, length)
  | fuel + 1, data, length =>
    if length > 1 then
      let data := (data.touch (length - 2)).touch (length - 1)
      let nextToLast := data.word junk.outside (length - 2)
      let last := data.word junk.outside (length - 1)
      if nextToLast < 0 then
        if -nextToLast + last - 1 > newHighWaterMark then
          if last > newHighWaterMark then lowerLoop newHighWaterMark fuel data (length - 2)
          else if last = newHighWaterMark then
            (data.store (length - 2) newHighWaterMark, length - 1)
          else (data.store (length - 2) (-(newHighWaterMark - last)), length)
        else (data, length)
      else if last > newHighWaterMark then lowerLoop newHighWaterMark fuel data (length - 1)
      else (data, length)
    else (data, length)

def setLastMember (set : MsgKeySet) (newHighWaterMark : Int) : MsgKeySet :=
  let (data, lastMember) := getLastMember junk set
  if newHighWaterMark < lastMember then
    let (data, length) := lowerLoop junk newHighWaterMark set.length data set.length
    { set with data := data, length := length }
  else { set with data := data }

end MsgKeySet

open Lib

/-- What `SetLastMember` makes of the chunks at the end of a set. -/
inductive LoweredTo (newHighWaterMark : Int) : List Chunk → List Chunk → Prop where
  | none : LoweredTo newHighWaterMark [] []
  | only (chunk : Chunk) (single : chunk.first = chunk.last) :
      LoweredTo newHighWaterMark [chunk] [chunk]
  | drop {front others : List Chunk} {chunk : Chunk} (above : newHighWaterMark < chunk.first)
      (more : front = [] → chunk.first < chunk.last) (rest : LoweredTo newHighWaterMark front others) :
      LoweredTo newHighWaterMark (front ++ [chunk]) others
  | shorten (front : List Chunk) {chunk cut : Chunk} (first : cut.first = chunk.first)
      (last : cut.last = newHighWaterMark) (less : newHighWaterMark < chunk.last - 1) :
      LoweredTo newHighWaterMark (front ++ [chunk]) (front ++ [cut])
  | stay (front : List Chunk) {chunk : Chunk} (starts : chunk.first ≤ newHighWaterMark)
      (ends : chunk.first < chunk.last → chunk.last - 1 ≤ newHighWaterMark) :
      LoweredTo newHighWaterMark (front ++ [chunk]) (front ++ [chunk])

lemma nil_or_snoc (chunks : List Chunk) :
    chunks = [] ∨ ∃ front chunk, chunks = front ++ [chunk] := by
  cases eq_nil_or_concat chunks with
  | inl none => exact .inl none
  | inr some =>
    obtain ⟨front, chunk, same⟩ := some
    exact .inr ⟨front, chunk, same.trans concat_eq_append⟩

/-- The number that `GetLastMember` reads from the last chunk. -/
def lastMember (chunks : List Chunk) : Int :=
  match chunks.getLast? with
  | none => 0
  | some chunk => if chunk.first < chunk.last then chunk.last - 1 else chunk.last

lemma lastMember_concat (front) (chunk) :
    lastMember (front ++ [chunk]) =
      if chunk.first < chunk.last then chunk.last - 1 else chunk.last := by
  rw [lastMember, getLast?_concat]

lemma LoweredTo.unchanged {chunks : List Chunk} (high : lastMember chunks ≤ newHighWaterMark) :
    LoweredTo newHighWaterMark chunks chunks := by
  rcases nil_or_snoc chunks with rfl | ⟨front, chunk, rfl⟩
  · exact .none
  · rw [lastMember_concat] at high
    have ordered := chunk.ordered
    apply LoweredTo.stay
    · split at high <;> omega
    · intro several
      rw [if_pos several] at high
      exact high

namespace MsgKeySet

variable (junk : Junk) {set : MsgKeySet} {chunks front : List Chunk} {chunk : Chunk}
variable {data : Block} {length : Nat}

lemma layout_last (layout : Layout data length 0 (front ++ [chunk])) :
    (chunk.first = chunk.last ∧ length = (encode front).length + 1 ∧ length ≤ data.size ∧
        data.word junk.outside (length - 1) = chunk.first ∧
        (front ≠ [] → ¬ data.word junk.outside (length - 2) < 0) ∧
        Layout data (length - 1) 0 front) ∨
      (chunk.first < chunk.last ∧ length = (encode front).length + 2 ∧ length ≤ data.size ∧
        data.word junk.outside (length - 1) = chunk.first ∧
        data.word junk.outside (length - 2) = -(chunk.last - chunk.first) ∧
        Layout data (length - 2) 0 front) := by
  have inside := layout.le_size (Nat.zero_le _)
  have last := layout.append
  rw [Nat.zero_add] at last
  obtain ⟨rest, shape, ends⟩ := layout.shape
  rw [encode_append, append_assoc] at shape
  rcases layout_cases junk last with
    ⟨_, _, single, head, _, _, next⟩ | ⟨_, _, several, head, _, _, start, _, next⟩
  · left
    have count := next.nil_ends
    refine ⟨single, count.symm, inside, ?_, ?_, Layout.of_shape shape (by omega)⟩
    · rw [← count, Nat.add_sub_cancel]
      exact head
    · intro nonempty
      obtain ⟨before, previous, rfl⟩ := nil_or_snoc front |>.resolve_left nonempty
      have wide := previous.words_length_pos
      have nonnegative := previous.nonnegative
      have layout' : Layout data (length - 1) 0 (before ++ [previous]) :=
        Layout.of_shape shape (by omega)
      have beforeLast := layout'.append
      rw [Nat.zero_add] at beforeLast
      rcases layout_cases junk beforeLast with
        ⟨_, _, _, word, _, _, stop⟩ | ⟨_, _, _, _, _, _, word, _, stop⟩
      · have index : length - 2 = (encode before).length := by
          have reached := stop.nil_ends
          omega
        rw [index, word]
        omega
      · have index : length - 2 = (encode before).length + 1 := by
          have reached := stop.nil_ends
          omega
        rw [index, word]
        omega
  · right
    have count := next.nil_ends
    refine ⟨several, count.symm, inside, ?_, ?_, Layout.of_shape shape (by omega)⟩
    · have index : length - 1 = (encode front).length + 1 := by omega
      rw [index]
      exact start
    · have index : length - 2 = (encode front).length := by omega
      rw [index]
      exact head

lemma getLastMember_spec (layout : Layout set.data set.length 0 chunks) :
    getLastMember junk set = (set.data, lastMember chunks) := by
  have inside := layout.le_size (Nat.zero_le _)
  rcases nil_or_snoc chunks with rfl | ⟨front, chunk, rfl⟩
  · have none : set.length = 0 := layout.nil_ends.symm
    rw [getLastMember, if_neg (by omega), if_neg (by omega)]
    rfl
  · have touched : ∀ index, index < set.length → set.data.touch index = set.data :=
      fun index below => set.data.touch_of_lt (Nat.lt_of_lt_of_le below inside)
    rw [lastMember_concat]
    rcases layout_last junk layout with
      ⟨single, count, _, word, notRange, _⟩ | ⟨several, count, _, start, head, _⟩
    · rw [if_neg (by omega), ← single]
      by_cases alone : front = []
      · subst alone
        change set.length = 1 at count
        rw [count] at word
        rw [getLastMember, if_neg (by omega), if_pos count, touched 0 (by omega), word]
      · have wide := length_le_encode front
        have some := length_pos_iff.mpr alone
        rw [getLastMember, if_pos (by omega)]
        simp only [touched (set.length - 2) (by omega), touched (set.length - 1) (by omega),
          if_neg (notRange alone), word]
    · rw [if_pos several, getLastMember, if_pos (by omega)]
      simp only [touched (set.length - 2) (by omega), touched (set.length - 1) (by omega), start,
        head]
      rw [if_pos (by omega), Int.neg_neg, Int.sub_add_cancel]

/-- The loop of `SetLastMember` works inside the words of the set. -/
theorem lowerLoop_spec (newHighWaterMark : Int) (fuel : Nat) (layout : Layout data length 0 chunks)
    (enough : length ≤ fuel) :
    ∃ others, LoweredTo newHighWaterMark chunks others ∧
      Layout (lowerLoop junk newHighWaterMark fuel data length).1
        (lowerLoop junk newHighWaterMark fuel data length).2 0 others ∧
      (lowerLoop junk newHighWaterMark fuel data length).1.size = data.size ∧
      (lowerLoop junk newHighWaterMark fuel data length).2 ≤ length ∧
      (data.inBounds = true → (lowerLoop junk newHighWaterMark fuel data length).1.inBounds = true) := by
  induction fuel generalizing length chunks with
  | zero =>
    have none : length = 0 := Nat.le_zero.mp enough
    have empty : chunks = [] := by
      have count := layout.count_le
      exact eq_nil_of_length_eq_zero (by omega)
    exact ⟨chunks, by rw [empty]; exact .none, layout, rfl, Nat.le_refl _, fun inBounds => inBounds⟩
  | succ fuel ih =>
    rcases nil_or_snoc chunks with rfl | ⟨front, chunk, rfl⟩
    · have none : length = 0 := layout.nil_ends.symm
      rw [lowerLoop, if_neg (by omega)]
      exact ⟨[], .none, layout, rfl, Nat.le_refl _, fun inBounds => inBounds⟩
    · rw [lowerLoop]
      have stored : ∀ value, length ≤ data.size → 1 < length → data.inBounds = true →
          (data.store (length - 2) value).inBounds = true := by
        intro value inside several inBounds
        rw [Block.inBounds_store]
        exact ⟨inBounds, by omega⟩
      rcases layout_last junk layout with
        ⟨single, count, inside, word, notRange, next⟩ | ⟨several, count, inside, start, head, next⟩
      · by_cases alone : front = []
        · subst alone
          change length = 1 at count
          rw [if_neg (by omega)]
          exact ⟨_, .only chunk single, layout, rfl, Nat.le_refl _, fun inBounds => inBounds⟩
        · have wide := length_le_encode front
          have some := length_pos_iff.mpr alone
          have touched : (data.touch (length - 2)).touch (length - 1) = data := by
            rw [data.touch_of_lt (by omega), data.touch_of_lt (by omega)]
          simp only [if_pos (show length > 1 by omega), touched, if_neg (notRange alone), word]
          by_cases above : chunk.first > newHighWaterMark
          · rw [if_pos above]
            obtain ⟨others, lowered, rest, size, short, bounds⟩ := ih next (by omega)
            exact ⟨others, .drop above (fun none => absurd none alone) lowered, rest, size,
              by omega, bounds⟩
          · rw [if_neg above]
            exact ⟨_, .stay front (by omega) (fun range => by omega), layout, rfl, Nat.le_refl _,
              fun inBounds => inBounds⟩
      · have touched : (data.touch (length - 2)).touch (length - 1) = data := by
          rw [data.touch_of_lt (by omega), data.touch_of_lt (by omega)]
        obtain ⟨rest, shape, ends⟩ := layout.shape
        rw [encode_append, encode_cons, encode_nil, append_nil, Chunk.words_range several,
          append_assoc] at shape
        have index : length - 2 = (encode front).length := by omega
        have written : ∀ value, (data.store (length - 2) value).words =
            encode front ++ (value :: chunk.first :: rest) := by
          intro value
          rw [Block.words_store, shape, index]
          simp
        simp only [if_pos (show length > 1 by omega), touched, start, head,
          if_pos (show -(chunk.last - chunk.first) < 0 by omega)]
        by_cases high : - -(chunk.last - chunk.first) + chunk.first - 1 > newHighWaterMark
        · rw [if_pos high]
          by_cases above : chunk.first > newHighWaterMark
          · rw [if_pos above]
            obtain ⟨others, lowered, rest, size, short, bounds⟩ := ih next (by omega)
            exact ⟨others, .drop above (fun _ => several) lowered, rest, size, by omega, bounds⟩
          · rw [if_neg above]
            obtain ⟨cut, first, last⟩ : ∃ cut : Chunk, cut.first = chunk.first ∧
                cut.last = newHighWaterMark :=
              ⟨⟨chunk.first, newHighWaterMark, chunk.nonnegative, Int.not_lt.mp above⟩, rfl, rfl⟩
            have lowered : LoweredTo newHighWaterMark (front ++ [chunk]) (front ++ [cut]) :=
              .shorten front first last (by omega)
            by_cases same : chunk.first = newHighWaterMark
            · rw [if_pos same]
              have literal : cut.words = [newHighWaterMark] := by
                rw [Chunk.words_literal (by omega), first, same]
              refine ⟨_, lowered, Layout.snoc (by rw [literal]; exact written _) ?_,
                Block.size_store .., by simp only; omega, stored _ inside (by omega)⟩
              rw [literal, length_singleton]
              simp only
              omega
            · rw [if_neg same]
              have words : cut.words = [-(newHighWaterMark - chunk.first), chunk.first] := by
                rw [Chunk.words_range (by omega), first, last]
              refine ⟨_, lowered, Layout.snoc (by rw [words]; exact written _) ?_,
                Block.size_store .., Nat.le_refl _, stored _ inside (by omega)⟩
              rw [words]
              exact count.symm
        · rw [if_neg high]
          exact ⟨_, .stay front (by omega) (fun _ => by omega), layout, rfl, Nat.le_refl _,
            fun inBounds => inBounds⟩

lemma setLastMember_spec (layout : Layout set.data set.length 0 chunks) (newHighWaterMark : Int) :
    ∃ others, LoweredTo newHighWaterMark chunks others ∧
      Layout (setLastMember junk set newHighWaterMark).data
        (setLastMember junk set newHighWaterMark).length 0 others ∧
      (setLastMember junk set newHighWaterMark).data.size = set.data.size ∧
      (setLastMember junk set newHighWaterMark).length ≤ set.length ∧
      (set.data.inBounds = true →
        (setLastMember junk set newHighWaterMark).data.inBounds = true) := by
  simp only [setLastMember, getLastMember_spec junk layout]
  by_cases lower : newHighWaterMark < lastMember chunks
  · simp only [if_pos lower]
    exact lowerLoop_spec junk newHighWaterMark set.length layout (Nat.le_refl _)
  · simp only [if_neg lower]
    exact ⟨chunks, .unchanged (Int.not_lt.mp lower), layout, trivial, Nat.le_refl _,
      fun inBounds => inBounds⟩

end MsgKeySet

end CommCentral.Base
