import CommCentral.Base.KeySetRefinement

/-! The newsrc string that `nsMsgKeySet::Output` writes. -/
namespace CommCentral.Base
open List

/-- What `PR_snprintf` writes for `%lu`: a number of 32 bits without a sign. -/
def showNumber (number : Int) : List Char := Nat.toDigits 10 (number % 2 ^ 32).toNat

def showRange (first last : Int) : List Char :=
  if first < last then showNumber first ++ '-' :: (showNumber last ++ [','])
  else showNumber first ++ [',']

/-- `PR_snprintf` into a buffer with `room` characters, the last of them for the NUL. -/
def snprintf (room : Nat) (text : List Char) : List Char := text.take (room - 1)

/-- The string has room for two numbers and 10 characters more, or gets it. -/
def outputRoom (size used : Nat) : Nat := if size < used + (12 * 2 + 10) then size + 200 else size

namespace MsgKeySet

variable (junk : Junk)

/-- The loop of `Output`: the text so far in a string of `size` characters, and `last_art`. -/
def outputLoop (set : MsgKeySet) : (fuel tail : Nat) → (lastArt : Int) → (size : Nat) →
    (text : List Char) → List Char × Int
  | 0, _, lastArt, _, text => (text, lastArt)
  | fuel + 1, tail, lastArt, size, text =>
    if tail < set.length then
      let size := outputRoom size text.length
      let head := set.data.word junk.outside tail
      let isRange := decide (head < 0)
      let first := if isRange then set.data.word junk.outside (tail + 1) else head
      let last := if isRange then first + -head else head
      let next := if isRange then tail + 2 else tail + 1
      let first := if first = 0 then 1 else first
      let first := if first ≤ lastArt then add32 lastArt 1 else first
      if first ≤ last then
        outputLoop set fuel next last size
          (text ++ snprintf (size - text.length) (showRange first last))
      else outputLoop set fuel next lastArt size text
    else (text, lastArt)

/-- `Output`. The last comma is stripped off. -/
def output (set : MsgKeySet) : List Char :=
  let (text, lastArt) := outputLoop junk set (set.length + 1) 0 (-1) (set.length * 12 + 10) []
  if lastArt ≥ 0 then text.dropLast else text

end MsgKeySet

/-- The numbers of a chunk from 1 on. -/
def Chunk.positive? (chunk : Chunk) : Option Chunk :=
  if order : 1 ≤ chunk.last then
    some ⟨max 1 chunk.first, chunk.last, by have := chunk.nonnegative; omega,
      max_le order chunk.ordered⟩
  else none

/-- The text of the ranges, each with its comma. -/
def showChunks (chunks : List Chunk) : List Char :=
  chunks.flatMap fun chunk => showRange chunk.first chunk.last

/-- The text of chunks with a comma between any two of them. -/
def showAll (chunks : List Chunk) : List Char := (showChunks chunks).dropLast

lemma showNumber_length (number : Int) : (showNumber number).length ≤ 10 := by
  rw [showNumber, Nat.length_toDigits_le_iff (by omega) (by omega)]
  omega

lemma showRange_length (first last : Int) : (showRange first last).length ≤ 22 := by
  have firstShort := showNumber_length first
  have lastShort := showNumber_length last
  rw [showRange]
  split
  · rw [length_append, length_cons, length_append, length_singleton]
    omega
  · rw [length_append, length_singleton]
    omega

lemma outputRoom_spec {size used : Nat} (fits : used ≤ size) : used + 34 ≤ outputRoom size used := by
  rw [outputRoom]
  split
  · omega
  · omega

lemma snprintf_showRange (enough : 34 ≤ room) (first last : Int) :
    snprintf room (showRange first last) = showRange first last := by
  have short := showRange_length first last
  apply take_of_length_le
  omega

lemma Chunk.positive?_eq_some {chunk : Chunk} (order : 1 ≤ chunk.last) :
    ∃ shown, chunk.positive? = some shown ∧ shown.first = max 1 chunk.first ∧
      shown.last = chunk.last :=
  ⟨_, dif_pos order, rfl, rfl⟩

lemma Chunk.positive?_eq_none {chunk : Chunk} (zero : ¬ 1 ≤ chunk.last) :
    chunk.positive? = none := dif_neg zero

namespace MsgKeySet

variable (junk : Junk)

lemma outputLoop_chunk {set : MsgKeySet} {tail : Nat} {chunk : Chunk} {chunks : List Chunk}
    {size : Nat} {text : List Char} (layout : Layout set.data set.length tail (chunk :: chunks))
    (above : lastArt < chunk.first) (low : -1 ≤ lastArt) (fits : text.length ≤ size) (fuel : Nat) :
    ∃ next, Layout set.data set.length next chunks ∧
      outputLoop junk set (fuel + 1) tail lastArt size text =
        match chunk.positive? with
        | some shown => outputLoop junk set fuel next shown.last (outputRoom size text.length)
            (text ++ showRange shown.first shown.last)
        | none => outputLoop junk set fuel next lastArt (outputRoom size text.length) text := by
  have nonnegative := chunk.nonnegative
  have ordered := chunk.ordered
  have room : 34 ≤ outputRoom size text.length - text.length := by
    have enough := outputRoom_spec fits
    omega
  have shownFirst : (if (if chunk.first = 0 then 1 else chunk.first) ≤ lastArt then add32 lastArt 1
      else if chunk.first = 0 then 1 else chunk.first) = max 1 chunk.first := by
    split
    · split at *
      · omega
      · omega
    · split
      · omega
      · omega
  have step : ∀ next, (if max 1 chunk.first ≤ chunk.last then
      outputLoop junk set fuel next chunk.last (outputRoom size text.length)
        (text ++ snprintf (outputRoom size text.length - text.length)
          (showRange (max 1 chunk.first) chunk.last))
      else outputLoop junk set fuel next lastArt (outputRoom size text.length) text) =
        match chunk.positive? with
        | some shown => outputLoop junk set fuel next shown.last (outputRoom size text.length)
            (text ++ showRange shown.first shown.last)
        | none => outputLoop junk set fuel next lastArt (outputRoom size text.length) text := by
    intro next
    rw [snprintf_showRange room]
    by_cases order : 1 ≤ chunk.last
    · obtain ⟨shown, isShown, first, last⟩ := Chunk.positive?_eq_some order
      rw [isShown, if_pos (max_le order ordered), ← first, ← last]
    · rw [Chunk.positive?_eq_none order, if_neg]
      exact fun both => order (le_trans (le_max_left _ _) both)
  rcases layout_cases junk layout with
    ⟨before, -, single, head, positive, -, next⟩ |
    ⟨before, -, several, head, negative, -, first, -, next⟩
  · refine ⟨tail + 1, next, ?_⟩
    rw [← step]
    simp only [outputLoop, if_pos before, head, positive, decide_false, Bool.false_eq_true, if_false,
      shownFirst]
    rw [single]
  · refine ⟨tail + 2, next, ?_⟩
    have sum : chunk.first + -(-(chunk.last - chunk.first)) = chunk.last := by omega
    rw [← step]
    simp only [outputLoop, if_pos before, head, negative, decide_true, if_true, first, sum,
      shownFirst]

/-- The ranges of the numbers from 1 on are shown in order. -/
theorem outputLoop_spec {set : MsgKeySet} {tail fuel : Nat} {chunks : List Chunk} {size : Nat}
    {text : List Char} (layout : Layout set.data set.length tail chunks)
    (ascending : Ascending chunks) (above : ∀ chunk ∈ chunks, lastArt < chunk.first)
    (low : -1 ≤ lastArt) (fits : text.length ≤ size) (enough : chunks.length < fuel) :
    outputLoop junk set fuel tail lastArt size text =
      (text ++ showChunks (chunks.filterMap Chunk.positive?),
        ((chunks.filterMap Chunk.positive?).getLast?.map Chunk.last).getD lastArt) := by
  induction chunks generalizing tail fuel lastArt size text with
  | nil =>
    obtain ⟨fuel, rfl⟩ := Nat.exists_eq_add_of_lt enough
    have ends := layout.nil_ends
    rw [outputLoop, if_neg (by omega), filterMap_nil, showChunks, flatMap_nil,
      append_nil]
    rfl
  | cons chunk rest ih =>
    obtain ⟨fuel, rfl⟩ : ∃ more, fuel = more + 1 := ⟨fuel - 1, by omega⟩
    rw [length_cons] at enough
    obtain ⟨next, layout', step⟩ :=
      outputLoop_chunk junk layout (above chunk mem_cons_self) low fits fuel
    obtain ⟨later, ascending'⟩ := (ascending_cons ..).mp ascending
    have room := outputRoom_spec fits
    have fewer : rest.length < fuel := Nat.lt_of_succ_lt_succ enough
    rw [step]
    by_cases order : 1 ≤ chunk.last
    · obtain ⟨shown, isShown, first, last⟩ := Chunk.positive?_eq_some order
      have short := showRange_length shown.first shown.last
      rw [isShown, filterMap_cons_some isShown]
      dsimp only
      rw [ih layout' ascending' (last ▸ later) (by omega) _ fewer]
      · rw [showChunks, showChunks, flatMap_cons, append_assoc]
        apply congrArg (Prod.mk _)
        cases (rest.filterMap Chunk.positive?) with
        | nil => rfl
        | cons second more =>
          rw [getLast?_cons_cons, getLast?_eq_some_getLast (cons_ne_nil second more)]
          rfl
      · rw [length_append]
        omega
    · have zero := Chunk.positive?_eq_none order
      rw [zero, filterMap_cons_none zero]
      refine ih layout' ascending' ?_ low (by omega) fewer
      intro other mem
      exact Int.lt_trans (above chunk mem_cons_self)
        (Int.lt_of_le_of_lt chunk.ordered (later other mem))

lemma output_spec {set : MsgKeySet} {chunks : List Chunk}
    (layout : Layout set.data set.length 0 chunks) (ascending : Ascending chunks) :
    output junk set = showAll (chunks.filterMap Chunk.positive?) := by
  have above : ∀ chunk ∈ chunks, -1 < chunk.first := by
    intro chunk _
    have nonnegative := chunk.nonnegative
    omega
  have run : outputLoop junk set (set.length + 1) 0 (-1) (set.length * 12 + 10) [] =
      ([] ++ showChunks (chunks.filterMap Chunk.positive?),
        ((chunks.filterMap Chunk.positive?).getLast?.map Chunk.last).getD (-1)) :=
    outputLoop_spec junk layout ascending above (le_refl (-1)) (Nat.zero_le _)
      (Nat.lt_succ_of_le layout.count_le)
  rw [output, run, nil_append]
  dsimp only
  cases shown : chunks.filterMap Chunk.positive? with
  | nil => rfl
  | cons first rest =>
    have nonnegative := ((first :: rest).getLast (cons_ne_nil _ _)).nonnegative
    have ordered := ((first :: rest).getLast (cons_ne_nil _ _)).ordered
    rw [getLast?_eq_some_getLast (cons_ne_nil first rest)]
    exact if_pos (le_trans nonnegative ordered)

end MsgKeySet

end CommCentral.Base
