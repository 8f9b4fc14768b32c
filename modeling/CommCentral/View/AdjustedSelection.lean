import CommCentral.View.SelectedRanges

/-! A selection that follows the rows when others are put in before them or taken out. -/
namespace CommCentral.View

open Lib List

/-- Where a row is after `delta` rows were put in at `change`, or `-delta` rows taken out
there: the rows taken out are nowhere. -/
def movedRow (change delta row : Int) : Option Int :=
  if row < change then some row
  else if delta < 0 ∧ row < change - delta then none
  else some (row + delta)

/-- The rows that came to stand at `row`. -/
theorem exists_movedRow {change delta row : Int} (rows : Int → Prop) :
    (∃ old, rows old ∧ movedRow change delta old = some row) ↔
      (row < change ∧ rows row) ∨
        (change ≤ row ∧ change ≤ row - delta ∧ rows (row - delta)) := by
  constructor
  · rintro ⟨old, was, moved⟩
    unfold movedRow at moved
    split at moved
    · cases moved
      exact .inl ⟨by omega, was⟩
    · split at moved
      · cases moved
      · cases moved
        have back : old + delta - delta = old := by omega
        rw [back]
        exact .inr ⟨by omega, by omega, was⟩
  · rintro (⟨below, was⟩ | ⟨above, aboveOld, was⟩)
    · exact ⟨row, was, if_pos below⟩
    · refine ⟨row - delta, was, ?_⟩
      have notBelow : ¬ row - delta < change := by omega
      have stays : ¬ (delta < 0 ∧ row - delta < change - delta) := by omega
      rw [movedRow, if_neg notBelow, if_neg stays]
      congr 1
      omega

namespace JSTreeSelection

lemma adjustPoint_eq (aPoint) (aDeltaAt aDelta : Int) :
    adjustPoint aPoint aDeltaAt aDelta = aPoint.bind (movedRow aDeltaAt aDelta) := by
  cases aPoint with
  | none => rfl
  | some point =>
    simp only [adjustPoint, Option.bind_some, movedRow]
    grind

variable {front back ranges : List (Int × Int)}

lemma findRange_front (spaced : Spaced 1 front) (below : ∀ range ∈ front, range.2 < aIndex)
    (iTupe : Nat) (rest) :
    findRangeContainingRow aIndex iTupe (front ++ rest) =
      findRangeContainingRow aIndex (iTupe + front.length) rest := by
  induction front generalizing iTupe with
  | nil => rfl
  | cons range front ih =>
    obtain ⟨filled, _, spacedFront⟩ := (spaced_cons range).mp spaced
    obtain ⟨under, belowFront⟩ := forall_mem_cons.mp below
    have notInside : ¬ (range.1 ≤ aIndex ∧ aIndex ≤ range.2) := by omega
    have notAbove : ¬ aIndex < range.1 := by omega
    rw [cons_append, findRangeContainingRow]
    simp only [if_neg notInside, if_neg notAbove, ih spacedFront belowFront,
      length_cons]
    congr 1
    omega

/-- The loops move the ranges from a place on and end behind the last. -/
theorem translate_eq (move : Int × Int → Int × Int) (front back : List (Int × Int)) :
    translate move (front ++ back) front.length =
      (front ++ back.map move, (front ++ back).length) := by
  induction back generalizing front with
  | nil =>
    rw [translate, dif_neg (by simp)]
    simp
  | cons range back ih =>
    have inside : front.length < (front ++ range :: back).length := by simp
    have next := ih (front ++ [move range])
    rw [translate, dif_pos inside]
    simpa using next

/-- The merge never has a range to merge: its index is behind the last range. -/
theorem mergeAt_length (ranges : List (Int × Int)) : mergeAt ranges ranges.length = ranges := by
  unfold mergeAt
  simp

/-- Ranges cut in two at a row, with the same rows in them. -/
structure Parted (ranges : List (Int × Int)) (aIndex : Int)
    (lower upper : List (Int × Int)) : Prop where
  spacedLower : Spaced 1 lower
  spacedUpper : Spaced 1 upper
  below : ∀ range ∈ lower, range.2 < aIndex
  above : ∀ range ∈ upper, aIndex ≤ range.1
  rows : ∀ row, Covered lower row ∨ Covered upper row ↔ Covered ranges row
  size : rangesSize lower + rangesSize upper = rangesSize ranges

section Parted

section

variable (parted : Parted ranges aIndex lower upper)
include parted

variable (row : Int)

lemma Parted.lower_iff : Covered lower row ↔ row < aIndex ∧ Covered ranges row := by
  constructor
  · intro covered
    have ⟨range, mem, _, stop⟩ := covered
    have := parted.below range mem
    exact ⟨by omega, (parted.rows row).mp (.inl covered)⟩
  · rintro ⟨under, covered⟩
    rcases (parted.rows row).mpr covered with inLower | ⟨range, mem, start, _⟩
    · exact inLower
    · have := parted.above range mem
      omega

lemma Parted.upper_iff : Covered upper row ↔ aIndex ≤ row ∧ Covered ranges row := by
  constructor
  · intro covered
    have ⟨range, mem, start, _⟩ := covered
    have := parted.above range mem
    exact ⟨by omega, (parted.rows row).mp (.inr covered)⟩
  · rintro ⟨upward, covered⟩
    rcases (parted.rows row).mpr covered with ⟨range, mem, _, stop⟩ | inUpper
    · have := parted.below range mem
      omega
    · exact inUpper

lemma Parted.covered_moved :
    Covered (lower ++ upper.map (shiftRange aCount)) row ↔
      (row < aIndex ∧ Covered ranges row) ∨
        (aIndex ≤ row - aCount ∧ Covered ranges (row - aCount)) := by
  rw [covered_append, covered_shift, parted.lower_iff, parted.upper_iff]

lemma Parted.size_moved :
    rangesSize (lower ++ upper.map (shiftRange aCount)) = rangesSize ranges := by
  rw [rangesSize_append, rangesSize_shift, parted.size]

/-- Room between the parts keeps them spaced. -/
theorem Parted.spaced_moved (gap : Int) (narrow : gap ≤ 1)
    (apart : ∀ low ∈ lower, ∀ high ∈ upper, low.2 + gap < high.1 + aCount) :
    Spaced gap (lower ++ upper.map (shiftRange aCount)) := by
  refine spaced_append.mpr ⟨parted.spacedLower.weaken narrow,
    spaced_shift.mpr (parted.spacedUpper.weaken narrow), ?_⟩
  intro low inLower high inUpper
  obtain ⟨range, mem, rfl⟩ := mem_map.mp inUpper
  exact apart low inLower range mem

end

end Parted

section Insert

/-- Insertion parts the ranges at the index, in a range that starts before it too. -/
theorem rowsInserted_eq (aIndex aCount : Int) (spaced : Spaced 1 ranges) :
    ∃ lower upper, Parted ranges aIndex lower upper ∧
      rowsInserted ranges aIndex aCount = lower ++ upper.map (shiftRange aCount) := by
  obtain ⟨front, back, rfl, below, reached⟩ := spaced.cut_upper (by decide) aIndex
  obtain ⟨spacedFront, spacedBack, apart⟩ := spaced_append.mp spaced
  rw [rowsInserted, findRange_front spacedFront below, Nat.zero_add]
  have whole (above : ∀ range ∈ back, aIndex ≤ range.1) :
      Parted (front ++ back) aIndex front back :=
    ⟨spacedFront, spacedBack, below, above, fun row => (covered_append front back row).symm,
      rangesSize_append.symm⟩
  cases back with
  | nil =>
    refine ⟨front, [], whole (by simp), ?_⟩
    simp only [findRangeContainingRow]
    exact congrArg Prod.fst (translate_eq _ front [])
  | cons range rest =>
    obtain ⟨low, high⟩ := range
    obtain ⟨filled, beyond, spacedRest⟩ := (spaced_cons (low, high)).mp spacedBack
    have reach := reached (low, high) mem_cons_self
    dsimp only at filled beyond reach
    have restAbove : ∀ range ∈ rest, aIndex ≤ range.1 := by
      intro later mem
      have := beyond later mem
      omega
    by_cases inside : low ≤ aIndex
    · have found : findRangeContainingRow aIndex front.length ((low, high) :: rest) =
          (some front.length, front.length) := if_pos ⟨inside, reach⟩
      have here : rangeAt (front ++ (low, high) :: rest) (some front.length) =
          some (low, high) := by
        simp [rangeAt]
      rw [found]
      simp only [here]
      by_cases atLow : aIndex = low
      · refine ⟨front, (low, high) :: rest, whole ?_, ?_⟩
        · exact forall_mem_cons.mpr ⟨atLow.le, restAbove⟩
        · rw [if_neg (not_not.mpr atLow)]
          exact congrArg Prod.fst (translate_eq _ front ((low, high) :: rest))
      · have split := splice_middle front [(low, high)] rest
          [(low, aIndex - 1), (aIndex, high)]
        have shape : front ++ ([(low, aIndex - 1), (aIndex, high)] ++ rest) =
            (front ++ [(low, aIndex - 1)]) ++ (aIndex, high) :: rest := by
          simp
        have place : front.length + 1 = (front ++ [(low, aIndex - 1)]).length := by
          simp
        refine ⟨front ++ [(low, aIndex - 1)], (aIndex, high) :: rest, ?_, ?_⟩
        · refine ⟨?_, ?_, ?_, ?_, ?_, ?_⟩
          · refine spaced_append.mpr ⟨spacedFront, by simp; omega, ?_⟩
            intro lower inFront upper isLow
            rw [mem_singleton.mp isLow]
            exact apart lower inFront (low, high) mem_cons_self
          · exact (spaced_cons _).mpr ⟨reach, beyond, spacedRest⟩
          · intro range mem
            rcases mem_append.mp mem with inFront | isLow
            · exact below range inFront
            · rw [mem_singleton.mp isLow]
              dsimp only
              omega
          · exact forall_mem_cons.mpr ⟨le_refl _, restAbove⟩
          · intro row
            simp only [covered_append, covered_cons, not_covered_nil, or_false]
            constructor
            · rintro ((inFront | inLow) | inHigh | inRest)
              · exact .inl inFront
              · exact .inr (.inl (by omega))
              · exact .inr (.inl (by omega))
              · exact .inr (.inr inRest)
            · rintro (inFront | inRange | inRest)
              · exact .inl (.inl inFront)
              · by_cases under : row < aIndex
                · exact .inl (.inr (by omega))
                · exact .inr (.inl (by omega))
              · exact .inr (.inr inRest)
          · simp only [rangesSize_append, rangesSize_cons, rangesSize_nil]
            omega
        · rw [if_pos atLow]
          dsimp only
          rw [length_singleton, singleton_append] at split
          rw [split, shape, place]
          exact congrArg Prod.fst (translate_eq _ (front ++ [(low, aIndex - 1)])
            ((aIndex, high) :: rest))
    · have found : findRangeContainingRow aIndex front.length ((low, high) :: rest) =
          (none, front.length) := by
        rw [findRangeContainingRow, if_neg (fun both => inside both.1), if_pos (by omega)]
      rw [found]
      refine ⟨front, (low, high) :: rest, whole ?_, ?_⟩
      · exact forall_mem_cons.mpr ⟨by dsimp only; omega, restAbove⟩
      · exact congrArg Prod.fst (translate_eq _ front ((low, high) :: rest))

end Insert

section Remove

/-- Removal moves the ranges behind rows that are no longer selected, and merges none. -/
theorem rowsRemoved_eq (spaced : Spaced 1 ranges) (removing : aCount < 0)
    (cleared : ∀ row, aIndex ≤ row → row < aIndex - aCount → ¬ Covered ranges row) :
    ∃ lower upper, Parted ranges aIndex lower upper ∧
      (∀ range ∈ upper, aIndex - aCount ≤ range.1) ∧
      rowsRemoved ranges aIndex aCount = lower ++ upper.map (shiftRange aCount) := by
  obtain ⟨front, back, rfl, below, reached⟩ := spaced.cut_upper (by decide) aIndex
  obtain ⟨spacedFront, spacedBack, _⟩ := spaced_append.mp spaced
  have beyond : ∀ range ∈ back, aIndex - aCount ≤ range.1 := by
    intro range mem
    have reach := reached range mem
    have filled := spacedBack.1 range mem
    have inAll : range ∈ front ++ back := mem_append_right _ mem
    by_contra before
    by_cases starts : aIndex ≤ range.1
    · exact cleared range.1 starts (by omega) ⟨range, inAll, le_refl _, filled⟩
    · exact cleared aIndex (le_refl _) (by omega) ⟨range, inAll, by omega, reach⟩
  have above : ∀ range ∈ back, aIndex ≤ range.1 := by
    intro range mem
    have := beyond range mem
    omega
  refine ⟨front, back, ⟨spacedFront, spacedBack, below, above,
    fun row => (covered_append front back row).symm, rangesSize_append.symm⟩, beyond, ?_⟩
  have place : (findRangeContainingRow aIndex 0 (front ++ back)).2 = front.length := by
    rw [findRange_front spacedFront below, Nat.zero_add]
    cases back with
    | nil => rfl
    | cons range rest =>
      have start := beyond range mem_cons_self
      rw [findRangeContainingRow, if_neg (by omega), if_pos (by omega)]
  have moved : back.map (fun range =>
      (if aIndex ≤ range.1 then range.1 + aCount else range.1, range.2 + aCount)) =
        back.map (shiftRange aCount) := by
    apply map_congr_left
    intro range mem
    simp only [if_pos (above range mem), shiftRange]
  have sameLength : (front ++ back).length = (front ++ back.map (shiftRange aCount)).length := by
    simp
  rw [rowsRemoved, place, translate_eq, moved, sameLength]
  exact mergeAt_length _

end Remove

@[simp] lemma clearRange_points (selection : JSTreeSelection) (low high : Int) :
    (selection.clearRange low high).currentIndex? = selection.currentIndex? ∧
      (selection.clearRange low high).shiftSelectPivot = selection.shiftSelectPivot := by
  unfold clearRange
  dsimp only
  split <;> exact ⟨rfl, rfl⟩

/-- What a selection is after a change of rows: its rows and points moved along. -/
structure Follows (before after : JSTreeSelection) (aIndex aCount : Int) : Prop where
  rows : ∀ row, after.isSelected row = true ↔
    ∃ old, before.isSelected old = true ∧ movedRow aIndex aCount old = some row
  current : after.currentIndex? = before.currentIndex?.bind (movedRow aIndex aCount)
  pivot : after.shiftSelectPivot = before.shiftSelectPivot.bind (movedRow aIndex aCount)
  counted : after.count = ({row | after.isSelected row = true}.ncard : Int)
  spaced : Spaced 1 after.ranges

section AdjustSelection

variable {selection : JSTreeSelection}

lemma adjustSelection_points (aIndex aCount : Int) :
    (selection.adjustSelection aIndex aCount).currentIndex? =
        selection.currentIndex?.bind (movedRow aIndex aCount) ∧
      (selection.adjustSelection aIndex aCount).shiftSelectPivot =
        selection.shiftSelectPivot.bind (movedRow aIndex aCount) := by
  have stays (point : Option Int) : point.bind (movedRow aIndex 0) = point := by
    cases point <;> simp [movedRow]
  unfold adjustSelection
  split
  · rename_i none
    rw [none, stays, stays]
    exact ⟨rfl, rfl⟩
  · dsimp only
    split
    · simp [adjustPoint_eq]
    · unfold setSelectEventsSuppressed
      dsimp only
      split <;> simp [adjustPoint_eq]

lemma adjustSelection_inserts (aIndex : Int) (valid : selection.Valid) (inserting : 0 < aCount) :
    (selection.adjustSelection aIndex aCount).ranges =
        rowsInserted selection.ranges aIndex aCount ∧
      (selection.adjustSelection aIndex aCount).count = rangesSize selection.ranges := by
  have some : aCount ≠ 0 := by omega
  simp [adjustSelection, some, inserting, valid.size]

lemma adjustSelection_removes (aIndex : Int) (valid : selection.Valid) (removing : aCount < 0) :
    (selection.adjustSelection aIndex aCount).ranges =
        rowsRemoved (carve aIndex (aIndex - aCount - 1) selection.ranges) aIndex aCount ∧
      (selection.adjustSelection aIndex aCount).count =
        rangesSize (carve aIndex (aIndex - aCount - 1) selection.ranges) := by
  have some : aCount ≠ 0 := by omega
  have notInserting : ¬ 0 < aCount := by omega
  have cleared (inner : JSTreeSelection) (ranges : inner.ranges = selection.ranges)
      (count : inner.count = selection.count) :
      (inner.clearRange aIndex (aIndex - aCount - 1)).ranges =
          carve aIndex (aIndex - aCount - 1) selection.ranges ∧
        (inner.clearRange aIndex (aIndex - aCount - 1)).count =
          rangesSize (carve aIndex (aIndex - aCount - 1) selection.ranges) := by
    have ordered : aIndex ≤ aIndex - aCount - 1 := by omega
    have left := inner.clearRange_ranges ordered (by rw [ranges]; exact valid.spaced)
    rw [ranges] at left
    refine ⟨left, ?_⟩
    rw [inner.clearRange_count _ _ (by rw [count, ranges]; exact valid.size), left]
  rw [adjustSelection, if_neg some]
  dsimp only
  rw [if_neg notInserting]
  simp only [setSelectEventsSuppressed_ranges, setSelectEventsSuppressed_count]
  constructor
  · rw [(cleared _ (by simp) (by simp)).1]
  · rw [(cleared _ (by simp) (by simp)).2]

/-- A change of rows is followed in every respect, except that removed rows between two
selected ones leave two ranges that touch. -/
theorem adjustSelection_follows_iff (selection : JSTreeSelection) (valid : selection.Valid)
    (aIndex aCount : Int) :
    Follows selection (selection.adjustSelection aIndex aCount) aIndex aCount ↔
      ¬ (aCount < 0 ∧ selection.isSelected (aIndex - 1) = true ∧
        selection.isSelected (aIndex - aCount) = true) := by
  obtain ⟨current, pivot⟩ := selection.adjustSelection_points aIndex aCount
  rcases lt_trichotomy aCount 0 with removing | none | inserting
  · obtain ⟨ranges, count⟩ := adjustSelection_removes aIndex valid removing
    have ordered : aIndex ≤ aIndex - aCount - 1 := by omega
    have spaced := valid.spaced.carve ordered
    obtain ⟨lower, upper, parted, beyond, same⟩ := rowsRemoved_eq spaced
      removing (fun row start stop covered =>
        ((covered_carve selection.ranges row).mp covered).2 ⟨start, by omega⟩)
    rw [same] at ranges
    have apart : Spaced 0 (lower ++ upper.map (shiftRange aCount)) := by
      apply parted.spaced_moved 0 (by decide)
      intro low inLower high inUpper
      have := parted.below low inLower
      have := beyond high inUpper
      omega
    have rows : ∀ row, (selection.adjustSelection aIndex aCount).isSelected row = true ↔
        ∃ old, selection.isSelected old = true ∧ movedRow aIndex aCount old = some row := by
      intro row
      rw [exists_movedRow, isSelected_iff, isSelected_iff, isSelected_iff, ranges,
        parted.covered_moved, covered_carve, covered_carve]
      constructor
      · rintro (⟨under, was, _⟩ | ⟨upward, was, outside⟩)
        · exact .inl ⟨under, was⟩
        · exact .inr ⟨by omega, upward, was⟩
      · rintro (⟨under, was⟩ | ⟨upward, overOld, was⟩)
        · exact .inl ⟨under, was, by omega⟩
        · exact .inr ⟨overOld, was, by omega⟩
    have counted : (selection.adjustSelection aIndex aCount).count =
        ({row | (selection.adjustSelection aIndex aCount).isSelected row = true}.ncard : Int) := by
      rw [ncard_isSelected _ (by rw [ranges]; exact apart), ranges, count, parted.size_moved]
    have inLower := parted.lower_iff (aIndex - 1)
    have inUpper := parted.upper_iff (aIndex - aCount)
    rw [covered_carve] at inLower inUpper
    constructor
    · rintro follows ⟨_, before, after⟩
      rw [isSelected_iff] at before after
      obtain ⟨low, mem, lowStart, lowStop⟩ := inLower.mpr ⟨by omega, before, by omega⟩
      obtain ⟨high, memberHigh, highStart, _⟩ := inUpper.mpr ⟨by omega, after, by omega⟩
      have spacedAfter := follows.spaced
      rw [ranges] at spacedAfter
      have gap := (spaced_append.mp spacedAfter).2.2 low mem (shiftRange aCount high)
        (mem_map_of_mem memberHigh)
      simp only [shiftRange] at gap
      omega
    · intro notBoth
      refine ⟨rows, current, pivot, counted, ?_⟩
      rw [ranges]
      apply parted.spaced_moved 1 (le_refl _)
      intro low mem high memberHigh
      have lowStop := parted.below low mem
      have highStart := beyond high memberHigh
      by_contra touching
      refine notBoth ⟨removing, ?_, ?_⟩
      · exact (isSelected_iff _ _).mpr (inLower.mp ⟨low, mem, by
          have := parted.spacedLower.1 low mem
          omega, by omega⟩).2.1
      · exact (isSelected_iff _ _).mpr (inUpper.mp ⟨high, memberHigh, by omega, by
          have := parted.spacedUpper.1 high memberHigh
          omega⟩).2.1
  · refine iff_of_true ?_ (fun both => by omega)
    have same : selection.adjustSelection aIndex aCount = selection := if_pos none
    rw [same] at current pivot ⊢
    refine ⟨?_, current, pivot, valid.counted, valid.spaced⟩
    intro row
    rw [exists_movedRow, none, sub_zero]
    constructor
    · intro was
      by_cases under : row < aIndex
      · exact .inl ⟨under, was⟩
      · exact .inr ⟨by omega, by omega, was⟩
    · rintro (⟨_, was⟩ | ⟨_, _, was⟩) <;> exact was
  · refine iff_of_true ?_ (fun both => by omega)
    obtain ⟨ranges, count⟩ := adjustSelection_inserts aIndex valid inserting
    obtain ⟨lower, upper, parted, same⟩ := rowsInserted_eq aIndex aCount valid.spaced
    rw [same] at ranges
    have spaced : Spaced 1 (lower ++ upper.map (shiftRange aCount)) := by
      apply parted.spaced_moved 1 (le_refl _)
      intro low inLower high inUpper
      have := parted.below low inLower
      have := parted.above high inUpper
      omega
    have after : (selection.adjustSelection aIndex aCount).Valid :=
      valid_of_size (by rw [ranges]; exact spaced) (by rw [ranges, count, parted.size_moved])
    refine ⟨?_, current, pivot, after.counted, after.spaced⟩
    intro row
    rw [exists_movedRow, isSelected_iff, isSelected_iff, isSelected_iff, ranges,
      parted.covered_moved]
    apply or_congr_right
    constructor
    · rintro ⟨upward, was⟩
      exact ⟨by omega, upward, was⟩
    · rintro ⟨_, upward, was⟩
      exact ⟨upward, was⟩

/-- Two rows put in between the selected rows. -/
theorem adjustSelection_follows_inserted :
    let selection : JSTreeSelection := { ranges := [(1, 4)], count := 4, currentIndex? := some 4 }
    Follows selection (selection.adjustSelection 2 2) 2 2 := by
  have valid : Valid { ranges := [(1, 4)], count := 4, currentIndex? := some 4 } :=
    valid_of_size (by simp) (by decide)
  exact (adjustSelection_follows_iff _ valid 2 2).mpr (by decide)

/-- Taking out row 2 between the selected rows 1 and 3 leaves the ranges of rows 1 and 2. -/
theorem adjustSelection_touching :
    ¬ ∀ selection : JSTreeSelection, selection.Valid → ∀ aIndex aCount,
      Follows selection (selection.adjustSelection aIndex aCount) aIndex aCount := by
  intro follows
  have valid : Valid { ranges := [(1, 1), (3, 3)], count := 2 } :=
    valid_of_size (by simp) (by decide)
  have spaced := (follows _ valid 2 (-1)).spaced
  have ranges : (adjustSelection { ranges := [(1, 1), (3, 3)], count := 2 } 2 (-1)).ranges =
      [(1, 1), (2, 2)] := by
    rw [(adjustSelection_removes 2 valid (by decide)).1]
    have carved : carve 2 (2 - -1 - 1) [(1, 1), (3, 3)] = [(1, 1), (3, 3)] := by decide
    have place : (findRangeContainingRow 2 0 [(1, 1), (3, 3)]).2 = 1 := by decide
    have moved := translate_eq
      (fun range => (if 2 ≤ range.1 then range.1 + -1 else range.1, range.2 + -1)) [(1, 1)] [(3, 3)]
    have merged : mergeAt [(1, 1), (2, 2)] 2 = [(1, 1), (2, 2)] := by decide
    rw [carved, rowsRemoved, place]
    exact (congrArg (fun moved => mergeAt moved.1 moved.2) moved).trans merged
  rw [ranges] at spaced
  simp at spaced

end AdjustSelection

end JSTreeSelection

end CommCentral.View
