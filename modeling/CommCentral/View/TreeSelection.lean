import CommCentral.Lib.Ranges

/-! The selection of a message list as ranges of rows, and how ranges are added and cleared. -/
namespace CommCentral.View

open Lib List

/-- `Array.prototype.splice` -/
def splice {α : Type} (list : List α) (start deleteCount : Nat) (items : List α) : List α :=
  list.take start ++ (items ++ list.drop (start + deleteCount))

@[simp] lemma splice_middle {α : Type} (front middle back items : List α) :
    splice (front ++ (middle ++ back)) front.length middle.length items =
      front ++ (items ++ back) := by
  rw [splice, take_left, ← length_append, ← append_assoc front middle,
    drop_left]

/-- The fields of a selection, whose `tree` is only told what to redraw, and the number of
`selectionChanged` calls that its view got. -/
structure JSTreeSelection where
  currentIndex? : Option Int := none
  shiftSelectPivot : Option Int := none
  ranges : List (Int × Int) := []
  count : Int := 0
  selectEventsSuppressed : Bool := false
  adjustSelectionLog : Option (List (Int × Int)) := none
  view : Option Nat := none
  deriving DecidableEq

namespace JSTreeSelection

def updateCount (selection : JSTreeSelection) : JSTreeSelection :=
  { selection with
    count := selection.ranges.foldl (fun count (low, high) => count + (high - low + 1)) 0 }

def isSelected (selection : JSTreeSelection) (aViewIndex : Int) : Bool :=
  selection.ranges.any fun (low, high) => low ≤ aViewIndex && aViewIndex ≤ high

def fireSelectionChanged (selection : JSTreeSelection) : JSTreeSelection :=
  if selection.selectEventsSuppressed then selection
  else { selection with view := selection.view.map (· + 1) }

def setSelectEventsSuppressed (selection : JSTreeSelection) (aSuppress : Bool) :
    JSTreeSelection :=
  let selection := { selection with selectEventsSuppressed := aSuppress }
  if aSuppress then selection else selection.fireSelectionChanged

def currentIndex (selection : JSTreeSelection) : Int := selection.currentIndex?.getD (-1)

def setCurrentIndex (selection : JSTreeSelection) (aIndex : Int) : JSTreeSelection :=
  if aIndex = selection.currentIndex then selection
  else { selection with currentIndex? := if aIndex ≠ -1 then some aIndex else none }

/-- The ranges that a pass over all of them found. -/
structure Found where
  lowOverlap : Option Nat := none
  lowNuke : Option Nat := none
  highNuke : Option Nat := none
  highOverlap : Option Nat := none
  insertionPoint : Nat := 0
  deriving DecidableEq

/-- The three tests of `rangedSelect` on one range. -/
def Found.addRange (found : Found) (aRangeStart aRangeEnd : Int) (iTupe : Nat)
    (low high : Int) : Found :=
  let found :=
    if aRangeStart ≤ low ∧ high ≤ aRangeEnd then
      { found with lowNuke := found.lowNuke.or (some iTupe), highNuke := some iTupe }
    else found
  let found :=
    if low - 1 ≤ aRangeStart ∧ aRangeStart ≤ high + 1 ∧ found.lowOverlap = none then
      { found with lowOverlap := some iTupe, lowNuke := some iTupe, highNuke := some iTupe }
    else found
  if low - 1 ≤ aRangeEnd ∧ aRangeEnd ≤ high + 1 then
    { found with
      highOverlap := some iTupe, highNuke := some iTupe
      lowNuke := found.lowNuke.or (some iTupe) }
  else found

/-- The pass of `rangedSelect`. -/
def findForSelect (aRangeStart aRangeEnd : Int) :
    Nat → List (Int × Int) → Found → Found
  | _, [], found => found
  | iTupe, (low, high) :: rest, found =>
    let found := found.addRange aRangeStart aRangeEnd iTupe low high
    if aRangeEnd < low then { found with insertionPoint := iTupe }
    else findForSelect aRangeStart aRangeEnd (iTupe + 1) rest found

/-- What stands at a remembered place, if one was remembered. -/
def rangeAt (ranges : List (Int × Int)) (place : Option Nat) : Option (Int × Int) :=
  place.bind (ranges[·]?)

/-- The splice of `rangedSelect` with `aAugment`. -/
def Found.selectInto (found : Found) (ranges : List (Int × Int)) (aRangeStart aRangeEnd : Int) :
    List (Int × Int) :=
  let start := (rangeAt ranges found.lowOverlap).elim aRangeStart (min aRangeStart ·.1)
  let stop := (rangeAt ranges found.highOverlap).elim aRangeEnd (max aRangeEnd ·.2)
  match found.lowNuke with
  | some lowNuke => splice ranges lowNuke (found.highNuke.getD 0 - lowNuke + 1) [(start, stop)]
  | none => splice ranges found.insertionPoint 0 [(start, stop)]

/-- The new list of `rangedSelect` with `aAugment`. -/
def selectInto (ranges : List (Int × Int)) (aRangeStart aRangeEnd : Int) : List (Int × Int) :=
  (findForSelect aRangeStart aRangeEnd 0 ranges
    { insertionPoint := ranges.length }).selectInto ranges aRangeStart aRangeEnd

/-- Where a shift-selection starts. -/
def effectiveStart (selection : JSTreeSelection) (aRangeStart aRangeEnd : Int) : Int :=
  if aRangeStart = -1 then
    match selection.shiftSelectPivot, selection.currentIndex? with
    | some pivot, _ => pivot
    | none, some current => current
    | none, none => aRangeEnd
  else aRangeStart

def rangedSelect (selection : JSTreeSelection) (aRangeStart aRangeEnd : Int)
    (aAugment : Bool) : JSTreeSelection :=
  let start := selection.effectiveStart aRangeStart aRangeEnd
  let selection := { selection with shiftSelectPivot := some start }.setCurrentIndex aRangeEnd
  let low := if start > aRangeEnd then aRangeEnd else start
  let high := if start > aRangeEnd then start else aRangeEnd
  if !aAugment then
    { selection with count := high - low + 1, ranges := [(low, high)] }.fireSelectionChanged
  else
    { selection with ranges := selectInto selection.ranges low high }.updateCount
      |>.fireSelectionChanged

/-- The three tests of `clearRange` on one range. -/
def Found.clearFrom (found : Found) (aRangeStart aRangeEnd : Int) (iTupe : Nat)
    (low high : Int) : Found :=
  let found :=
    if aRangeStart ≤ low ∧ high ≤ aRangeEnd then
      { found with lowNuke := found.lowNuke.or (some iTupe), highNuke := some iTupe }
    else found
  let found :=
    if low ≤ aRangeStart ∧ aRangeStart ≤ high ∧ found.lowNuke = none then
      { found with
        lowNuke := some iTupe, highNuke := some iTupe
        lowOverlap := if low < aRangeStart then some iTupe else found.lowOverlap }
    else found
  if low ≤ aRangeEnd ∧ aRangeEnd ≤ high then
    { found with
      highNuke := some iTupe
      highOverlap := if aRangeEnd < high then some iTupe else found.highOverlap
      lowNuke := found.lowNuke.or (some iTupe) }
  else found

def findForClear (aRangeStart aRangeEnd : Int) : Nat → List (Int × Int) → Found → Found
  | _, [], found => found
  | iTupe, (low, high) :: rest, found =>
    let found := found.clearFrom aRangeStart aRangeEnd iTupe low high
    if aRangeEnd < low then found
    else findForClear aRangeStart aRangeEnd (iTupe + 1) rest found

/-- The splice of `clearRange`, when there is something to nuke. -/
def Found.clearOut (found : Found) (ranges : List (Int × Int)) (lowNuke : Nat)
    (aRangeStart aRangeEnd : Int) : List (Int × Int) :=
  let lowPart := (rangeAt ranges found.lowOverlap).map fun (low, _) => (low, aRangeStart - 1)
  let highPart := (rangeAt ranges found.highOverlap).map fun (_, high) => (aRangeEnd + 1, high)
  splice ranges lowNuke (found.highNuke.getD 0 - lowNuke + 1)
    (lowPart.toList ++ highPart.toList)

def clearRange (selection : JSTreeSelection) (aRangeStart aRangeEnd : Int) :
    JSTreeSelection :=
  let found := findForClear aRangeStart aRangeEnd 0 selection.ranges {}
  match found.lowNuke with
  | none => selection
  | some lowNuke =>
    { selection with
      ranges := found.clearOut selection.ranges lowNuke aRangeStart aRangeEnd }.updateCount

/-- The pass of `toggleSelect`, which ends with the first range that `aIndex` is about. -/
def toggleIn (ranges : List (Int × Int)) (count aIndex : Int) :
    Nat → List (Int × Int) → List (Int × Int) × Int
  | _, [] => (ranges, count)
  | iTupe, (low, high) :: rest =>
    if aIndex < low then
      if aIndex = low - 1 then (ranges.set iTupe (aIndex, high), count + 1)
      else (splice ranges iTupe 0 [(aIndex, aIndex)], count + 1)
    else if low ≤ aIndex ∧ aIndex ≤ high then
      if aIndex = low ∧ aIndex = high then (splice ranges iTupe 1 [], count - 1)
      else if aIndex = low then (ranges.set iTupe (aIndex + 1, high), count - 1)
      else if aIndex = high then (ranges.set iTupe (low, aIndex - 1), count - 1)
      else (splice ranges iTupe 1 [(low, aIndex - 1), (aIndex + 1, high)], count - 1)
    else if aIndex = high + 1 then
      match ranges[iTupe + 1]? with
      | some (nextLow, nextHigh) =>
        if nextLow = aIndex + 1 then (splice ranges iTupe 2 [(low, nextHigh)], count + 1)
        else (ranges.set iTupe (low, aIndex), count + 1)
      | none => (ranges.set iTupe (low, aIndex), count + 1)
    else toggleIn ranges count aIndex (iTupe + 1) rest

def toggleSelect (selection : JSTreeSelection) (aIndex : Int) : JSTreeSelection :=
  let selection := selection.setCurrentIndex aIndex
  if selection.count = 0 then
    { selection with count := 1, ranges := [(aIndex, aIndex)] }.fireSelectionChanged
  else
    let toggled := toggleIn selection.ranges selection.count aIndex 0 selection.ranges
    { selection with ranges := toggled.1, count := toggled.2 }.fireSelectionChanged

def adjustPoint (aPoint : Option Int) (aDeltaAt aDelta : Int) : Option Int :=
  match aPoint with
  | none => none
  | some point =>
    if point < aDeltaAt then some point
    else if aDelta < 0 ∧ aDeltaAt ≤ point ∧ point + aDelta < aDeltaAt then none
    else some (point + aDelta)

def findRangeContainingRow (aIndex : Int) : Nat → List (Int × Int) → Option Nat × Nat
  | iTupe, [] => (none, iTupe)
  | iTupe, (low, high) :: rest =>
    if low ≤ aIndex ∧ aIndex ≤ high then (some iTupe, iTupe)
    else if aIndex < low then (none, iTupe)
    else findRangeContainingRow aIndex (iTupe + 1) rest

/-- The loops that move the ranges from `iTrans` on, with the `iTrans` they end at. -/
def translate (move : Int × Int → Int × Int) (ranges : List (Int × Int)) (iTrans : Nat) :
    List (Int × Int) × Nat :=
  if inside : iTrans < ranges.length then
    translate move (ranges.set iTrans (move ranges[iTrans])) (iTrans + 1)
  else (ranges, iTrans)
termination_by ranges.length - iTrans

/-- The merge of the range at `iTrans` into the one before it. -/
def mergeAt (ranges : List (Int × Int)) (iTrans : Nat) : List (Int × Int) :=
  match ranges[iTrans - 1]?, ranges[iTrans]? with
  | some (low, high), some (nextLow, nextHigh) =>
    if 0 < iTrans ∧ high = nextLow then
      splice (ranges.set (iTrans - 1) (low, nextHigh)) iTrans 1 []
    else ranges
  | _, _ => ranges

/-- The ranges after `aCount` rows were put in at `aIndex`. -/
def rowsInserted (ranges : List (Int × Int)) (aIndex aCount : Int) : List (Int × Int) :=
  let (iContain, iInsert) := findRangeContainingRow aIndex 0 ranges
  let (ranges, iInsert) :=
    match iContain, rangeAt ranges iContain with
    | some place, some (low, high) =>
      if aIndex ≠ low then
        (splice ranges place 1 [(low, aIndex - 1), (aIndex, high)], iInsert + 1)
      else (ranges, iInsert)
    | _, _ => (ranges, iInsert)
  (translate (fun (low, high) => (low + aCount, high + aCount)) ranges iInsert).1

/-- The ranges without the rows from `aIndex` on, after `-aCount` rows went there. -/
def rowsRemoved (ranges : List (Int × Int)) (aIndex aCount : Int) : List (Int × Int) :=
  let (ranges, iTrans) :=
    translate (fun (low, high) => (if aIndex ≤ low then low + aCount else low, high + aCount))
      ranges (findRangeContainingRow aIndex 0 ranges).2
  mergeAt ranges iTrans

def adjustSelection (selection : JSTreeSelection) (aIndex aCount : Int) : JSTreeSelection :=
  if aCount = 0 then selection
  else
    let selection := { selection with
      adjustSelectionLog := selection.adjustSelectionLog.map (· ++ [(aIndex, aCount)])
      shiftSelectPivot := adjustPoint selection.shiftSelectPivot aIndex aCount
      currentIndex? := adjustPoint selection.currentIndex? aIndex aCount }
    if 0 < aCount then
      { selection with
        ranges := rowsInserted selection.ranges aIndex aCount }.fireSelectionChanged
    else
      let saveSuppress := selection.selectEventsSuppressed
      let selection :=
        (selection.setSelectEventsSuppressed true).clearRange aIndex (aIndex - aCount - 1)
      { selection with
        ranges := rowsRemoved selection.ranges aIndex aCount }.setSelectEventsSuppressed
          saveSuppress

@[simp] lemma fireSelectionChanged_ranges (selection : JSTreeSelection) :
    selection.fireSelectionChanged.ranges = selection.ranges := by
  unfold fireSelectionChanged
  split <;> rfl

@[simp] lemma fireSelectionChanged_count (selection : JSTreeSelection) :
    selection.fireSelectionChanged.count = selection.count := by
  unfold fireSelectionChanged
  split <;> rfl

@[simp] lemma fireSelectionChanged_currentIndex? (selection : JSTreeSelection) :
    selection.fireSelectionChanged.currentIndex? = selection.currentIndex? := by
  unfold fireSelectionChanged
  split <;> rfl

@[simp] lemma fireSelectionChanged_shiftSelectPivot (selection : JSTreeSelection) :
    selection.fireSelectionChanged.shiftSelectPivot = selection.shiftSelectPivot := by
  unfold fireSelectionChanged
  split <;> rfl

@[simp] lemma setSelectEventsSuppressed_ranges (selection : JSTreeSelection)
    (aSuppress : Bool) :
    (selection.setSelectEventsSuppressed aSuppress).ranges = selection.ranges := by
  cases aSuppress <;> simp [setSelectEventsSuppressed]

@[simp] lemma setSelectEventsSuppressed_count (selection : JSTreeSelection)
    (aSuppress : Bool) :
    (selection.setSelectEventsSuppressed aSuppress).count = selection.count := by
  cases aSuppress <;> simp [setSelectEventsSuppressed]

@[simp] lemma setCurrentIndex_ranges (selection : JSTreeSelection) (aIndex : Int) :
    (selection.setCurrentIndex aIndex).ranges = selection.ranges := by
  unfold setCurrentIndex
  split <;> rfl

@[simp] lemma setCurrentIndex_count (selection : JSTreeSelection) (aIndex : Int) :
    (selection.setCurrentIndex aIndex).count = selection.count := by
  unfold setCurrentIndex
  split <;> rfl

@[simp] lemma updateCount_ranges (selection : JSTreeSelection) :
    selection.updateCount.ranges = selection.ranges := rfl

@[simp] lemma updateCount_count (selection : JSTreeSelection) :
    selection.updateCount.count = rangesSize selection.ranges := by
  have fold (ranges : List (Int × Int)) (count : Int) :
      ranges.foldl (fun count (low, high) => count + (high - low + 1)) count =
        count + rangesSize ranges := by
    induction ranges generalizing count with
    | nil => simp
    | cons range rest ih =>
      rw [foldl_cons, ih, rangesSize_cons]
      exact add_assoc _ _ _
  simp [updateCount, fold]

@[simp] lemma isSelected_iff (selection : JSTreeSelection) (row : Int) :
    selection.isSelected row = true ↔ Covered selection.ranges row := by
  simp [isSelected, Covered]

/-- The documented form of the ranges, and a count that is right. -/
structure Valid (selection : JSTreeSelection) : Prop where
  spaced : Spaced 1 selection.ranges
  counted : selection.count = ({row | selection.isSelected row = true}.ncard : Int)

/-- The size of the selected set is what `_updateCount` adds up, also for adjacent ranges. -/
theorem ncard_isSelected (selection : JSTreeSelection) (spaced : Spaced 0 selection.ranges) :
    ({row | selection.isSelected row = true}.ncard : Int) = rangesSize selection.ranges := by
  simp only [isSelected_iff]
  exact ncard_covered spaced

lemma Valid.size {selection : JSTreeSelection} (valid : selection.Valid) :
    selection.count = rangesSize selection.ranges := by
  rw [valid.counted, selection.ncard_isSelected (valid.spaced.weaken (by decide))]

lemma valid_of_size {selection : JSTreeSelection} (spaced : Spaced 1 selection.ranges)
    (size : selection.count = rangesSize selection.ranges) : selection.Valid :=
  ⟨spaced, by rw [size, selection.ncard_isSelected (spaced.weaken (by decide))]⟩

end JSTreeSelection

end CommCentral.View
