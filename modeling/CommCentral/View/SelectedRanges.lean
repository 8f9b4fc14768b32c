import CommCentral.View.TreeSelection

/-! Adding a range of rows to a selection is set union, and clearing one is set difference. -/
namespace CommCentral.View

open Lib List

namespace JSTreeSelection

section RangedSelect

variable {front touched back ranges : List (Int × Int)} {found : Found}

variable {range : Int × Int}

lemma addRange_apart (ordered : low ≤ high) (filled : range.1 ≤ range.2)
    (apart : range.2 + 1 < low ∨ high + 1 < range.1) (iTupe : Nat) :
    found.addRange low high iTupe range.1 range.2 = found := by
  have notInside : ¬ (low ≤ range.1 ∧ range.2 ≤ high) := by omega
  have notStart : ¬ (range.1 - 1 ≤ low ∧ low ≤ range.2 + 1 ∧ found.lowOverlap = none) := by
    omega
  have notStop : ¬ (range.1 - 1 ≤ high ∧ high ≤ range.2 + 1) := by omega
  simp only [Found.addRange, if_neg notInside, if_neg notStart, if_neg notStop]

lemma addRange_first (near : low ≤ range.2 + 1 ∧ range.1 ≤ high + 1)
    (iTupe point : Nat) :
    Found.addRange { insertionPoint := point } low high iTupe range.1 range.2 =
      { lowOverlap := if range.1 ≤ low + 1 then some iTupe else none
        lowNuke := some iTupe, highNuke := some iTupe
        highOverlap := if high ≤ range.2 + 1 then some iTupe else none
        insertionPoint := point } := by
  simp only [Found.addRange]
  grind

lemma addRange_later (filled : range.1 ≤ range.2) (near : low < range.1 ∧ range.1 ≤ high + 1)
    (marked : found.lowNuke = some lowNuke)
    (overlapped : found.lowOverlap ≠ none ∨ low + 1 < range.1) (iTupe : Nat) :
    found.addRange low high iTupe range.1 range.2 =
      { found with
        highNuke := some iTupe
        highOverlap := if high ≤ range.2 + 1 then some iTupe else found.highOverlap } := by
  cases found
  simp only at marked overlapped
  subst marked
  simp only [Found.addRange]
  grind

lemma findForSelect_front (ordered : low ≤ high) (spaced : Spaced 1 front)
    (below : ∀ range ∈ front, range.2 + 1 < low) (iTupe : Nat) (rest) :
    findForSelect low high iTupe (front ++ rest) found =
      findForSelect low high (iTupe + front.length) rest found := by
  induction front generalizing iTupe with
  | nil => rfl
  | cons range front ih =>
    obtain ⟨filled, _, spacedFront⟩ := (spaced_cons range).mp spaced
    obtain ⟨under, belowFront⟩ := forall_mem_cons.mp below
    have notOver : ¬ high < range.1 := by omega
    have next := ih spacedFront belowFront (iTupe + 1)
    rw [cons_append, findForSelect]
    simp only [addRange_apart ordered filled (.inl under), if_neg notOver, next,
      length_cons]
    congr 1
    omega

lemma findForSelect_back (ordered : low ≤ high) (spaced : Spaced 1 back)
    (above : ∀ range ∈ back, high + 1 < range.1) (iTupe : Nat) :
    findForSelect low high iTupe back found =
      { found with insertionPoint := if back = [] then found.insertionPoint else iTupe } := by
  cases back with
  | nil => rfl
  | cons range rest =>
    obtain ⟨filled, _, _⟩ := (spaced_cons range).mp spaced
    have upward := above range mem_cons_self
    have stops : high < range.1 := by omega
    rw [findForSelect]
    simp only [addRange_apart ordered filled (.inr upward), if_pos stops,
      if_neg (cons_ne_nil _ _)]

lemma findForSelect_later (found) {last : Int × Int} (ordered : low ≤ high)
    (spaced : Spaced 1 (touched ++ last :: back))
    (near : ∀ range ∈ touched ++ [last], low < range.1 ∧ range.1 ≤ high + 1)
    (above : ∀ range ∈ back, high + 1 < range.1) (marked : found.lowNuke = some lowNuke)
    (overlapped : found.lowOverlap ≠ none ∨ ∀ range ∈ touched ++ [last], low + 1 < range.1)
    (iTupe : Nat) :
    ∃ point, findForSelect low high iTupe (touched ++ last :: back) found =
      { found with
        highNuke := some (iTupe + touched.length)
        highOverlap :=
          if high ≤ last.2 + 1 then some (iTupe + touched.length) else found.highOverlap
        insertionPoint := point } := by
  induction touched generalizing iTupe found with
  | nil =>
    obtain ⟨filled, _, spacedBack⟩ := (spaced_cons last).mp spaced
    have nearLast := near last (by simp)
    have step := addRange_later filled nearLast marked
      (overlapped.imp_right fun all => all last (by simp)) iTupe
    rw [nil_append, findForSelect]
    simp only [step]
    split
    · exact ⟨iTupe, rfl⟩
    · rw [findForSelect_back ordered spacedBack above]
      exact ⟨_, rfl⟩
  | cons range touched ih =>
    obtain ⟨filled, apart, spacedRest⟩ := (spaced_cons range).mp spaced
    have nearRange := near range (by simp)
    have nearLast := near last (by simp)
    have beforeLast := apart last (by simp)
    have filledLast := spacedRest.1 last (by simp)
    have step := addRange_later filled nearRange marked
      (overlapped.imp_right fun all => all range (by simp)) iTupe
    have notOver : ¬ high < range.1 := by omega
    obtain ⟨point, found_eq⟩ := ih { found with
        highNuke := some iTupe
        highOverlap := if high ≤ range.2 + 1 then some iTupe else found.highOverlap }
      spacedRest (fun later mem => near later (mem_cons_of_mem _ mem)) marked
      (overlapped.imp_right fun all later mem => all later (mem_cons_of_mem _ mem))
      (iTupe + 1)
    refine ⟨point, ?_⟩
    rw [cons_append, findForSelect]
    simp only [step, if_neg notOver, found_eq]
    have place : iTupe + 1 + touched.length = iTupe + (range :: touched).length := by
      simp only [length_cons]
      omega
    rw [place]
    by_cases reached : high ≤ last.2 + 1
    · simp [reached]
    · have notReached : ¬ high ≤ range.2 + 1 := by omega
      simp [reached, notReached]

lemma findForSelect_one (ordered : low ≤ high) (spaced : Spaced 1 (only :: back))
    (near : low ≤ only.2 + 1 ∧ only.1 ≤ high + 1) (above : ∀ range ∈ back, high + 1 < range.1)
    (iTupe length : Nat) :
    ∃ point, findForSelect low high iTupe (only :: back) { insertionPoint := length } =
      { lowOverlap := if only.1 ≤ low + 1 then some iTupe else none
        lowNuke := some iTupe, highNuke := some iTupe
        highOverlap := if high ≤ only.2 + 1 then some iTupe else none
        insertionPoint := point } := by
  obtain ⟨_, _, spacedBack⟩ := (spaced_cons only).mp spaced
  rw [findForSelect]
  simp only [addRange_first near]
  split
  · exact ⟨iTupe, rfl⟩
  · rw [findForSelect_back ordered spacedBack above]
    exact ⟨_, rfl⟩

lemma findForSelect_many {first last : Int × Int} (ordered : low ≤ high)
    (spaced : Spaced 1 (first :: (touched ++ last :: back)))
    (near : ∀ range ∈ first :: (touched ++ [last]), low ≤ range.2 + 1 ∧ range.1 ≤ high + 1)
    (above : ∀ range ∈ back, high + 1 < range.1) (iTupe length : Nat) :
    ∃ point, findForSelect low high iTupe (first :: (touched ++ last :: back))
        { insertionPoint := length } =
      { lowOverlap := if first.1 ≤ low + 1 then some iTupe else none
        lowNuke := some iTupe, highNuke := some (iTupe + 1 + touched.length)
        highOverlap := if high ≤ last.2 + 1 then some (iTupe + 1 + touched.length) else none
        insertionPoint := point } := by
  obtain ⟨filled, apart, spacedRest⟩ := (spaced_cons first).mp spaced
  have nearFirst := near first mem_cons_self
  have beforeLast := apart last (by simp)
  have filledLast := spacedRest.1 last (by simp)
  have nearLast := near last (by simp)
  have notOver : ¬ high < first.1 := by omega
  have inRest {range : Int × Int} (mem : range ∈ touched ++ [last]) :
      first.2 + 1 < range.1 :=
    apart range (by simp only [mem_append, mem_cons] at mem ⊢; tauto)
  obtain ⟨point, found_eq⟩ := findForSelect_later {
      lowOverlap := if first.1 ≤ low + 1 then some iTupe else none
      lowNuke := some iTupe, highNuke := some iTupe
      highOverlap := if high ≤ first.2 + 1 then some iTupe else none
      insertionPoint := length }
    ordered spacedRest
    (fun range mem => ⟨by have := inRest mem; omega,
      (near range (mem_cons_of_mem _ mem)).2⟩) above rfl
    (by
      by_cases overlaps : first.1 ≤ low + 1
      · simp [overlaps]
      · refine .inr fun range mem => ?_
        have := inRest mem
        omega)
    (iTupe + 1)
  refine ⟨point, ?_⟩
  rw [findForSelect]
  simp only [addRange_first nearFirst, if_neg notOver, found_eq]
  by_cases reached : high ≤ last.2 + 1
  · simp [reached]
  · have notReached : ¬ high ≤ first.2 + 1 := by omega
    simp [reached, notReached]

lemma findForSelect_near {first last : Int × Int} (ordered : low ≤ high)
    (spaced : Spaced 1 (touched ++ back))
    (near : ∀ range ∈ touched, low ≤ range.2 + 1 ∧ range.1 ≤ high + 1)
    (above : ∀ range ∈ back, high + 1 < range.1) (isFirst : touched.head? = some first)
    (isLast : touched.getLast? = some last) (iTupe length : Nat) :
    ∃ point, findForSelect low high iTupe (touched ++ back) { insertionPoint := length } =
      { lowOverlap := if first.1 ≤ low + 1 then some iTupe else none
        lowNuke := some iTupe, highNuke := some (iTupe + (touched.length - 1))
        highOverlap := if high ≤ last.2 + 1 then some (iTupe + (touched.length - 1)) else none
        insertionPoint := point } := by
  cases touched with
  | nil => cases isFirst
  | cons head rest =>
    cases isFirst
    rcases eq_nil_or_concat rest with rfl | ⟨middle, final, rfl⟩
    · cases isLast
      exact findForSelect_one ordered spaced (near first mem_cons_self) above iTupe length
    · rw [concat_eq_append, ← cons_append, getLast?_concat] at isLast
      cases isLast
      have place : iTupe + ((first :: middle.concat last).length - 1) =
          iTupe + 1 + middle.length := by
        simp only [length_cons, length_concat]
        omega
      have shape : first :: middle.concat last ++ back = first :: (middle ++ last :: back) := by
        simp
      rw [concat_eq_append] at near
      rw [shape] at spaced ⊢
      rw [place]
      exact findForSelect_many ordered spaced near above iTupe length

lemma rangeAt_touched (inside : place < touched.length) :
    rangeAt (front ++ (touched ++ back)) (some (front.length + place)) = touched[place]? := by
  simp [rangeAt, getElem?_append_right, getElem?_append_left inside]

/-- The new list: the ranges near the new one give way to one range. -/
theorem selectInto_eq (ordered : low ≤ high) (spaced : Spaced 1 (front ++ (touched ++ back)))
    (below : ∀ range ∈ front, range.2 + 1 < low)
    (near : ∀ range ∈ touched, low ≤ range.2 + 1 ∧ range.1 ≤ high + 1)
    (above : ∀ range ∈ back, high + 1 < range.1) :
    ∃ hull, Hull low high touched hull ∧
      selectInto (front ++ (touched ++ back)) low high = front ++ hull :: back := by
  obtain ⟨spacedFront, spacedRest, _⟩ := spaced_append.mp spaced
  rw [selectInto, findForSelect_front ordered spacedFront below, Nat.zero_add]
  by_cases none : touched = []
  · subst none
    refine ⟨(low, high), ⟨by simp, .inl rfl, by simp, .inl rfl⟩, ?_⟩
    rw [nil_append] at spacedRest
    rw [nil_append, findForSelect_back ordered spacedRest above]
    have place : (if back = [] then (front ++ back).length else front.length) = front.length := by
      split
      · simp [*]
      · rfl
    simp only [place, Found.selectInto]
    exact splice_middle front [] back [(low, high)]
  · obtain ⟨first, isFirst⟩ : ∃ first, touched.head? = some first := ⟨_, head?_eq_some_head none⟩
    obtain ⟨last, isLast⟩ : ∃ last, touched.getLast? = some last :=
      ⟨_, getLast?_eq_some_getLast none⟩
    obtain ⟨point, found_eq⟩ := findForSelect_near ordered spacedRest near above isFirst isLast
      front.length (front ++ (touched ++ back)).length
    refine ⟨(min low first.1, max high last.2),
      hull_of_ends (spaced_append.mp spacedRest).1 isFirst isLast, ?_⟩
    rw [found_eq]
    have filled : 0 < touched.length := length_pos_iff.mpr none
    have firstAt : rangeAt (front ++ (touched ++ back)) (some front.length) = some first := by
      rw [← isFirst, head?_eq_getElem?]
      exact rangeAt_touched filled
    have lastAt : rangeAt (front ++ (touched ++ back))
        (some (front.length + (touched.length - 1))) = some last := by
      rw [rangeAt_touched (by omega), ← isLast, getLast?_eq_getElem?]
    have start : (rangeAt (front ++ (touched ++ back))
        (if first.1 ≤ low + 1 then some front.length else Option.none)).elim low
          (min low ·.1) = min low first.1 := by
      split
      · rw [firstAt]
        rfl
      · have : low ≤ first.1 := by omega
        exact (min_eq_left this).symm
    have stop : (rangeAt (front ++ (touched ++ back))
        (if high ≤ last.2 + 1 then some (front.length + (touched.length - 1))
          else Option.none)).elim high (max high ·.2) = max high last.2 := by
      split
      · rw [lastAt]
        rfl
      · have : last.2 ≤ high := by omega
        exact (max_eq_left this).symm
    have deleted : front.length + (touched.length - 1) - front.length + 1 = touched.length := by
      omega
    simp only [Found.selectInto, start, stop, Option.getD_some, deleted, splice_middle]
    rfl

lemma selectInto_adds (ordered : low ≤ high) (spaced : Spaced 1 ranges) :
    Spaced 1 (selectInto ranges low high) ∧
      ∀ row, Covered (selectInto ranges low high) row ↔
        Covered ranges row ∨ (low ≤ row ∧ row ≤ high) := by
  obtain ⟨front, touched, back, rfl, below, inside, above⟩ :=
    spaced.cut (by decide) (low - 1) (high + 1)
  have under : ∀ range ∈ front, range.2 + 1 < low := fun range mem => by
    have := below range mem
    omega
  have near : ∀ range ∈ touched, low ≤ range.2 + 1 ∧ range.1 ≤ high + 1 :=
    fun range mem => by
      have := inside range mem
      omega
  obtain ⟨hull, isHull, same⟩ := selectInto_eq ordered spaced under near above
  rw [same]
  exact spaced.fuse ordered under near above isHull

end RangedSelect

section ClearRange

variable {front touched back ranges : List (Int × Int)} {found : Found}

variable {range : Int × Int}

lemma clearFrom_apart (ordered : low ≤ high) (filled : range.1 ≤ range.2)
    (apart : range.2 < low ∨ high < range.1) (iTupe : Nat) :
    found.clearFrom low high iTupe range.1 range.2 = found := by
  have notInside : ¬ (low ≤ range.1 ∧ range.2 ≤ high) := by omega
  have notStart : ¬ (range.1 ≤ low ∧ low ≤ range.2 ∧ found.lowNuke = none) := by omega
  have notStop : ¬ (range.1 ≤ high ∧ high ≤ range.2) := by omega
  simp only [Found.clearFrom, if_neg notInside, if_neg notStart, if_neg notStop]

lemma clearFrom_first (near : low ≤ range.2 ∧ range.1 ≤ high)
    (iTupe : Nat) :
    Found.clearFrom {} low high iTupe range.1 range.2 =
      { lowOverlap := if range.1 < low then some iTupe else none
        lowNuke := some iTupe, highNuke := some iTupe
        highOverlap := if high < range.2 then some iTupe else none } := by
  simp only [Found.clearFrom]
  grind

lemma clearFrom_later (near : low < range.1 ∧ range.1 ≤ high)
    (marked : found.lowNuke = some lowNuke) (iTupe : Nat) :
    found.clearFrom low high iTupe range.1 range.2 =
      { found with
        highNuke := some iTupe
        highOverlap := if high < range.2 then some iTupe else found.highOverlap } := by
  cases found
  simp only at marked
  subst marked
  simp only [Found.clearFrom]
  grind

lemma findForClear_front (ordered : low ≤ high) (spaced : Spaced 1 front)
    (below : ∀ range ∈ front, range.2 < low) (iTupe : Nat) (rest) :
    findForClear low high iTupe (front ++ rest) found =
      findForClear low high (iTupe + front.length) rest found := by
  induction front generalizing iTupe with
  | nil => rfl
  | cons range front ih =>
    obtain ⟨filled, _, spacedFront⟩ := (spaced_cons range).mp spaced
    obtain ⟨under, belowFront⟩ := forall_mem_cons.mp below
    have notOver : ¬ high < range.1 := by omega
    have next := ih spacedFront belowFront (iTupe + 1)
    rw [cons_append, findForClear]
    simp only [clearFrom_apart ordered filled (.inl under), if_neg notOver, next,
      length_cons]
    congr 1
    omega

lemma findForClear_back (ordered : low ≤ high) (spaced : Spaced 1 back)
    (above : ∀ range ∈ back, high < range.1) (iTupe : Nat) :
    findForClear low high iTupe back found = found := by
  cases back with
  | nil => rfl
  | cons range rest =>
    obtain ⟨filled, _, _⟩ := (spaced_cons range).mp spaced
    have upward := above range mem_cons_self
    rw [findForClear]
    simp only [clearFrom_apart ordered filled (.inr upward), if_pos upward]

/-- From the second range with a row to clear on, the pass only moves the high marks up. -/
theorem findForClear_later (found : Found) {last : Int × Int} (ordered : low ≤ high)
    (spaced : Spaced 1 (touched ++ last :: back))
    (near : ∀ range ∈ touched ++ [last], low < range.1 ∧ range.1 ≤ high)
    (above : ∀ range ∈ back, high < range.1) (marked : found.lowNuke = some lowNuke) (iTupe : Nat) :
    findForClear low high iTupe (touched ++ last :: back) found =
      { found with
        highNuke := some (iTupe + touched.length)
        highOverlap :=
          if high < last.2 then some (iTupe + touched.length) else found.highOverlap } := by
  induction touched generalizing iTupe found with
  | nil =>
    obtain ⟨filled, _, spacedBack⟩ := (spaced_cons last).mp spaced
    have nearLast := near last (by simp)
    have notOver : ¬ high < last.1 := by omega
    rw [nil_append, findForClear]
    simp only [clearFrom_later nearLast marked, if_neg notOver,
      findForClear_back ordered spacedBack above]
    rfl
  | cons range touched ih =>
    obtain ⟨filled, apart, spacedRest⟩ := (spaced_cons range).mp spaced
    have nearRange := near range (by simp)
    have nearLast := near last (by simp)
    have beforeLast := apart last (by simp)
    have notOver : ¬ high < range.1 := by omega
    have notReached : ¬ high < range.2 := by omega
    have next := ih { found with highNuke := some iTupe }
      spacedRest (fun later mem => near later (mem_cons_of_mem _ mem)) marked
      (iTupe + 1)
    have place : iTupe + 1 + touched.length = iTupe + (range :: touched).length := by
      simp only [length_cons]
      omega
    rw [cons_append, findForClear]
    simp only [clearFrom_later nearRange marked, if_neg notReached, if_neg notOver, next,
      place]

lemma findForClear_near {first last : Int × Int} (ordered : low ≤ high)
    (spaced : Spaced 1 (touched ++ back))
    (near : ∀ range ∈ touched, low ≤ range.2 ∧ range.1 ≤ high)
    (above : ∀ range ∈ back, high < range.1) (isFirst : touched.head? = some first)
    (isLast : touched.getLast? = some last) (iTupe : Nat) :
    findForClear low high iTupe (touched ++ back) {} =
      { lowOverlap := if first.1 < low then some iTupe else none
        lowNuke := some iTupe, highNuke := some (iTupe + (touched.length - 1))
        highOverlap := if high < last.2 then some (iTupe + (touched.length - 1)) else none } := by
  obtain ⟨rest, rfl⟩ := head?_eq_some_iff.mp isFirst
  obtain ⟨filled, apart, spacedRest⟩ := (spaced_cons first).mp spaced
  obtain ⟨nearFirst, nearRest⟩ := forall_mem_cons.mp near
  have notOver : ¬ high < first.1 := by omega
  rw [cons_append, findForClear]
  simp only [clearFrom_first nearFirst, if_neg notOver]
  rcases eq_nil_or_concat rest with rfl | ⟨middle, final, rfl⟩
  · cases isLast
    exact findForClear_back ordered spacedRest above _
  · rw [concat_eq_append, ← cons_append, getLast?_concat] at isLast
    cases isLast
    have place : iTupe + ((first :: middle.concat last).length - 1) =
        iTupe + 1 + middle.length := by
      simp only [length_cons, length_concat]
      omega
    have shape : middle.concat last ++ back = middle ++ last :: back := by
      simp
    change ∀ later ∈ middle.concat last ++ back, first.2 + 1 < later.1 at apart
    change Spaced 1 (middle.concat last ++ back) at spacedRest
    rw [shape] at apart spacedRest ⊢
    rw [concat_eq_append] at nearRest
    have beforeLast := apart last (by simp)
    have nearLast := nearRest last (by simp)
    have notReached : ¬ high < first.2 := by omega
    have later := findForClear_later {
        lowOverlap := if first.1 < low then some iTupe else none
        lowNuke := some iTupe, highNuke := some iTupe } ordered spacedRest
      (fun range mem => by
        have := nearRest range mem
        have := apart range (by simp only [mem_append, mem_cons] at mem ⊢; tauto)
        omega)
      above rfl (iTupe + 1)
    simp only [if_neg notReached, later, place]

variable (selection : JSTreeSelection)

/-- `clearRange` leaves of the ranges what lies outside of the cleared rows. -/
theorem clearRange_ranges {low high : Int} (ordered : low ≤ high)
    (spaced : Spaced 1 selection.ranges) :
    (selection.clearRange low high).ranges = carve low high selection.ranges := by
  obtain ⟨front, touched, back, split, below, near, above⟩ := spaced.cut (by decide) low high
  rw [split] at spaced
  obtain ⟨spacedFront, spacedRest, _⟩ := spaced_append.mp spaced
  have frontStays : carve low high front = front :=
    carve_eq_self spacedFront.1 ordered fun range mem => .inl (below range mem)
  have backStays : carve low high back = back :=
    carve_eq_self (spaced_append.mp spacedRest).2.1.1 ordered fun range mem =>
      .inr (above range mem)
  rw [clearRange, split, carve_append, carve_append, frontStays, backStays,
    findForClear_front ordered spacedFront below, Nat.zero_add]
  by_cases none : touched = []
  · subst none
    rw [nil_append] at spacedRest
    rw [nil_append, findForClear_back ordered spacedRest above]
    exact split
  · obtain ⟨first, isFirst⟩ : ∃ first, touched.head? = some first := ⟨_, head?_eq_some_head none⟩
    obtain ⟨last, isLast⟩ : ∃ last, touched.getLast? = some last :=
      ⟨_, getLast?_eq_some_getLast none⟩
    rw [findForClear_near ordered spacedRest near above isFirst isLast,
      carve_near (spaced_append.mp spacedRest).1 near isFirst isLast]
    have filled : 0 < touched.length := length_pos_iff.mpr none
    have firstAt : rangeAt (front ++ (touched ++ back)) (some front.length) = some first := by
      rw [← isFirst, head?_eq_getElem?]
      exact rangeAt_touched filled
    have lastAt : rangeAt (front ++ (touched ++ back))
        (some (front.length + (touched.length - 1))) = some last := by
      rw [rangeAt_touched (by omega), ← isLast, getLast?_eq_getElem?]
    have deleted : front.length + (touched.length - 1) - front.length + 1 = touched.length := by
      omega
    have lowRange : rangeAt (front ++ (touched ++ back))
        (if first.1 < low then some front.length else Option.none) =
        if first.1 < low then some first else Option.none := by
      split
      · exact firstAt
      · rfl
    have highRange : rangeAt (front ++ (touched ++ back))
        (if high < last.2 then some (front.length + (touched.length - 1)) else Option.none) =
        if high < last.2 then some last else Option.none := by
      split
      · exact lastAt
      · rfl
    simp only [updateCount_ranges, Found.clearOut, Option.getD_some, deleted, lowRange, highRange,
      splice_middle]
    split <;> split <;> rfl

lemma clearRange_count (low high : Int) (size : selection.count = rangesSize selection.ranges) :
    (selection.clearRange low high).count = rangesSize (selection.clearRange low high).ranges := by
  unfold clearRange
  dsimp only
  split
  · exact size
  · rw [updateCount_count, updateCount_ranges]

lemma Valid.clearRange {selection : JSTreeSelection} (valid : selection.Valid)
    (ordered : low ≤ high) : (selection.clearRange low high).Valid := by
  refine valid_of_size ?_ (selection.clearRange_count low high valid.size)
  rw [selection.clearRange_ranges ordered valid.spaced]
  exact valid.spaced.carve ordered

end ClearRange

variable (selection : JSTreeSelection)

lemma rangedSelect_ranges {low high : Int} (ordered : low ≤ high) (given : low ≠ -1) :
    (selection.rangedSelect low high true).ranges = selectInto selection.ranges low high := by
  have start : selection.effectiveStart low high = low := if_neg given
  have inOrder : ¬ high < low := by omega
  simp [rangedSelect, start, inOrder]

lemma rangedSelect_count (low high : Int) :
    (selection.rangedSelect low high true).count =
      rangesSize (selection.rangedSelect low high true).ranges := by
  simp [rangedSelect]

end JSTreeSelection

end CommCentral.View
