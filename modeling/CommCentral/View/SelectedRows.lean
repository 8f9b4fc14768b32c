import CommCentral.View.SelectedRanges

/-! Flipping one row of a selection. -/
namespace CommCentral.View

open Lib List

namespace JSTreeSelection

section ToggleSelect

variable {aIndex count : Int} {front back ranges : List (Int × Int)}

lemma set_middle {α : Type} (before) (item : α) (after) (new : α) :
    (before ++ item :: after).set before.length new = before ++ new :: after := by
  simp

lemma toggleIn_front (spaced : Spaced 1 front) (below : ∀ range ∈ front, range.2 + 1 < aIndex)
    (iTupe : Nat) (rest) :
    toggleIn ranges count aIndex iTupe (front ++ rest) =
      toggleIn ranges count aIndex (iTupe + front.length) rest := by
  induction front generalizing iTupe with
  | nil => rfl
  | cons range front ih =>
    obtain ⟨filled, _, spacedFront⟩ := (spaced_cons range).mp spaced
    obtain ⟨under, belowFront⟩ := forall_mem_cons.mp below
    have notBelow : ¬ aIndex < range.1 := by omega
    have notInside : ¬ (range.1 ≤ aIndex ∧ aIndex ≤ range.2) := by omega
    have notAbove : aIndex ≠ range.2 + 1 := by omega
    have next := ih spacedFront belowFront (iTupe + 1)
    rw [cons_append, toggleIn]
    simp only [if_neg notBelow, if_neg notInside, if_neg notAbove, next, length_cons]
    congr 1
    omega

/-- What a toggle makes of the ranges: the row is in them or not, as it was not or was. -/
structure Toggled (ranges : List (Int × Int)) (count aIndex : Int)
    (toggled : List (Int × Int) × Int) : Prop where
  spaced : Spaced 1 toggled.1
  rows : ∀ row, Covered toggled.1 row ↔
    (Covered ranges row ∧ row ≠ aIndex) ∨ (row = aIndex ∧ ¬ Covered ranges aIndex)
  counted : count = rangesSize ranges → toggled.2 = rangesSize toggled.1

lemma toggled_added (touched) (spaced : Spaced 1 (front ++ (touched ++ back)))
    (below : ∀ range ∈ front, range.2 + 1 < aIndex)
    (near : ∀ range ∈ touched, range.2 + 1 = aIndex ∨ aIndex + 1 = range.1)
    (above : ∀ range ∈ back, aIndex + 1 < range.1) (is : Hull aIndex aIndex touched hull)
    (larger : hull.2 - hull.1 = rangesSize touched) :
    Toggled (front ++ (touched ++ back)) count aIndex (front ++ hull :: back, count + 1) := by
  have filled := spaced.1
  have nearby : ∀ range ∈ touched, aIndex ≤ range.2 + 1 ∧ range.1 ≤ aIndex + 1 := by
    intro range mem
    have := near range mem
    have := filled range (by simp [mem])
    omega
  obtain ⟨spacedAfter, rows⟩ := spaced.fuse (le_refl _) below nearby above is
  have absent : ¬ Covered (front ++ (touched ++ back)) aIndex := by
    rintro ⟨range, mem, lower, upper⟩
    rcases mem_append.mp mem with inFront | inRest
    · have := below range inFront
      omega
    · rcases mem_append.mp inRest with inTouched | inBack
      · have := near range inTouched
        omega
      · have := above range inBack
        omega
  refine ⟨spacedAfter, ?_, ?_⟩
  · intro row
    rw [rows]
    constructor
    · rintro (was | same)
      · exact .inl ⟨was, fun isIndex => absent (isIndex ▸ was)⟩
      · exact .inr ⟨by omega, absent⟩
    · rintro (⟨was, _⟩ | ⟨rfl, _⟩)
      · exact .inl was
      · exact .inr ⟨le_refl _, le_refl _⟩
  · intro right
    rw [right]
    simp only [rangesSize_append, rangesSize_cons]
    omega

/-- The size of what is left of a range without one of its rows. -/
theorem rangesSize_outside {range : Int × Int} (inside : range.1 ≤ aIndex ∧ aIndex ≤ range.2) :
    rangesSize (outside aIndex aIndex range) = range.2 - range.1 := by
  have near : aIndex ≤ range.2 ∧ range.1 ≤ aIndex := ⟨inside.2, inside.1⟩
  rw [outside_near near]
  split <;> split <;> simp <;> omega

/-- A row that was in a range is taken out of it. -/
theorem toggled_removed (count : Int) {range : Int × Int} (spaced : Spaced 1 (front ++ range :: back))
    (inside : range.1 ≤ aIndex ∧ aIndex ≤ range.2) :
    Toggled (front ++ range :: back) count aIndex
      (front ++ (outside aIndex aIndex range ++ back), count - 1) := by
  obtain ⟨spacedFront, spacedRest, apart⟩ := spaced_append.mp spaced
  obtain ⟨_, above, spacedBack⟩ := (spaced_cons range).mp spacedRest
  have carved : carve aIndex aIndex (front ++ range :: back) =
      front ++ (outside aIndex aIndex range ++ back) := by
    rw [carve_append, carve_cons]
    congr 1
    · apply carve_eq_self spacedFront.1 (le_refl _)
      intro lower mem
      have := apart lower mem range mem_cons_self
      omega
    · congr 1
      apply carve_eq_self spacedBack.1 (le_refl _)
      intro upper mem
      have := above upper mem
      omega
  have present : Covered (front ++ range :: back) aIndex := ⟨range, by simp, inside.1, inside.2⟩
  rw [← carved]
  refine ⟨spaced.carve (le_refl _), ?_, ?_⟩
  · intro row
    rw [covered_carve]
    constructor
    · rintro ⟨was, other⟩
      exact .inl ⟨was, fun same => other ⟨same.ge, same.le⟩⟩
    · rintro (⟨was, other⟩ | ⟨_, absent⟩)
      · exact ⟨was, fun same => other (le_antisymm same.2 same.1)⟩
      · exact absurd present absent
  · intro right
    rw [right, carved]
    simp only [rangesSize_append, rangesSize_cons, rangesSize_outside inside]
    omega

lemma toggleIn_here (count : Int) {range : Int × Int} (spaced : Spaced 1 (front ++ range :: back))
    (below : ∀ range ∈ front, range.2 + 1 < aIndex) (reached : aIndex ≤ range.2 + 1) :
    Toggled (front ++ range :: back) count aIndex
      (toggleIn (front ++ range :: back) count aIndex front.length (range :: back)) := by
  obtain ⟨low, high⟩ := range
  obtain ⟨_, spacedRest, _⟩ := spaced_append.mp spaced
  obtain ⟨filled, apart, spacedBack⟩ := (spaced_cons (low, high)).mp spacedRest
  have above {after : List (Int × Int)} (some : ∀ range ∈ after, high + 1 < range.1)
      (under : aIndex ≤ high) : ∀ range ∈ after, aIndex + 1 < range.1 := by
    intro later mem
    have := some later mem
    omega
  rw [toggleIn]
  dsimp only at filled apart reached ⊢
  by_cases under : aIndex < low
  · rw [if_pos under]
    by_cases adjacent : aIndex = low - 1
    · rw [if_pos adjacent, set_middle]
      refine toggled_added [(low, high)] spaced below ?_ (above apart (by omega)) ?_ ?_
      · simp
        omega
      · exact ⟨by simp; omega, .inl rfl, by simp; omega, .inr ⟨(low, high), by simp⟩⟩
      · simp
        omega
    · rw [if_neg adjacent]
      have inserted := splice_middle front [] ((low, high) :: back) [(aIndex, aIndex)]
      rw [length_nil, nil_append] at inserted
      rw [inserted]
      refine toggled_added [] spaced below (by simp) ?_
        ⟨by simp, .inl rfl, by simp, .inl rfl⟩ (by simp)
      rintro later (_ | ⟨_, mem⟩)
      · dsimp only
        omega
      · have := apart later mem
        omega
  · rw [if_neg under]
    by_cases inside : low ≤ aIndex ∧ aIndex ≤ high
    · rw [if_pos inside]
      have removed := toggled_removed count spaced inside
      have spliced (items : List (Int × Int)) :
          splice (front ++ (low, high) :: back) front.length 1 items = front ++ (items ++ back) :=
        splice_middle front [(low, high)] back items
      rw [outside_near (And.symm inside)] at removed
      dsimp only at removed
      by_cases atLow : aIndex = low
      · have notBefore : ¬ low < aIndex := by omega
        rw [if_neg notBefore] at removed
        by_cases atHigh : aIndex = high
        · have notAfter : ¬ aIndex < high := by omega
          rw [if_pos ⟨atLow, atHigh⟩, spliced]
          rwa [if_neg notAfter] at removed
        · have after : aIndex < high := by omega
          rw [if_neg (fun both => atHigh both.2), if_pos atLow, set_middle]
          rwa [if_pos after] at removed
      · have before : low < aIndex := by omega
        rw [if_pos before] at removed
        rw [if_neg (fun both => atLow both.1), if_neg atLow]
        by_cases atHigh : aIndex = high
        · have notAfter : ¬ aIndex < high := by omega
          rw [if_pos atHigh, set_middle]
          rwa [if_neg notAfter] at removed
        · have after : aIndex < high := by omega
          rw [if_neg atHigh, spliced]
          rwa [if_pos after] at removed
    · rw [if_neg inside]
      have touches : aIndex = high + 1 := by omega
      have extended (clear : ∀ range ∈ back, aIndex + 1 < range.1) :
          Toggled (front ++ (low, high) :: back) count aIndex
            (front ++ (low, aIndex) :: back, count + 1) := by
        refine toggled_added [(low, high)] spaced below ?_ clear ?_ ?_
        · simp
          omega
        · exact ⟨by simp; omega, .inr ⟨(low, high), by simp⟩, by simp; omega, .inl rfl⟩
        · simp
          omega
      rw [if_pos touches]
      cases back with
      | nil =>
        have alone : (front ++ [(low, high)])[front.length + 1]? = none := by simp
        rw [alone]
        dsimp only
        rw [set_middle]
        exact extended (by simp)
      | cons next rest =>
        obtain ⟨nextLow, nextHigh⟩ := next
        obtain ⟨filledNext, apartNext, _⟩ := (spaced_cons (nextLow, nextHigh)).mp spacedBack
        have nextAt : (front ++ (low, high) :: (nextLow, nextHigh) :: rest)[front.length + 1]? =
            some (nextLow, nextHigh) := by simp
        have beyond := apart (nextLow, nextHigh) mem_cons_self
        rw [nextAt]
        dsimp only at filledNext apartNext beyond ⊢
        by_cases joined : nextLow = aIndex + 1
        · have spliced := splice_middle front [(low, high), (nextLow, nextHigh)] rest
            [(low, nextHigh)]
          rw [if_pos joined]
          refine (congrArg (Toggled _ count aIndex) (congrArg (·, count + 1) spliced)).mpr ?_
          refine toggled_added [(low, high), (nextLow, nextHigh)] spaced below
            ?_ ?_ ?_ ?_
          · simp
            omega
          · intro later mem
            have := apartNext later mem
            omega
          · exact ⟨by simp; omega, .inr ⟨(low, high), by simp⟩, by simp; omega,
              .inr ⟨(nextLow, nextHigh), by simp⟩⟩
          · simp
            omega
        · rw [if_neg joined, set_middle]
          refine extended ?_
          rintro later (_ | ⟨_, mem⟩)
          · dsimp only
            omega
          · have := apartNext later mem
            omega

/-- Above every range the pass finds nothing to do. -/
theorem toggleIn_above (spaced : Spaced 1 ranges)
    (below : ∀ range ∈ ranges, range.2 + 1 < aIndex) :
    toggleIn ranges count aIndex 0 ranges = (ranges, count) := by
  have skipped : toggleIn ranges count aIndex 0 (ranges ++ []) = _ :=
    toggleIn_front spaced below 0 []
  rw [append_nil] at skipped
  rw [skipped, toggleIn]

variable (selection : JSTreeSelection)

lemma toggleSelect_ranges (valid : selection.Valid) (aIndex : Int) (some : selection.ranges ≠ []) :
    (selection.toggleSelect aIndex).ranges =
        (toggleIn selection.ranges selection.count aIndex 0 selection.ranges).1 ∧
      (selection.toggleSelect aIndex).count =
        (toggleIn selection.ranges selection.count aIndex 0 selection.ranges).2 := by
  have counted : selection.count ≠ 0 := by
    rw [valid.size]
    exact fun none => some (valid.spaced.size_eq_zero.mp none)
  simp [toggleSelect, counted]

lemma toggleSelect_empty (valid : selection.Valid) (aIndex : Int) (none : selection.ranges = []) :
    (selection.toggleSelect aIndex).ranges = [(aIndex, aIndex)] ∧
      (selection.toggleSelect aIndex).count = 1 := by
  have counted : selection.count = 0 := by
    rw [valid.size, none]
    rfl
  simp [toggleSelect, counted]

/-- A toggle flips its row exactly when nothing is selected or the row is at most one above
the last selected one: above that no branch of the pass applies. -/
theorem toggleSelect_flips_iff (selection : JSTreeSelection) (valid : selection.Valid)
    (aIndex : Int) :
    ((selection.toggleSelect aIndex).Valid ∧
        {row | (selection.toggleSelect aIndex).isSelected row = true} =
          symmDiff {row | selection.isSelected row = true} {aIndex}) ↔
      selection.ranges = [] ∨ ∃ range ∈ selection.ranges, aIndex ≤ range.2 + 1 := by
  simp only [Set.ext_iff, Set.mem_symmDiff, Set.mem_ofPred_eq, isSelected_iff,
    Set.mem_singleton_iff]
  by_cases none : selection.ranges = []
  · obtain ⟨ranges, count⟩ := selection.toggleSelect_empty valid aIndex none
    refine iff_of_true ⟨valid_of_size ?_ ?_, ?_⟩ (.inl none)
    · simp [ranges]
    · simp [ranges, count]
    · intro row
      simp [ranges, none]
      omega
  · obtain ⟨ranges, count⟩ := selection.toggleSelect_ranges valid aIndex none
    obtain ⟨front, back, parts, below, reached⟩ := valid.spaced.cut_upper (by decide) (aIndex - 1)
    have under : ∀ range ∈ front, range.2 + 1 < aIndex := fun range mem => by
      have := below range mem
      omega
    cases back with
    | nil =>
      rw [append_nil] at parts
      rw [← parts] at under
      rw [toggleIn_above valid.spaced under] at ranges count
      refine iff_of_false ?_ ?_
      · rintro ⟨_, flipped⟩
        have absent : ¬ Covered selection.ranges aIndex := by
          rintro ⟨range, mem, _, upper⟩
          have := under range mem
          omega
        have here := flipped aIndex
        rw [ranges] at here
        exact absent (here.mpr (.inr ⟨rfl, absent⟩))
      · rintro (empty | ⟨range, mem, upper⟩)
        · exact none empty
        · have := under range mem
          omega
    | cons range rest =>
      have reach := reached range mem_cons_self
      have spaced := valid.spaced
      rw [parts] at spaced
      have toggled := toggleIn_here selection.count spaced under (by omega)
      rw [parts, toggleIn_front (spaced_append.mp spaced).1 under, Nat.zero_add] at ranges count
      refine iff_of_true ⟨valid_of_size ?_ ?_, ?_⟩ (.inr ⟨range, by simp [parts], by omega⟩)
      · rw [ranges]
        exact toggled.spaced
      · rw [ranges, count]
        apply toggled.counted
        rw [← parts]
        exact valid.size
      · intro row
        rw [ranges, toggled.rows, parts]
        constructor
        · rintro (was | ⟨rfl, absent⟩)
          · exact .inl was
          · exact .inr ⟨rfl, absent⟩
        · rintro (was | ⟨rfl, absent⟩)
          · exact .inl was
          · exact .inr ⟨rfl, absent⟩

/-- Row 2 with row 1 selected. -/
theorem toggleSelect_flips_next :
    let selection : JSTreeSelection := { ranges := [(1, 1)], count := 1 }
    (selection.toggleSelect 2).Valid ∧
      {row | (selection.toggleSelect 2).isSelected row = true} =
        symmDiff {row | selection.isSelected row = true} {2} := by
  have valid : Valid { ranges := [(1, 1)], count := 1 } := valid_of_size (by simp) (by decide)
  exact (toggleSelect_flips_iff _ valid 2).mpr (by decide)

/-- With row 1 selected, a toggle of row 3 does not select it. -/
theorem toggleSelect_far_above :
    ¬ ∀ selection : JSTreeSelection, selection.Valid → ∀ aIndex, 0 ≤ aIndex →
      (selection.toggleSelect aIndex).Valid ∧
        {row | (selection.toggleSelect aIndex).isSelected row = true} =
          symmDiff {row | selection.isSelected row = true} {aIndex} := by
  intro flips
  have valid : Valid { ranges := [(1, 1)], count := 1 } := valid_of_size (by simp) (by decide)
  have same := (flips _ valid 3 (by decide)).2
  have selected := (Set.ext_iff.mp same 3).mpr (.inr ⟨rfl, by decide⟩)
  exact absurd selected (by decide)

end ToggleSelect

end JSTreeSelection

end CommCentral.View
