import Mathlib.Data.Int.Interval
import Mathlib.Data.Set.Card
import Mathlib.Order.Basic
import Mathlib.Order.Lattice

/-! Lists of closed ranges over a linear order and the set of points they cover. -/
namespace CommCentral.Lib
open List

universe u

variable {α : Type u} [LinearOrder α]

def Covered (ranges : List (α × α)) (point : α) : Prop :=
  ∃ range ∈ ranges, range.1 ≤ point ∧ point ≤ range.2

@[simp] lemma not_covered_nil (point : α) : ¬ Covered [] point := by
  rintro ⟨range, mem, _⟩
  simp at mem

@[simp] lemma covered_cons (range : α × α) (ranges : List (α × α)) (point : α) :
    Covered (range :: ranges) point ↔
      (range.1 ≤ point ∧ point ≤ range.2) ∨ Covered ranges point := by
  simp [Covered]

@[simp] lemma covered_append (front back : List (α × α)) (point : α) :
    Covered (front ++ back) point ↔ Covered front point ∨ Covered back point := by
  simp only [Covered, mem_append]
  constructor
  · rintro ⟨range, mem | mem, inside⟩
    · exact .inl ⟨range, mem, inside⟩
    · exact .inr ⟨range, mem, inside⟩
  · rintro (⟨range, mem, inside⟩ | ⟨range, mem, inside⟩)
    · exact ⟨range, .inl mem, inside⟩
    · exact ⟨range, .inr mem, inside⟩

instance [DecidableLE α] (ranges : List (α × α)) (point : α) :
    Decidable (Covered ranges point) :=
  inferInstanceAs (Decidable (∃ range ∈ ranges, range.1 ≤ point ∧ point ≤ range.2))

/-- Non-empty ascending ranges, each more than `gap` above the range before it. -/
def Spaced (gap : Int) (ranges : List (Int × Int)) : Prop :=
  (∀ range ∈ ranges, range.1 ≤ range.2) ∧
    ranges.Pairwise fun lower upper => lower.2 + gap < upper.1

/-- The number of points of ranges that do not overlap. -/
def rangesSize (ranges : List (Int × Int)) : Int :=
  (ranges.map fun range => range.2 - range.1 + 1).sum

variable {gap : Int} {ranges front touched back : List (Int × Int)}

@[simp] lemma spaced_nil : Spaced gap [] := by
  simp [Spaced]

@[simp] lemma spaced_cons (range : Int × Int) :
    Spaced gap (range :: ranges) ↔
      range.1 ≤ range.2 ∧ (∀ later ∈ ranges, range.2 + gap < later.1) ∧
        Spaced gap ranges := by
  simp only [Spaced, mem_cons, forall_eq_or_imp, pairwise_cons]
  tauto

@[simp] lemma spaced_append :
    Spaced gap (front ++ back) ↔
      Spaced gap front ∧ Spaced gap back ∧
        ∀ lower ∈ front, ∀ upper ∈ back, lower.2 + gap < upper.1 := by
  simp only [Spaced, mem_append, pairwise_append]
  constructor
  · rintro ⟨filled, inFront, inBack, apart⟩
    exact ⟨⟨fun range mem => filled range (.inl mem), inFront⟩,
      ⟨fun range mem => filled range (.inr mem), inBack⟩, apart⟩
  · rintro ⟨⟨filled, inFront⟩, ⟨filledBack, inBack⟩, apart⟩
    refine ⟨?_, inFront, inBack, apart⟩
    rintro range (mem | mem)
    · exact filled range mem
    · exact filledBack range mem

lemma Spaced.weaken (spaced : Spaced gap ranges) (fewer : less ≤ gap) : Spaced less ranges := by
  refine ⟨spaced.1, spaced.2.imp ?_⟩
  intro lower upper apart
  omega

@[simp] lemma rangesSize_nil : rangesSize [] = 0 := rfl

@[simp] lemma rangesSize_cons (range : Int × Int) :
    rangesSize (range :: ranges) = range.2 - range.1 + 1 + rangesSize ranges := by
  simp [rangesSize]

@[simp] lemma rangesSize_append :
    rangesSize (front ++ back) = rangesSize front + rangesSize back := by
  simp [rangesSize]

lemma Spaced.size_nonneg (spaced : Spaced gap ranges) : 0 ≤ rangesSize ranges := by
  induction ranges with
  | nil => rfl
  | cons range rest ih =>
    obtain ⟨filled, _, spacedRest⟩ := (spaced_cons range).mp spaced
    have := ih spacedRest
    rw [rangesSize_cons]
    omega

lemma Spaced.size_eq_zero (spaced : Spaced gap ranges) : rangesSize ranges = 0 ↔ ranges = [] := by
  constructor
  · intro none
    cases ranges with
    | nil => rfl
    | cons range rest =>
      obtain ⟨filled, _, spacedRest⟩ := (spaced_cons range).mp spaced
      have := spacedRest.size_nonneg
      rw [rangesSize_cons] at none
      omega
  · rintro rfl
    rfl

lemma finite_covered (ranges : List (Int × Int)) :
    {point | Covered ranges point}.Finite := by
  induction ranges with
  | nil => simp
  | cons range rest ih =>
    simp only [covered_cons]
    exact Set.Finite.union (Set.finite_Icc range.1 range.2) ih

/-- Ranges that do not overlap have as many points as their lengths add up to. -/
theorem ncard_covered (spaced : Spaced 0 ranges) :
    ({point | Covered ranges point}.ncard : Int) = rangesSize ranges := by
  induction ranges with
  | nil => simp
  | cons range rest ih =>
    obtain ⟨filled, above, spacedRest⟩ := (spaced_cons range).mp spaced
    have split : {point | Covered (range :: rest) point} =
        Set.Icc range.1 range.2 ∪ {point | Covered rest point} := by
      ext point
      simp
    have apart : Disjoint (Set.Icc range.1 range.2) {point | Covered rest point} := by
      apply Set.disjoint_left.mpr
      rintro point ⟨_, upper⟩ ⟨later, mem, lower, _⟩
      have := above later mem
      omega
    rw [split, Set.ncard_union_eq apart (Set.finite_Icc _ _) (finite_covered rest),
      ← Finset.coe_Icc, Set.ncard_coe_finset, Int.card_Icc, rangesSize_cons]
    push_cast
    rw [ih spacedRest]
    omega

section

variable (spaced : Spaced gap ranges) (gapped : 0 ≤ gap)
include spaced gapped

lemma Spaced.cut_upper (point : Int) :
    ∃ front back, ranges = front ++ back ∧ (∀ range ∈ front, range.2 < point) ∧
      ∀ range ∈ back, point ≤ range.2 := by
  induction ranges with
  | nil => exact ⟨[], [], rfl, by simp, by simp⟩
  | cons range rest ih =>
    obtain ⟨filled, above, spacedRest⟩ := (spaced_cons range).mp spaced
    by_cases below : range.2 < point
    · obtain ⟨front, back, rfl, inFront, inBack⟩ := ih spacedRest
      exact ⟨range :: front, back, rfl, forall_mem_cons.mpr ⟨below, inFront⟩, inBack⟩
    · refine ⟨[], range :: rest, rfl, by simp, ?_⟩
      rintro later (_ | ⟨_, mem⟩)
      · omega
      · have := above later mem
        have := spacedRest.1 later mem
        omega

lemma Spaced.cut_lower (point : Int) :
    ∃ front back, ranges = front ++ back ∧ (∀ range ∈ front, range.1 ≤ point) ∧
      ∀ range ∈ back, point < range.1 := by
  induction ranges with
  | nil => exact ⟨[], [], rfl, by simp, by simp⟩
  | cons range rest ih =>
    obtain ⟨filled, above, spacedRest⟩ := (spaced_cons range).mp spaced
    by_cases below : range.1 ≤ point
    · obtain ⟨front, back, rfl, inFront, inBack⟩ := ih spacedRest
      exact ⟨range :: front, back, rfl, forall_mem_cons.mpr ⟨below, inFront⟩, inBack⟩
    · refine ⟨[], range :: rest, rfl, by simp, ?_⟩
      rintro later (_ | ⟨_, mem⟩)
      · omega
      · have := above later mem
        omega

/-- Two points cut spaced ranges into those below, those that reach between them, and
those above. -/
theorem Spaced.cut (low high : Int) :
    ∃ front touched back, ranges = front ++ (touched ++ back) ∧
      (∀ range ∈ front, range.2 < low) ∧
      (∀ range ∈ touched, low ≤ range.2 ∧ range.1 ≤ high) ∧
      ∀ range ∈ back, high < range.1 := by
  obtain ⟨front, rest, rfl, below, others⟩ := spaced.cut_upper gapped low
  obtain ⟨touched, back, rfl, inside, above⟩ :=
    ((spaced_append.mp spaced).2.1).cut_lower gapped high
  refine ⟨front, touched, back, rfl, below, ?_, above⟩
  intro range mem
  exact ⟨others range (mem_append_left _ mem), inside range mem⟩

end

section Shift

/-- Both ends of a range moved by the same distance. -/
def shiftRange (offset : Int) (range : Int × Int) : Int × Int :=
  (range.1 + offset, range.2 + offset)

lemma covered_shift (ranges) (point : Int) :
    Covered (ranges.map (shiftRange offset)) point ↔ Covered ranges (point - offset) := by
  induction ranges with
  | nil => simp
  | cons range rest ih =>
    rw [map_cons, covered_cons, covered_cons, ih]
    apply or_congr_left
    simp only [shiftRange]
    omega

lemma spaced_shift : Spaced gap (ranges.map (shiftRange offset)) ↔ Spaced gap ranges := by
  induction ranges with
  | nil => simp
  | cons range rest ih =>
    rw [map_cons, spaced_cons, spaced_cons, ih, forall_mem_map]
    simp only [shiftRange, add_le_add_iff_right]
    apply and_congr_right
    intro _
    apply and_congr_left
    intro _
    apply forall_congr'
    intro later
    apply imp_congr_right
    intro _
    omega

lemma rangesSize_shift (ranges) :
    rangesSize (ranges.map (shiftRange offset)) = rangesSize ranges := by
  induction ranges with
  | nil => rfl
  | cons range rest ih =>
    rw [map_cons, rangesSize_cons, rangesSize_cons, ih]
    simp only [shiftRange]
    omega

end Shift

section Fuse

/-- The least range that holds the points from `low` to `high` and all of the ranges. -/
structure Hull (low high : Int) (touched : List (Int × Int)) (hull : Int × Int) : Prop where
  starts : hull.1 ≤ low ∧ ∀ range ∈ touched, hull.1 ≤ range.1
  startOf : hull.1 = low ∨ ∃ range ∈ touched, hull.1 = range.1
  stops : high ≤ hull.2 ∧ ∀ range ∈ touched, range.2 ≤ hull.2
  stopOf : hull.2 = high ∨ ∃ range ∈ touched, hull.2 = range.2

lemma Hull.inside_iff (is : Hull low high touched hull)
    (near : ∀ range ∈ touched, low ≤ range.2 + 1 ∧ range.1 ≤ high + 1) (point : Int) :
    (hull.1 ≤ point ∧ point ≤ hull.2) ↔
      Covered touched point ∨ (low ≤ point ∧ point ≤ high) := by
  constructor
  · rintro ⟨lower, upper⟩
    by_cases under : point < low
    · left
      rcases is.startOf with same | ⟨range, mem, same⟩
      · omega
      · have := near range mem
        exact ⟨range, mem, by omega, by omega⟩
    · by_cases upward : high < point
      · left
        rcases is.stopOf with same | ⟨range, mem, same⟩
        · omega
        · have := near range mem
          exact ⟨range, mem, by omega, by omega⟩
      · exact .inr ⟨by omega, by omega⟩
  · have starts := is.starts
    have stops := is.stops
    rintro (⟨range, mem, lower, upper⟩ | ⟨lower, upper⟩)
    · have := starts.2 range mem
      have := stops.2 range mem
      omega
    · omega

lemma hull_of_ends {first last : Int × Int} (spaced : Spaced 1 touched)
    (isFirst : touched.head? = some first) (isLast : touched.getLast? = some last) :
    Hull low high touched (min low first.1, max high last.2) := by
  have firstIn : first ∈ touched := mem_of_mem_head? isFirst
  have lastIn : last ∈ touched := mem_of_mem_getLast? isLast
  refine ⟨⟨min_le_left _ _, ?_⟩, ?_, ⟨le_max_left _ _, ?_⟩, ?_⟩
  · intro range mem
    obtain ⟨rest, rfl⟩ := head?_eq_some_iff.mp isFirst
    obtain ⟨filled, above, _⟩ := (spaced_cons first).mp spaced
    rcases mem_cons.mp mem with rfl | later
    · exact min_le_right _ _
    · have := above range later
      simp only [min_le_iff]
      omega
  · rcases min_choice low first.1 with same | same
    · exact .inl same
    · exact .inr ⟨first, firstIn, same⟩
  · intro range mem
    obtain ⟨init, rfl⟩ := getLast?_eq_some_iff.mp isLast
    obtain ⟨_, single, apart⟩ := spaced_append.mp spaced
    rcases mem_append.mp mem with earlier | isLast
    · have := apart range earlier last mem_cons_self
      have := single.1 last mem_cons_self
      simp only [le_max_iff]
      omega
    · rw [mem_singleton.mp isLast]
      exact le_max_right _ _
  · rcases max_choice high last.2 with same | same
    · exact .inl same
    · exact .inr ⟨last, lastIn, same⟩

lemma Spaced.fuse (spaced : Spaced 1 (front ++ (touched ++ back))) (ordered : low ≤ high)
    (below : ∀ range ∈ front, range.2 + 1 < low)
    (near : ∀ range ∈ touched, low ≤ range.2 + 1 ∧ range.1 ≤ high + 1)
    (above : ∀ range ∈ back, high + 1 < range.1) (is : Hull low high touched hull) :
    Spaced 1 (front ++ hull :: back) ∧
      ∀ point, Covered (front ++ hull :: back) point ↔
        Covered (front ++ (touched ++ back)) point ∨ (low ≤ point ∧ point ≤ high) := by
  obtain ⟨spacedFront, spacedRest, apart⟩ := spaced_append.mp spaced
  obtain ⟨_, spacedBack, apartBack⟩ := spaced_append.mp spacedRest
  have starts := is.starts
  have stops := is.stops
  constructor
  · refine spaced_append.mpr ⟨spacedFront, (spaced_cons hull).mpr ⟨by omega, ?_, spacedBack⟩, ?_⟩
    · intro later mem
      rcases is.stopOf with same | ⟨range, touching, same⟩
      · have := above later mem
        omega
      · have := apartBack range touching later mem
        omega
    · intro lower inFront upper mem
      rcases mem_cons.mp mem with rfl | inBack
      · rcases is.startOf with same | ⟨range, touching, same⟩
        · have := below lower inFront
          omega
        · have := apart lower inFront range (mem_append_left _ touching)
          omega
      · exact apart lower inFront upper (mem_append_right _ inBack)
  · intro point
    simp only [covered_append, covered_cons, is.inside_iff near point]
    tauto

end Fuse

section Carve

/-- What is left of a range without the points from `low` to `high`. -/
def outside (low high : Int) (range : Int × Int) : List (Int × Int) :=
  [(range.1, min range.2 (low - 1)), (max range.1 (high + 1), range.2)].filter
    fun part => part.1 ≤ part.2

/-- What is left of all ranges without the points from `low` to `high`. -/
def carve (low high : Int) (ranges : List (Int × Int)) : List (Int × Int) :=
  ranges.flatMap (outside low high)

lemma mem_outside {range part : Int × Int} :
    part ∈ outside low high range ↔
      part.1 ≤ part.2 ∧ (part = (range.1, min range.2 (low - 1)) ∨
        part = (max range.1 (high + 1), range.2)) := by
  simp [outside, and_comm]

lemma outside_within {range part : Int × Int} (mem : part ∈ outside low high range) :
    range.1 ≤ part.1 ∧ part.2 ≤ range.2 := by
  rcases (mem_outside.mp mem).2 with rfl | rfl
  · exact ⟨le_refl _, min_le_left _ _⟩
  · exact ⟨le_max_left _ _, le_refl _⟩

@[simp] lemma carve_nil : carve low high [] = [] := rfl

@[simp] lemma carve_cons (range : Int × Int) :
    carve low high (range :: ranges) = outside low high range ++ carve low high ranges := rfl

@[simp] lemma carve_append :
    carve low high (front ++ back) = carve low high front ++ carve low high back := by
  simp [carve]

lemma covered_outside (range : Int × Int) (point : Int) :
    Covered (outside low high range) point ↔
      (range.1 ≤ point ∧ point ≤ range.2) ∧ ¬ (low ≤ point ∧ point ≤ high) := by
  constructor
  · rintro ⟨part, mem, lower, upper⟩
    rcases (mem_outside.mp mem).2 with rfl | rfl
    · simp only [le_min_iff] at lower upper
      omega
    · simp only [max_le_iff] at lower upper
      omega
  · rintro ⟨⟨lower, upper⟩, notIn⟩
    by_cases under : point < low
    · refine ⟨(range.1, min range.2 (low - 1)), mem_outside.mpr ⟨?_, .inl rfl⟩, lower, ?_⟩
      · simp only [le_min_iff]
        omega
      · simp only [le_min_iff]
        omega
    · refine ⟨(max range.1 (high + 1), range.2), mem_outside.mpr ⟨?_, .inr rfl⟩, ?_, upper⟩
      · simp only [max_le_iff]
        omega
      · simp only [max_le_iff]
        omega

lemma covered_carve (ranges) (point : Int) :
    Covered (carve low high ranges) point ↔
      Covered ranges point ∧ ¬ (low ≤ point ∧ point ≤ high) := by
  induction ranges with
  | nil => simp
  | cons range rest ih =>
    simp only [carve_cons, covered_append, covered_cons, covered_outside, ih]
    tauto

lemma mem_carve (mem : part ∈ carve low high ranges) :
    ∃ range ∈ ranges, range.1 ≤ part.1 ∧ part.2 ≤ range.2 := by
  obtain ⟨range, inRanges, isPart⟩ := mem_flatMap.mp mem
  exact ⟨range, inRanges, outside_within isPart⟩

lemma spaced_outside (ordered : low ≤ high) (range : Int × Int) :
    Spaced 1 (outside low high range) := by
  constructor
  · intro part mem
    exact (mem_outside.mp mem).1
  · apply List.Pairwise.filter
    simp only [pairwise_cons, mem_singleton, forall_eq, not_mem_nil]
    refine ⟨?_, by simp⟩
    have := min_le_right range.2 (low - 1)
    have := le_max_right range.1 (high + 1)
    omega

lemma Spaced.carve (spaced : Spaced 1 ranges) (ordered : low ≤ high) :
    Spaced 1 (carve low high ranges) := by
  induction ranges with
  | nil => simp
  | cons range rest ih =>
    obtain ⟨_, above, spacedRest⟩ := (spaced_cons range).mp spaced
    refine spaced_append.mpr ⟨spaced_outside ordered range, ih spacedRest, ?_⟩
    intro lower inRange upper inRest
    obtain ⟨later, mem, starts, _⟩ := mem_carve inRest
    have := outside_within inRange
    have := above later mem
    omega

lemma carve_eq_self (filled : ∀ range ∈ ranges, range.1 ≤ range.2) (ordered : low ≤ high)
    (apart : ∀ range ∈ ranges, range.2 < low ∨ high < range.1) :
    carve low high ranges = ranges := by
  induction ranges with
  | nil => rfl
  | cons range rest ih =>
    obtain ⟨nonempty, filledRest⟩ := forall_mem_cons.mp filled
    obtain ⟨outer, apartRest⟩ := forall_mem_cons.mp apart
    have whole : outside low high range = [range] := by
      rcases outer with under | upward
      · have lower : min range.2 (low - 1) = range.2 := by omega
        have upper : ¬ max range.1 (high + 1) ≤ range.2 := by omega
        simp [outside, lower, upper, nonempty]
      · have lower : ¬ range.1 ≤ min range.2 (low - 1) := by omega
        have upper : max range.1 (high + 1) = range.1 := by omega
        simp only [outside, filter_cons, lower, upper, nonempty]
        simp
    rw [carve_cons, whole, ih filledRest apartRest]
    rfl

lemma carve_eq_nil
    (inside : ∀ range ∈ ranges, low ≤ range.1 ∧ range.2 ≤ high) :
    carve low high ranges = [] := by
  apply flatMap_eq_nil_iff.mpr
  intro range mem
  have := inside range mem
  apply eq_nil_iff_forall_not_mem.mpr
  intro part isPart
  obtain ⟨filled, rfl | rfl⟩ := mem_outside.mp isPart
  · simp only [le_min_iff] at filled
    omega
  · simp only [max_le_iff] at filled
    omega

lemma outside_near {range : Int × Int} (near : low ≤ range.2 ∧ range.1 ≤ high) :
    outside low high range =
      (if range.1 < low then [(range.1, low - 1)] else []) ++
        (if high < range.2 then [(high + 1, range.2)] else []) := by
  have lower : min range.2 (low - 1) = low - 1 := by omega
  have upper : max range.1 (high + 1) = high + 1 := by omega
  have startsBelow : range.1 ≤ low - 1 ↔ range.1 < low := by omega
  have stopsAbove : high + 1 ≤ range.2 ↔ high < range.2 := by omega
  simp only [outside, lower, upper, filter_cons, startsBelow, stopsAbove, decide_eq_true_eq,
    filter_nil]
  split <;> rfl

/-- Of ranges in order that reach into `low` to `high`, a part below the first and a part
above the last can be left. -/
theorem carve_near {first last : Int × Int} (spaced : Spaced 1 touched)
    (near : ∀ range ∈ touched, low ≤ range.2 ∧ range.1 ≤ high)
    (isFirst : touched.head? = some first) (isLast : touched.getLast? = some last) :
    carve low high touched =
      (if first.1 < low then [(first.1, low - 1)] else []) ++
        (if high < last.2 then [(high + 1, last.2)] else []) := by
  obtain ⟨rest, rfl⟩ := head?_eq_some_iff.mp isFirst
  obtain ⟨nearFirst, nearRest⟩ := forall_mem_cons.mp near
  obtain ⟨filled, above, spacedRest⟩ := (spaced_cons first).mp spaced
  rw [carve_cons, outside_near nearFirst]
  rcases eq_nil_or_concat rest with rfl | ⟨middle, final, rfl⟩
  · cases isLast
    exact append_nil _
  · rw [concat_eq_append, ← cons_append, getLast?_concat] at isLast
    cases isLast
    rw [concat_eq_append] at nearRest above spacedRest ⊢
    obtain ⟨_, _, beforeLast⟩ := spaced_append.mp spacedRest
    have nearLast := nearRest last (by simp)
    have aboveLast := above last (by simp)
    have inMiddle : ∀ range ∈ middle, low ≤ range.1 ∧ range.2 ≤ high := by
      intro range mem
      have := above range (mem_append_left _ mem)
      have := beforeLast range mem last mem_cons_self
      omega
    have firstStops : ¬ high < first.2 := by omega
    have lastStarts : ¬ last.1 < low := by omega
    rw [carve_append, carve_eq_nil inMiddle, carve_cons, outside_near nearLast]
    simp [firstStops, lastStarts]

end Carve

end CommCentral.Lib
