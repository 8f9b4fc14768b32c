import Mathlib.Tactic.Common

/-! The parents of the rows of an outline, and what a new row and raised levels do to them. -/
namespace CommCentral.Lib

variable {level before after : Nat → Nat} {row parent other index inserted first last : Nat}

/-- The parent of a row is the nearest row above it with a smaller level. -/
structure ParentRow (level : Nat → Nat) (row parent : Nat) : Prop where
  above : parent < row
  smaller : level parent < level row
  nearest : ∀ between, parent < between → between < row → level row ≤ level between

lemma exists_parentRow (above : other < row) (smaller : level other < level row) :
    ∃ parent, other ≤ parent ∧ ParentRow level row parent := by
  induction distance : row - other using Nat.strongRecOn generalizing other with
  | _ distance ih =>
    by_cases later : ∃ between, other < between ∧ between < row ∧ level between < level row
    · obtain ⟨between, below, aboveRow, smallerToo⟩ := later
      obtain ⟨parent, start, isParent⟩ := ih (row - between) (by omega) aboveRow smallerToo rfl
      exact ⟨parent, by omega, isParent⟩
    · refine ⟨other, Nat.le_refl _, above, smaller, fun between below aboveRow => ?_⟩
      by_contra smallerToo
      exact later ⟨between, below, aboveRow, Nat.not_le.mp smallerToo⟩

/-- Where a row is after another one was inserted. -/
def shiftRow (index row : Nat) : Nat := if row < index then row else row + 1

lemma shiftRow_lt_iff : shiftRow index row < shiftRow index other ↔ row < other := by
  unfold shiftRow
  split <;> split <;> omega

lemma exists_shiftRow (different : row ≠ index) : ∃ old, row = shiftRow index old := by
  by_cases below : row < index
  · exact ⟨row, (if_pos below).symm⟩
  · refine ⟨row - 1, ?_⟩
    unfold shiftRow
    split <;> omega

/-- Levels with those of a new row among them. -/
structure InsertedRow (before after : Nat → Nat) (index inserted : Nat) : Prop where
  new : after index = inserted
  old : ∀ row, after (shiftRow index row) = before row

/-- A row that gets a new row as its parent. -/
structure Captured (level : Nat → Nat) (index inserted row : Nat) : Prop where
  start : index ≤ row
  deeper : inserted < level row
  nearest : ∀ between, index ≤ between → between < row → level row ≤ level between

lemma InsertedRow.captured_iff (insertion : InsertedRow before after index inserted) :
    ParentRow after (shiftRow index row) index ↔ Captured before index inserted row := by
  constructor
  · rintro ⟨above, smaller, nearest⟩
    rw [insertion.new, insertion.old] at smaller
    have start : index ≤ row := by
      unfold shiftRow at above
      split at above <;> omega
    refine ⟨start, smaller, fun between after upTo => ?_⟩
    have below : index < shiftRow index between := by
      unfold shiftRow
      split <;> omega
    have far := nearest (shiftRow index between) below (shiftRow_lt_iff.mpr upTo)
    rwa [insertion.old, insertion.old] at far
  · rintro ⟨start, deeper, nearest⟩
    have above : index < shiftRow index row := by
      unfold shiftRow
      split <;> omega
    refine ⟨above, by rwa [insertion.new, insertion.old], fun between below upTo => ?_⟩
    obtain ⟨old, rfl⟩ := exists_shiftRow (Nat.ne_of_gt below)
    have after : index ≤ old := by
      unfold shiftRow at below
      split at below <;> omega
    rw [insertion.old, insertion.old]
    exact nearest old after (shiftRow_lt_iff.mp upTo)

lemma InsertedRow.parentRow_iff (insertion : InsertedRow before after index inserted)
    (free : ¬ Captured before index inserted row) :
    ParentRow after (shiftRow index row) (shiftRow index parent) ↔ ParentRow before row parent := by
  constructor
  · rintro ⟨above, smaller, nearest⟩
    rw [insertion.old, insertion.old] at smaller
    refine ⟨shiftRow_lt_iff.mp above, smaller, fun between below upTo => ?_⟩
    have far := nearest (shiftRow index between) (shiftRow_lt_iff.mpr below)
      (shiftRow_lt_iff.mpr upTo)
    rwa [insertion.old, insertion.old] at far
  · rintro ⟨above, smaller, nearest⟩
    refine ⟨shiftRow_lt_iff.mpr above, by rwa [insertion.old, insertion.old],
      fun between below upTo => ?_⟩
    rw [insertion.old]
    by_cases isNew : between = index
    · rw [isNew, insertion.new]
      by_contra smallerNew
      refine free ⟨?_, Nat.not_le.mp smallerNew, fun old start early => ?_⟩
      · rw [isNew] at upTo
        unfold shiftRow at upTo
        split at upTo <;> omega
      · rw [isNew] at below
        have after : parent < old := by
          unfold shiftRow at below
          split at below <;> omega
        exact nearest old after early
    · obtain ⟨old, rfl⟩ := exists_shiftRow isNew
      rw [insertion.old]
      exact nearest old (shiftRow_lt_iff.mp below) (shiftRow_lt_iff.mp upTo)

/-- A row was inserted: the rows that it adopts get it as their parent, and all others keep
theirs. -/
structure KeepsParents (before after : Nat → Nat) (index : Nat) (adopted : Nat → Prop) :
    Prop where
  others : ∀ row, ¬ adopted row → ¬ ParentRow after (shiftRow index row) index ∧
    ∀ parent, ParentRow after (shiftRow index row) (shiftRow index parent) ↔
      ParentRow before row parent
  children : ∀ row, adopted row → ParentRow after (shiftRow index row) index

/-- It is enough to know the parents of the rows that the new one does not get. -/
theorem KeepsParents.congr {others : Nat → Nat} {adopted : Nat → Prop}
    (keeps : KeepsParents before after index adopted)
    (gained : ParentRow after (shiftRow index row) index)
    (same : ∀ other parent, other ≠ row →
      (ParentRow before other parent ↔ ParentRow others other parent)) :
    KeepsParents others after index adopted := by
  refine ⟨fun other notAdopted => ?_, keeps.children⟩
  obtain ⟨free, parents⟩ := keeps.others other notAdopted
  have different : other ≠ row := by
    rintro rfl
    exact free gained
  exact ⟨free, fun parent => (parents parent).trans (same other parent different)⟩

lemma InsertedRow.keepsParents_iff {adopted : Nat → Prop}
    (insertion : InsertedRow before after index inserted) :
    KeepsParents before after index adopted ↔
      ∀ row, adopted row ↔ Captured before index inserted row := by
  constructor
  · intro keeps row
    constructor
    · intro isAdopted
      exact insertion.captured_iff.mp (keeps.children row isAdopted)
    · intro captured
      by_contra notAdopted
      exact (keeps.others row notAdopted).1 (insertion.captured_iff.mpr captured)
  · intro same
    refine ⟨fun row notAdopted => ?_, fun row isAdopted => ?_⟩
    · have free : ¬ Captured before index inserted row := fun captured =>
        notAdopted ((same row).mpr captured)
      exact ⟨fun isParent => free (insertion.captured_iff.mp isParent),
        fun parent => insertion.parentRow_iff free⟩
    · exact insertion.captured_iff.mpr ((same row).mp isAdopted)

/-- The levels of a row and of all rows below it are raised by one. -/
structure RaisedRows (before after : Nat → Nat) (first last : Nat) : Prop where
  ordered : first ≤ last
  raised : ∀ row, first ≤ row → row ≤ last → after row = before row + 1
  others : ∀ row, row < first ∨ last < row → after row = before row
  inside : ∀ row, first < row → row ≤ last → before first < before row
  beyond : before (last + 1) ≤ before first

variable (raise : RaisedRows before after first last)
include raise

lemma RaisedRows.parentRow_inside (below : first < row) (upTo : row ≤ last) :
    ParentRow after row parent ↔ ParentRow before row parent := by
  have rowRaised := raise.raised row (Nat.le_of_lt below) upTo
  have rowDeeper := raise.inside row below upTo
  have firstRaised := raise.raised first (Nat.le_refl _) raise.ordered
  constructor
  · rintro ⟨above, smaller, nearest⟩
    have start : first ≤ parent := by
      by_contra outside
      have := nearest first (by omega) below
      omega
    have parentRaised := raise.raised parent start (by omega)
    refine ⟨above, by omega, fun between past early => ?_⟩
    have := nearest between past early
    have := raise.raised between (by omega) (by omega)
    omega
  · rintro ⟨above, smaller, nearest⟩
    have start : first ≤ parent := by
      by_contra outside
      have := nearest first (by omega) below
      omega
    have parentRaised := raise.raised parent start (by omega)
    refine ⟨above, by omega, fun between past early => ?_⟩
    have := nearest between past early
    have := raise.raised between (by omega) (by omega)
    omega

lemma RaisedRows.level_le (after : last < row)
    (nearest : ∀ between, last < between → between < row → before row ≤ before between) :
    before row ≤ before first := by
  have next := raise.beyond
  by_cases same : row = last + 1
  · rw [same]
    exact next
  · exact Nat.le_trans (nearest (last + 1) (by omega) (by omega)) next

/-- No level gets smaller. -/
theorem RaisedRows.level_le_after (row : Nat) : before row ≤ after row := by
  by_cases inside : first ≤ row ∧ row ≤ last
  · have raised := raise.raised row inside.1 inside.2
    omega
  · exact Nat.le_of_eq (raise.others row (by omega)).symm

lemma RaisedRows.first_le (start : first ≤ row) (upTo : row ≤ last) :
    before first ≤ before row := by
  by_cases isFirst : row = first
  · exact Nat.le_of_eq (congrArg before isFirst.symm)
  · exact Nat.le_of_lt (raise.inside row (by omega) upTo)

lemma RaisedRows.parentRow_above (below : row < first) :
    ParentRow after row parent ↔ ParentRow before row parent := by
  have same (other : Nat) (upTo : other < first) : after other = before other :=
    raise.others other (.inl upTo)
  have rowSame := same row below
  constructor
  · rintro ⟨above, smaller, nearest⟩
    have parentSame := same parent (by omega)
    refine ⟨above, by omega, fun between past early => ?_⟩
    have deep := nearest between past early
    have betweenSame := same between (by omega)
    omega
  · rintro ⟨above, smaller, nearest⟩
    have parentSame := same parent (by omega)
    refine ⟨above, by omega, fun between past early => ?_⟩
    have deep := nearest between past early
    have betweenSame := same between (by omega)
    omega

lemma RaisedRows.parentRow_beyond (below : last < row) :
    ParentRow after row parent ↔ ParentRow before row parent := by
  have ordered := raise.ordered
  have rowSame := raise.others row (.inr below)
  constructor
  · rintro ⟨above, smaller, nearest⟩
    -- A raised row that is less deep now was so before, and so was the first of them.
    have shallow (upTo : parent ≤ last) : before row ≤ before first := by
      apply raise.level_le below
      intro between past early
      have deep := nearest between (by omega) early
      have betweenSame := raise.others between (.inr past)
      omega
    have grown := raise.level_le_after parent
    refine ⟨above, by omega, fun between past early => ?_⟩
    have deep := nearest between past early
    by_cases inside : first ≤ between ∧ between ≤ last
    · exact Nat.le_trans (shallow (by omega)) (raise.first_le inside.1 inside.2)
    · have betweenSame := raise.others between (by omega)
      omega
  · rintro ⟨above, smaller, nearest⟩
    have outside : ¬ (first ≤ parent ∧ parent ≤ last) := by
      intro inside
      have shallow := raise.level_le below fun between past early =>
        nearest between (by omega) early
      have deep := raise.first_le inside.1 inside.2
      omega
    have parentSame := raise.others parent (by omega)
    refine ⟨above, by omega, fun between past early => ?_⟩
    have deep := nearest between past early
    have grown := raise.level_le_after between
    omega

lemma RaisedRows.captured_iff (below : first < row) :
    Captured after first inserted row ↔ last < row ∧ Captured before first inserted row := by
  constructor
  · rintro ⟨start, deeper, nearest⟩
    have beyond : last < row := by
      by_contra inside
      have deep := nearest first (Nat.le_refl _) below
      have rowRaised := raise.raised row start (by omega)
      have firstRaised := raise.raised first (Nat.le_refl _) raise.ordered
      have rowDeeper := raise.inside row below (by omega)
      omega
    have rowSame := raise.others row (.inr beyond)
    have shallow : before row ≤ before first := by
      apply raise.level_le beyond
      intro between past early
      have ordered := raise.ordered
      have deep := nearest between (by omega) early
      have betweenSame := raise.others between (.inr past)
      omega
    refine ⟨beyond, start, by omega, fun between past early => ?_⟩
    by_cases inside : between ≤ last
    · exact Nat.le_trans shallow (raise.first_le past inside)
    · have deep := nearest between past early
      have betweenSame := raise.others between (by omega)
      omega
  · rintro ⟨beyond, start, deeper, nearest⟩
    have rowSame := raise.others row (.inr beyond)
    refine ⟨start, by omega, fun between past early => ?_⟩
    have deep := nearest between past early
    have grown := raise.level_le_after between
    omega

lemma RaisedRows.captured_first :
    Captured after first inserted first ↔ inserted ≤ before first := by
  have firstRaised := raise.raised first (Nat.le_refl _) raise.ordered
  constructor
  · rintro ⟨-, deeper, -⟩
    omega
  · intro atMost
    exact ⟨Nat.le_refl _, by omega, fun between past early => by omega⟩

lemma RaisedRows.keepsParents_iff {final : Nat → Nat} {adopted : Nat → Prop}
    (insertion : InsertedRow after final first inserted) (atMost : inserted ≤ before first) :
    KeepsParents before final first adopted ↔
      ∀ row, adopted row ↔ row = first ∨ last < row ∧ Captured before first inserted row := by
  have gained : ParentRow final (shiftRow first first) first :=
    insertion.captured_iff.mpr (raise.captured_first.mpr atMost)
  have captured_iff (row : Nat) : Captured after first inserted row ↔
      row = first ∨ last < row ∧ Captured before first inserted row := by
    rcases Nat.lt_trichotomy row first with above | same | below
    · constructor
      · intro captured
        exact absurd captured.start (Nat.not_le.mpr above)
      · rintro (same | ⟨-, captured⟩)
        · omega
        · exact absurd captured.start (Nat.not_le.mpr above)
    · rw [same]
      exact iff_of_true (raise.captured_first.mpr atMost) (.inl rfl)
    · rw [raise.captured_iff below]
      exact ⟨.inr, fun either => either.resolve_left (Nat.ne_of_gt below)⟩
  have unchanged (row parent : Nat) (notFirst : row ≠ first) :
      ParentRow after row parent ↔ ParentRow before row parent := by
    rcases Nat.lt_or_gt_of_ne notFirst with above | below
    · exact raise.parentRow_above above
    · by_cases inside : row ≤ last
      · exact raise.parentRow_inside below inside
      · exact raise.parentRow_beyond (Nat.not_le.mp inside)
  calc KeepsParents before final first adopted
    _ ↔ KeepsParents after final first adopted :=
      ⟨fun keeps => keeps.congr gained fun row parent notFirst =>
          (unchanged row parent notFirst).symm,
        fun keeps => keeps.congr gained unchanged⟩
    _ ↔ ∀ row, adopted row ↔ Captured after first inserted row := insertion.keepsParents_iff
    _ ↔ ∀ row, adopted row ↔ row = first ∨ last < row ∧ Captured before first inserted row :=
      forall_congr' fun row => iff_congr Iff.rfl (captured_iff row)

end CommCentral.Lib
