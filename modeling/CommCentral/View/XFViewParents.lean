import CommCentral.Lib.Decision
import CommCentral.Lib.OutlineParents
import CommCentral.View.XFViewRun
import Mathlib

/-! What a new message in a cross-folder thread does to the parents of the other rows. -/
namespace CommCentral.XFView

open Lib List

section

variable (env : XFViewEnv) (thread : XFViewThread) (newHdr : MsgHdr) (reparentChildren : Bool)
variable (parentIndex : Nat)

/-- The new header is the parent of the message of the row. -/
def IsChildRow (row : Nat) : Prop :=
  ∃ child, thread.childHdrAt env row = some child ∧ isHdrParentOf env newHdr child = true

/-- The new header has no parent in the thread, and is the parent of its root. -/
def Promotes : Prop :=
  findParent env thread newHdr newHdr.numReferences = none ∧ IsChildRow env thread newHdr 0

/-- The messages stay in their order, those that the new header is the parent of are displayed
below it, all others keep their displayed parents, and a new root raises all levels by one. -/
structure AddKeepsParents : Prop where
  messages : ∀ row,
    let (added, whereInserted, _) := addHdr env thread newHdr reparentChildren
    added.keys[shiftRow whereInserted row]? = thread.keys[row]? ∧
      added.folders[shiftRow whereInserted row]? = thread.folders[row]?
  parents :
    let (added, whereInserted, _) := addHdr env thread newHdr reparentChildren
    KeepsParents thread.levelAt added.levelAt whereInserted (IsChildRow env thread newHdr)
  raised : Promotes env thread newHdr → ∀ row < thread.keys.length,
    (addHdr env thread newHdr reparentChildren).1.levelAt (row + 1) = thread.levelAt row + 1

/-- The rows that the place of a new header below a parent makes its children are those of its
children. -/
structure SuitsChildren : Prop where
  /-- An adopted row is deeper than the parent, its subtree is not as deep as numbers of 8 bits
  go, and the rows after it that are deeper than the new header are its children. -/
  adopted : ∀ index, AdoptsFirst env thread newHdr reparentChildren parentIndex index →
    thread.levelAt parentIndex < thread.levelAt index ∧
      (∀ row, index ≤ row → row ≤ lastOfSubtree thread.levels index (thread.levelAt index) →
        thread.levelAt row < 255) ∧
      ∀ row, IsChildRow env thread newHdr row ↔ row = index ∨
        lastOfSubtree thread.levels index (thread.levelAt index) < row ∧
          Captured thread.levelAt index (thread.levelAt parentIndex + 1) row
  /-- The last row below the younger sibling is the only child, if there is such a row. -/
  sibling : ∀ index, PrecedesChosen env thread newHdr reparentChildren parentIndex index →
    ∀ row, IsChildRow env thread newHdr row ↔
      index < row ∧ row = lastOfSubtree thread.levels index (thread.levelAt index)
  last : (∀ index, InRun thread parentIndex index →
      ¬ Adopts env thread newHdr reparentChildren index ∧
        ¬ Precedes env thread newHdr parentIndex index) →
    ∀ row, ¬ IsChildRow env thread newHdr row

/-- A new header without a parent in the thread has no other child than the root, and it becomes
the root only of a thread of two levels. -/
structure SuitsParents : Prop where
  below : ∀ parent parentIndex, findParent env thread newHdr newHdr.numReferences =
    some (parent, parentIndex) → SuitsChildren env thread newHdr reparentChildren parentIndex
  promoted : Promotes env thread newHdr → ∀ row, 0 < row → row < thread.keys.length →
    thread.levelAt row = 1 ∧ ¬ IsChildRow env thread newHdr row
  appended : findParent env thread newHdr newHdr.numReferences = none →
    ¬ IsChildRow env thread newHdr 0 → ∀ row, ¬ IsChildRow env thread newHdr row

/-- A thread as calls leave it: its levels are those of an outline, and an array holds its
messages. -/
structure WellFormed (thread : XFViewThread) : Prop where
  sound : Sound thread
  outlined : WellOutlined thread
  short : thread.keys.length < 2 ^ 32

/-- All the places of a new header. -/
inductive AddPlaced : Placement → Prop
  | first (empty : thread.keys = []) : AddPlaced ⟨0, 0, thread.levels⟩
  | below {parent parentIndex placement}
    (found : findParent env thread newHdr newHdr.numReferences = some (parent, parentIndex))
    (placed : Placed env thread newHdr reparentChildren parentIndex placement) :
    AddPlaced placement
  | promoted (promotes : Promotes env thread newHdr) :
    AddPlaced ⟨0, 0, levelsBelowRoot thread.levels⟩
  | appended (notFound : findParent env thread newHdr newHdr.numReferences = none)
    (notRoot : ¬ IsChildRow env thread newHdr 0) :
    AddPlaced ⟨thread.keys.length, 1, thread.levels⟩

end

section Placing

variable {thread : XFViewThread}
variable {placement : Placement}

lemma IsChildRow.lt (isChild : IsChildRow env thread newHdr row) : row < thread.keys.length := by
  obtain ⟨child, found, -⟩ := isChild
  by_contra beyond
  rw [XFViewThread.childHdrAt, getElem?_eq_none (Nat.not_lt.mp beyond)] at found
  cases found

lemma isChildRow_iff : IsChildRow env thread newHdr row ↔
    (thread.childHdrAt env row).any (isHdrParentOf env newHdr) = true :=
  (Option.any_eq_true _ _).symm

lemma Placed.countHdr
    (placed : Placed env (thread.countHdr newHdr) newHdr reparentChildren parentIndex placement) :
    Placed env thread newHdr reparentChildren parentIndex placement := by
  cases placed with
  | adopted first => exact .adopted first
  | sibling chosen => exact .sibling chosen
  | last none => exact .last none

/-- A new header goes to one of the places, in a thread that the number of its messages fits. -/
theorem addHdr_placed (sound : Sound thread) (short : thread.keys.length < 2 ^ 32)
    (env : XFViewEnv) (newHdr : MsgHdr) (reparentChildren : Bool) :
    ∃ placement parent, AddPlaced env thread newHdr reparentChildren placement ∧
      addHdr env thread newHdr reparentChildren =
        ({ thread.countHdr newHdr with levels := placement.levels }.insertAt newHdr
          placement.insertIndex placement.insertLevel, placement.insertIndex, parent) := by
  rw [addHdr]
  dsimp only
  split
  · rename_i one
    refine ⟨⟨0, 0, thread.levels⟩, none, .first ?_, rfl⟩
    have counted : thread.numChildren + 1 = 1 := one
    rw [sound.counted] at counted
    have zero : UInt32.ofNat thread.keys.length = 0 := by
      have := congrArg (· - 1) counted
      simpa using this
    have none := congrArg UInt32.toNat zero
    rw [UInt32.toNat_ofNat', Nat.mod_eq_of_lt short] at none
    exact eq_nil_of_length_eq_zero none
  · rw [findParent_countHdr]
    split
    · rename_i parent parentIndex found
      exact ⟨_, some parent, .below found (addBelow_placed env (thread.countHdr newHdr) newHdr
        reparentChildren parentIndex).countHdr, rfl⟩
    · rename_i notFound
      rw [addAtRoot]
      split
      · rename_i isRoot
        exact ⟨⟨0, 0, levelsBelowRoot thread.levels⟩, none,
          .promoted ⟨notFound, isChildRow_iff.mpr isRoot⟩, rfl⟩
      · rename_i notRoot
        exact ⟨⟨thread.keys.length, 1, thread.levels⟩, _,
          .appended notFound fun isRoot => notRoot (isChildRow_iff.mp isRoot), rfl⟩

section Levels

variable {levels : List Nat}

variable (childLevel : Nat)

lemma getD_raiseWhile (levels) (row : Nat) :
    (raiseWhile childLevel levels).getD row 0 =
      if row < (levels.takeWhile (childLevel < ·)).length then (levels.getD row 0 + 1) % 256
      else levels.getD row 0 := by
  induction levels generalizing row with
  | nil => rfl
  | cons level rest ih =>
    rw [raiseWhile, takeWhile_cons]
    by_cases above : childLevel < level
    · rw [if_pos above, if_pos (decide_eq_true above)]
      cases row with
      | zero => rfl
      | succ row =>
        rw [getD_cons_succ, getD_cons_succ, ih, length_cons]
        simp only [Nat.add_lt_add_iff_right]
    · have none : ¬ row < ([] : List Nat).length := Nat.not_lt_zero row
      rw [if_neg above, if_neg fun deeper => above (of_decide_eq_true deeper), if_neg none]

lemma getD_length_takeWhile (levels : List Nat) :
    levels.getD (levels.takeWhile (childLevel < ·)).length 0 ≤ childLevel := by
  induction levels with
  | nil => exact Nat.zero_le _
  | cons level rest ih =>
    rw [takeWhile_cons]
    by_cases above : childLevel < level
    · rw [if_pos (decide_eq_true above)]
      exact ih
    · rw [if_neg fun deeper => above (of_decide_eq_true deeper)]
      exact Nat.not_lt.mp above

lemma getD_drop (levels : List Nat) (start row : Nat) :
    (levels.drop start).getD row 0 = levels.getD (start + row) 0 := by
  rw [getD_eq_getElem?_getD, getElem?_drop, ← getD_eq_getElem?_getD]

lemma getD_raised (within : index < thread.levels.length) (row : Nat) :
    (thread.levels.take index ++ raiseSubtree (thread.levels.drop index)).getD row 0 =
      if index ≤ row ∧ row ≤ lastOfSubtree thread.levels index (thread.levelAt index) then
        (thread.levelAt row + 1) % 256
      else thread.levelAt row := by
  have taken : (thread.levels.take index).length = index := length_take_of_le within.le
  rw [getD_eq_getElem?_getD]
  by_cases above : row < index
  · rw [getElem?_append_left (by omega), getElem?_take_of_lt above,
      if_neg (by omega)]
    rfl
  · obtain ⟨steps, rfl⟩ : ∃ steps, row = index + steps := ⟨row - index, by omega⟩
    rw [getElem?_append_right (by omega), taken, Nat.add_sub_cancel_left,
      drop_eq_getElem_cons within, getElem_levelAt within, raiseSubtree, lastOfSubtree,
      ← getD_eq_getElem?_getD]
    cases steps with
    | zero =>
      rw [if_pos (by omega)]
      rfl
    | succ steps =>
      rw [getD_cons_succ, getD_raiseWhile, getD_drop]
      have same : index + 1 + steps = index + (steps + 1) := by omega
      rw [same]
      exact if_congr (by omega) rfl rfl

lemma getElem?_shiftRow {α : Type} (list : List α) (item : α) (index row : Nat) :
    (list.insertIdx index item)[shiftRow index row]? = list[row]? := by
  by_cases above : row < index
  · rw [shiftRow, if_pos above, getElem?_insertIdx_of_lt above]
  · rw [shiftRow, if_neg above, getElem?_insertIdx_of_gt (by omega), Nat.add_sub_cancel]

lemma insertedRow_insertIdx (within : index ≤ levels.length) (level : Nat) :
    InsertedRow (levels.getD · 0) ((levels.insertIdx index level).getD · 0) index level := by
  constructor
  · rw [getD_eq_getElem?_getD, getElem?_insertIdx_self, if_pos within]
    rfl
  · intro row
    rw [getD_eq_getElem?_getD, getElem?_shiftRow, ← getD_eq_getElem?_getD]

lemma levelAt_zero (outline : Outline thread.levels) : thread.levelAt 0 = 0 := by
  cases rows : thread.levels with
  | nil => rw [XFViewThread.levelAt, rows, getD_nil]
  | cons root rest =>
    rw [rows] at outline
    rw [XFViewThread.levelAt, rows, getD_cons_zero]
    exact Nat.le_zero.mp outline.1

lemma levelAt_of_le (inStep : thread.InStep) (beyond : thread.keys.length ≤ row) :
    thread.levelAt row = 0 := by
  rw [← inStep.2] at beyond
  rw [XFViewThread.levelAt, getD_eq_default _ _ beyond]

lemma levelAt_byte (bytes : ∀ level ∈ thread.levels, level < 256) (row : Nat) :
    thread.levelAt row < 256 := by
  by_cases within : row < thread.levels.length
  · exact bytes _ (mem_of_getElem? (getElem?_levelAt within))
  · rw [XFViewThread.levelAt, getD_eq_default _ _ (Nat.not_lt.mp within)]
    decide

lemma captured_lt (inStep : thread.InStep)
    (captured : Captured thread.levelAt index inserted row) : row < thread.keys.length := by
  by_contra beyond
  have deeper := captured.deeper
  rw [levelAt_of_le inStep (Nat.not_lt.mp beyond)] at deeper
  exact Nat.not_lt_zero _ deeper

lemma lastOfSubtree_next (thread : XFViewThread) (index : Nat) :
    thread.levelAt (lastOfSubtree thread.levels index (thread.levelAt index) + 1) ≤
      thread.levelAt index := by
  have next := getD_length_takeWhile (thread.levelAt index) (thread.levels.drop (index + 1))
  rw [getD_drop] at next
  rw [lastOfSubtree, Nat.add_right_comm]
  exact next

lemma raisedRows (within : index < thread.levels.length)
    (shallow : ∀ row, index ≤ row →
      row ≤ lastOfSubtree thread.levels index (thread.levelAt index) → thread.levelAt row < 255) :
    RaisedRows thread.levelAt
      ((thread.levels.take index ++ raiseSubtree (thread.levels.drop index)).getD · 0) index
      (lastOfSubtree thread.levels index (thread.levelAt index)) := by
  obtain ⟨ordered, -, inside⟩ := lastOfSubtree_spec within (thread.levelAt index)
  refine ⟨ordered, ?_, ?_, inside, lastOfSubtree_next thread index⟩
  · intro row start upTo
    have bound := shallow row start upTo
    rw [getD_raised within, if_pos ⟨start, upTo⟩, Nat.mod_eq_of_lt (by omega)]
  · intro row outside
    rw [getD_raised within, if_neg (by omega)]

/-- Without a row as deep as numbers of 8 bits go, no level is lost. -/
theorem shallow_of_keepsParents {adopted : Nat → Prop} {after : Nat → Nat} {raised : Nat → Nat}
    (bytes : ∀ level ∈ thread.levels, level < 256) (outline : Outline thread.levels)
    (insertion : InsertedRow raised after index inserted)
    (wrapped : raised row = (thread.levelAt row + 1) % 256)
    (keeps : KeepsParents thread.levelAt after index adopted) : thread.levelAt row < 255 := by
  by_contra deep
  have byte := levelAt_byte bytes row
  have lost : after (shiftRow index row) = 0 := by
    rw [insertion.old, wrapped]
    omega
  have root := levelAt_zero outline
  have below : 0 < row := by
    apply Nat.pos_of_ne_zero
    rintro rfl
    omega
  have smaller : thread.levelAt 0 < thread.levelAt row := by omega
  obtain ⟨parent, -, isParent⟩ := exists_parentRow below smaller
  by_cases isAdopted : adopted row
  · have smaller := (keeps.children row isAdopted).smaller
    omega
  · have smaller := (((keeps.others row isAdopted).2 parent).mpr isParent).smaller
    omega

end Levels

/-- What the levels of a place do to the parents of the rows. -/
abbrev Placement.KeepsParents (env : XFViewEnv) (thread : XFViewThread) (newHdr : MsgHdr)
    (placement : Placement) : Prop :=
  Lib.KeepsParents thread.levelAt
    ((placement.levels.insertIdx placement.insertIndex (placement.insertLevel % 256)).getD · 0)
    placement.insertIndex (IsChildRow env thread newHdr)

section

variable (sound : Sound thread)
include sound

lemma AdoptsFirst.keepsParents_iff (outline : Outline thread.levels)
    (first : AdoptsFirst env thread newHdr reparentChildren parentIndex index) :
    Placement.KeepsParents env thread newHdr ⟨index, thread.levelAt parentIndex + 1,
        thread.levels.take index ++ raiseSubtree (thread.levels.drop index)⟩ ↔
      thread.levelAt parentIndex < thread.levelAt index ∧
        (∀ row, index ≤ row → row ≤ lastOfSubtree thread.levels index (thread.levelAt index) →
          thread.levelAt row < 255) ∧
        ∀ row, IsChildRow env thread newHdr row ↔ row = index ∨
          lastOfSubtree thread.levels index (thread.levelAt index) < row ∧
            Captured thread.levelAt index (thread.levelAt parentIndex + 1) row := by
  have within : index < thread.levels.length := by
    rw [sound.inStep.2]
    exact first.1.2.1
  have ordered := (lastOfSubtree_spec within (thread.levelAt index)).1
  have above := first.1.level_le first.1.1 (Nat.le_refl _)
  have fits : index ≤
      (thread.levels.take index ++ raiseSubtree (thread.levels.drop index)).length := by
    rw [length_append, length_take_of_le within.le]
    exact Nat.le_add_right _ _
  have insertion := insertedRow_insertIdx fits ((thread.levelAt parentIndex + 1) % 256)
  constructor
  · intro keeps
    have shallow : ∀ row, index ≤ row →
        row ≤ lastOfSubtree thread.levels index (thread.levelAt index) →
        thread.levelAt row < 255 := by
      intro row start upTo
      apply shallow_of_keepsParents sound.bytes outline insertion _ keeps
      rw [getD_raised within, if_pos ⟨start, upTo⟩]
    have here := shallow index (Nat.le_refl _) ordered
    have raise := raisedRows within shallow
    have inserted : (thread.levelAt parentIndex + 1) % 256 = thread.levelAt parentIndex + 1 :=
      Nat.mod_eq_of_lt (by omega)
    dsimp only [Placement.KeepsParents] at keeps
    rw [inserted] at insertion keeps
    have captured := insertion.captured_iff.mp (keeps.children index first.2.1.2)
    have deeper : thread.levelAt parentIndex < thread.levelAt index :=
      raise.captured_first.mp captured
    exact ⟨deeper, shallow, (raise.keepsParents_iff insertion deeper).mp keeps⟩
  · rintro ⟨deeper, shallow, children⟩
    have here := shallow index (Nat.le_refl _) ordered
    have raise := raisedRows within shallow
    have inserted : (thread.levelAt parentIndex + 1) % 256 = thread.levelAt parentIndex + 1 :=
      Nat.mod_eq_of_lt (by omega)
    dsimp only [Placement.KeepsParents]
    rw [inserted] at insertion ⊢
    exact (raise.keepsParents_iff insertion deeper).mpr children

lemma PrecedesChosen.keepsParents_iff
    (chosen : PrecedesChosen env thread newHdr reparentChildren parentIndex index) :
    Placement.KeepsParents env thread newHdr
        ⟨lastOfSubtree thread.levels index (thread.levelAt index), thread.levelAt index,
          thread.levels⟩ ↔
      ∀ row, IsChildRow env thread newHdr row ↔
        index < row ∧ row = lastOfSubtree thread.levels index (thread.levelAt index) := by
  have within : index < thread.levels.length := by
    rw [sound.inStep.2]
    exact chosen.1.2.1
  obtain ⟨start, last, inside⟩ := lastOfSubtree_spec within (thread.levelAt index)
  have next := lastOfSubtree_next thread index
  have insertion := insertedRow_insertIdx last.le (thread.levelAt index % 256)
  have captured_iff (row : Nat) : Captured thread.levelAt
      (lastOfSubtree thread.levels index (thread.levelAt index)) (thread.levelAt index % 256) row ↔
      index < row ∧ row = lastOfSubtree thread.levels index (thread.levelAt index) := by
    rw [Nat.mod_eq_of_lt (levelAt_byte sound.bytes index)]
    constructor
    · rintro ⟨upTo, deeper, nearest⟩
      rcases upTo.eq_or_lt with same | beyond
      · refine ⟨?_, same.symm⟩
        rcases start.eq_or_lt with single | below
        · rw [← same, ← single] at deeper
          exact absurd deeper (Nat.lt_irrefl _)
        · omega
      · -- The row after the subtree is not deeper than the younger sibling.
        have shallow : thread.levelAt row ≤ thread.levelAt index := by
          rcases (Nat.succ_le_of_lt beyond).eq_or_lt with same | later
          · rw [← same]
            exact next
          · exact (nearest _ (Nat.le_succ _) later).trans next
        exact absurd deeper (Nat.not_lt.mpr shallow)
    · rintro ⟨below, rfl⟩
      exact ⟨Nat.le_refl _, inside _ below (Nat.le_refl _),
        fun between past early => absurd early (Nat.not_lt.mpr past)⟩
  calc _ ↔ _ := insertion.keepsParents_iff
    _ ↔ _ := forall_congr' fun row => iff_congr Iff.rfl (captured_iff row)

/-- A row after all others has no children. -/
theorem keepsParents_last_iff (level : Nat) :
    Placement.KeepsParents env thread newHdr ⟨thread.keys.length, level, thread.levels⟩ ↔
      ∀ row, ¬ IsChildRow env thread newHdr row := by
  have insertion := insertedRow_insertIdx sound.inStep.2.ge (level % 256)
  have captured_iff (row : Nat) :
      Captured thread.levelAt thread.keys.length (level % 256) row ↔ False := by
    refine iff_false_intro fun captured => ?_
    exact absurd (captured_lt sound.inStep captured) (Nat.not_lt.mpr captured.start)
  calc _ ↔ _ := insertion.keepsParents_iff
    _ ↔ _ := forall_congr' fun row => (iff_congr Iff.rfl (captured_iff row)).trans
      (iff_of_eq (iff_false _))

lemma getD_levelsBelowRoot (outline : Outline thread.levels) (within : row < thread.keys.length) :
    (levelsBelowRoot thread.levels).getD row 0 = if row = 0 then 1 else 2 := by
  rw [← sound.inStep.2] at within
  cases rows : thread.levels with
  | nil =>
    rw [rows] at within
    cases within
  | cons root rest =>
    rw [rows] at within outline
    rw [levelsBelowRoot, Nat.le_zero.mp outline.1]
    cases row with
    | zero => rfl
    | succ row =>
      have short : row < rest.length := Nat.lt_of_succ_lt_succ within
      rw [getD_cons_succ, getD_eq_getElem?_getD, getElem?_map,
        getElem?_eq_getElem short, if_neg (Nat.succ_ne_zero row)]
      rfl

lemma raisedRows_promoted (outline : Outline thread.levels) (nonempty : 0 < thread.keys.length)
    (flat : ∀ row, 0 < row → row < thread.keys.length → thread.levelAt row = 1) :
    RaisedRows thread.levelAt ((levelsBelowRoot thread.levels).getD · 0) 0
      (thread.keys.length - 1) := by
  have root := levelAt_zero outline
  refine ⟨Nat.zero_le _, ?_, ?_, ?_, ?_⟩
  · intro row start upTo
    have within : row < thread.keys.length := by omega
    rw [getD_levelsBelowRoot sound outline within]
    by_cases isRoot : row = 0
    · rw [if_pos isRoot, isRoot, root]
    · rw [if_neg isRoot, flat row (Nat.pos_of_ne_zero isRoot) within]
  · intro row outside
    have beyond : thread.keys.length ≤ row := by omega
    have past : (levelsBelowRoot thread.levels).length ≤ row := by
      rw [length_levelsBelowRoot, sound.inStep.2]
      exact beyond
    rw [levelAt_of_le sound.inStep beyond]
    exact getD_eq_default _ _ past
  · intro row below upTo
    rw [root, flat row below (by omega)]
    decide
  · rw [levelAt_of_le sound.inStep (by omega)]
    exact Nat.zero_le _

lemma keepsParents_promoted_iff (outline : Outline thread.levels)
    (isRoot : IsChildRow env thread newHdr 0) :
    Placement.KeepsParents env thread newHdr ⟨0, 0, levelsBelowRoot thread.levels⟩ ∧
        (∀ row < thread.keys.length,
          ((levelsBelowRoot thread.levels).insertIdx 0 0).getD (row + 1) 0 =
            thread.levelAt row + 1) ↔
      ∀ row, 0 < row → row < thread.keys.length →
        thread.levelAt row = 1 ∧ ¬ IsChildRow env thread newHdr row := by
  have insertion := insertedRow_insertIdx (Nat.zero_le (levelsBelowRoot thread.levels).length) 0
  have children (flat : ∀ row, 0 < row → row < thread.keys.length → thread.levelAt row = 1) :
      Placement.KeepsParents env thread newHdr ⟨0, 0, levelsBelowRoot thread.levels⟩ ↔
        ∀ row, IsChildRow env thread newHdr row ↔ row = 0 ∨
          thread.keys.length - 1 < row ∧ Captured thread.levelAt 0 0 row :=
    (raisedRows_promoted sound outline isRoot.lt flat).keepsParents_iff insertion (Nat.zero_le _)
  constructor
  · rintro ⟨keeps, raised⟩
    have flat : ∀ row, 0 < row → row < thread.keys.length → thread.levelAt row = 1 := by
      intro row below within
      have two := raised row within
      rw [insertIdx_zero, getD_cons_succ, getD_levelsBelowRoot sound outline within,
        if_neg (Nat.ne_of_gt below)] at two
      omega
    intro row below within
    refine ⟨flat row below within, fun isChild => ?_⟩
    rcases ((children flat).mp keeps row).mp isChild with isFirst | ⟨beyond, -⟩
    · omega
    · omega
  · intro suits
    have flat : ∀ row, 0 < row → row < thread.keys.length → thread.levelAt row = 1 :=
      fun row below within => (suits row below within).1
    refine ⟨(children flat).mpr fun row => ?_, fun row within => ?_⟩
    · constructor
      · intro isChild
        by_cases below : 0 < row
        · exact absurd isChild (suits row below isChild.lt).2
        · exact .inl (Nat.eq_zero_of_not_pos below)
      · rintro (rfl | ⟨beyond, captured⟩)
        · exact isRoot
        · have within := captured_lt sound.inStep captured
          omega
    · rw [insertIdx_zero, getD_cons_succ]
      exact (raisedRows_promoted sound outline isRoot.lt flat).raised row (Nat.zero_le _) (by omega)

end

/-- A row is adopted first, or chosen as the younger sibling, in one case only. -/
theorem AdoptsFirst.suitsChildren_iff
    (first : AdoptsFirst env thread newHdr reparentChildren parentIndex index) :
    SuitsChildren env thread newHdr reparentChildren parentIndex ↔
      thread.levelAt parentIndex < thread.levelAt index ∧
        (∀ row, index ≤ row → row ≤ lastOfSubtree thread.levels index (thread.levelAt index) →
          thread.levelAt row < 255) ∧
        ∀ row, IsChildRow env thread newHdr row ↔ row = index ∨
          lastOfSubtree thread.levels index (thread.levelAt index) < row ∧
            Captured thread.levelAt index (thread.levelAt parentIndex + 1) row := by
  constructor
  · exact fun suits => suits.adopted index first
  · intro suits
    refine ⟨fun other otherFirst => ?_, fun other chosen => ?_, fun none => ?_⟩
    · have same : other = index := by
        rcases Nat.lt_trichotomy other index with before | same | after
        · exact absurd otherFirst.2.1 (first.2.2 other before otherFirst.1)
        · exact same
        · exact absurd first.2.1 (otherFirst.2.2 index after first.1)
      rw [same]
      exact suits
    · exact absurd first.2.1 (chosen.2.2.1 index first.1)
    · exact absurd first.2.1 (none index first.1).1

lemma PrecedesChosen.suitsChildren_iff
    (chosen : PrecedesChosen env thread newHdr reparentChildren parentIndex index) :
    SuitsChildren env thread newHdr reparentChildren parentIndex ↔
      ∀ row, IsChildRow env thread newHdr row ↔
        index < row ∧ row = lastOfSubtree thread.levels index (thread.levelAt index) := by
  constructor
  · exact fun suits => suits.sibling index chosen
  · intro suits
    refine ⟨fun other first => ?_, fun other otherChosen => ?_, fun none => ?_⟩
    · exact absurd first.2.1 (chosen.2.2.1 other first.1)
    · have before := chosen.2.2.2 other otherChosen.1 otherChosen.2.1
      have after := otherChosen.2.2.2 index chosen.1 chosen.2.1
      have same : other = index := by
        cases reparentChildren with
        | true => exact Nat.le_antisymm before after
        | false => exact Nat.le_antisymm after before
      rw [same]
      exact suits
    · exact absurd chosen.2.1 (none index chosen.1).2

lemma suitsChildren_last_iff (none : ∀ index, InRun thread parentIndex index →
      ¬ Adopts env thread newHdr reparentChildren index ∧
        ¬ Precedes env thread newHdr parentIndex index) :
    SuitsChildren env thread newHdr reparentChildren parentIndex ↔
      ∀ row, ¬ IsChildRow env thread newHdr row := by
  constructor
  · exact fun suits => suits.last none
  · intro suits
    refine ⟨fun other first => ?_, fun other chosen => ?_, fun _ => suits⟩
    · exact absurd first.2.1 (none other first.1).1
    · exact absurd chosen.2.1 (none other chosen.1).2

lemma Placed.keepsParents_iff (sound : Sound thread) (outline : Outline thread.levels)
    (placed : Placed env thread newHdr reparentChildren parentIndex placement) :
    placement.KeepsParents env thread newHdr ↔
      SuitsChildren env thread newHdr reparentChildren parentIndex := by
  cases placed with
  | adopted first => exact (first.keepsParents_iff sound outline).trans first.suitsChildren_iff.symm
  | sibling chosen => exact (chosen.keepsParents_iff sound).trans chosen.suitsChildren_iff.symm
  | last none => exact (keepsParents_last_iff sound _).trans (suitsChildren_last_iff none).symm

lemma addKeepsParents_iff (result : addHdr env thread newHdr reparentChildren = ({ thread.countHdr
      newHdr with levels := placement.levels }.insertAt newHdr placement.insertIndex
      placement.insertLevel, placement.insertIndex, parent)) :
    AddKeepsParents env thread newHdr reparentChildren ↔
      placement.KeepsParents env thread newHdr ∧
        (Promotes env thread newHdr → ∀ row < thread.keys.length,
          (placement.levels.insertIdx placement.insertIndex (placement.insertLevel % 256)).getD
            (row + 1) 0 = thread.levelAt row + 1) := by
  constructor
  · rintro ⟨-, parents, raised⟩
    rw [result] at parents raised
    exact ⟨parents, raised⟩
  · rintro ⟨parents, raised⟩
    refine ⟨?_, ?_, ?_⟩
    · rw [result]
      exact fun row => ⟨getElem?_shiftRow _ _ _ row, getElem?_shiftRow _ _ _ row⟩
    · rw [result]
      exact parents
    · rw [result]
      exact raised

lemma AddPlaced.keepsParents_iff (sound : Sound thread) (outline : Outline thread.levels)
    (placed : AddPlaced env thread newHdr reparentChildren placement) :
    placement.KeepsParents env thread newHdr ∧
        (Promotes env thread newHdr → ∀ row < thread.keys.length,
          (placement.levels.insertIdx placement.insertIndex (placement.insertLevel % 256)).getD
            (row + 1) 0 = thread.levelAt row + 1) ↔
      SuitsParents env thread newHdr reparentChildren := by
  cases placed with
  | first empty =>
    have length : thread.keys.length = 0 := length_eq_zero_iff.mpr empty
    have noChild (row : Nat) : ¬ IsChildRow env thread newHdr row := by
      intro isChild
      have within := isChild.lt
      omega
    have last := (keepsParents_last_iff sound 0).mpr noChild
    rw [length] at last
    refine iff_of_true ⟨last, fun promotes => absurd promotes.2 (noChild 0)⟩ ⟨?_, ?_, ?_⟩
    · intro parent parentIndex found
      have within := findParent_lt found
      omega
    · exact fun promotes => absurd promotes.2 (noChild 0)
    · exact fun _ _ => noChild
  | below found placed =>
    rw [placed.keepsParents_iff sound outline]
    have notPromoted : ¬ Promotes env thread newHdr := by
      rintro ⟨notFound, -⟩
      rw [found] at notFound
      cases notFound
    constructor
    · rintro ⟨suits, -⟩
      refine ⟨fun parent parentIndex foundToo => ?_, fun promotes => absurd promotes notPromoted,
        fun notFound => ?_⟩
      · rw [found] at foundToo
        cases foundToo
        exact suits
      · rw [found] at notFound
        cases notFound
    · exact fun suits => ⟨suits.below _ _ found, fun promotes => absurd promotes notPromoted⟩
  | promoted promotes =>
    have suits_iff := keepsParents_promoted_iff sound outline promotes.2
    constructor
    · rintro ⟨keeps, raised⟩
      refine ⟨fun parent parentIndex found => ?_, fun _ => suits_iff.mp ⟨keeps, raised promotes⟩,
        fun _ notRoot => absurd promotes.2 notRoot⟩
      rw [promotes.1] at found
      cases found
    · intro suits
      obtain ⟨keeps, raised⟩ := suits_iff.mpr (suits.promoted promotes)
      exact ⟨keeps, fun _ => raised⟩
  | appended notFound notRoot =>
    rw [keepsParents_last_iff sound]
    constructor
    · rintro ⟨noChild, -⟩
      refine ⟨fun parent parentIndex found => ?_, fun promotes => absurd promotes.2 notRoot,
        fun _ _ => noChild⟩
      rw [notFound] at found
      cases found
    · exact fun suits => ⟨suits.appended notFound notRoot,
        fun promotes => absurd promotes.2 notRoot⟩

/-- A new message leaves the others below their parents, and gets its own children below it, in
exactly the threads where its place suits them. -/
theorem addHdr_keepsParents_iff (wellFormed : WellFormed thread) (env : XFViewEnv)
    (newHdr : MsgHdr) (reparentChildren : Bool) :
    AddKeepsParents env thread newHdr reparentChildren ↔
      SuitsParents env thread newHdr reparentChildren := by
  have outline := (wellOutlined_iff.mp wellFormed.outlined).2
  obtain ⟨placement, parent, placed, result⟩ :=
    addHdr_placed wellFormed.sound wellFormed.short env newHdr reparentChildren
  exact (addKeepsParents_iff result).trans (placed.keepsParents_iff wellFormed.sound outline)

end Placing

lemma wellFormed_root : WellFormed (run XFViewThread.call {} (addBoth.take 1)) := by
  have sound := run_sound (addBoth.take 1)
  refine ⟨sound, wellOutlined_iff.mpr ⟨sound.inStep, ?_⟩, by decide⟩
  have levels : (run XFViewThread.call {} (addBoth.take 1)).levels = [0] := rfl
  rw [levels]
  exact ⟨Nat.le_refl 0, trivial⟩

/-- The reply goes below its parent. -/
theorem addHdr_keepsParents_reply :
    AddKeepsParents twoMessages (run XFViewThread.call {} (addBoth.take 1)) replyHdr false := by
  apply (addHdr_keepsParents_iff wellFormed_root _ _ _).mpr
  have noChild (row : Nat) :
      ¬ IsChildRow twoMessages (run XFViewThread.call {} (addBoth.take 1)) replyHdr row := by
    intro isChild
    have first : row = 0 := Nat.lt_one_iff.mp isChild.lt
    rw [first, isChildRow_iff] at isChild
    exact absurd isChild (by decide)
  refine ⟨fun parent parentIndex found => ?_, fun promotes => absurd promotes.2 (noChild 0),
    fun _ _ => noChild⟩
  have same : some (rootHdr, 0) = some (parent, parentIndex) := found
  cases same
  refine ⟨?_, ?_, fun _ => noChild⟩
  · rintro index ⟨-, ⟨reparent, -⟩, -⟩
    cases reparent
  · rintro index ⟨⟨-, below, -⟩, ⟨level, -⟩, -⟩
    have here : index = 0 := Nat.lt_one_iff.mp below
    rw [here] at level
    cases level

/-- A message with a reply, a reply to that and a reply to that one. -/
def chainHdr (number : Nat) (references : List MessageId) : MsgHdr :=
  { messageKey := number, folder := 0, dateInSeconds := number, flags := 0,
    messageId := [number.toUInt8], references := references }

def chain : List MsgHdr :=
  [chainHdr 1 [], chainHdr 2 [[1]], chainHdr 3 [[1], [2]], chainHdr 4 [[1], [2], [3]]]

def chainMessages : XFViewEnv where
  msgHdrFromHash messageId := chain.find? (·.messageId = messageId)
  msgHdrForKey folder key := chain.find? fun hdr => hdr.folder = folder ∧ hdr.messageKey = key

/-- The first message comes last, when its replies are already there. -/
def chainThread : XFViewThread :=
  run XFViewThread.call {} ((chain.drop 1).map fun hdr => .addHdr chainMessages hdr false)

/-- The new root puts the last reply on one level with the one it answers. -/
theorem addHdr_keepsParents_chain : WellFormed chainThread ∧
    ¬ AddKeepsParents chainMessages chainThread (chainHdr 1 []) false := by
  have levels : chainThread.levels = [0, 1, 2] := by decide +kernel
  have sound : Sound chainThread := run_sound _
  refine ⟨⟨sound, wellOutlined_iff.mpr ⟨sound.inStep, ?_⟩, by decide +kernel⟩, ?_⟩
  · rw [levels]
    decide
  · intro keeps
    have promotes : Promotes chainMessages chainThread (chainHdr 1 []) :=
      ⟨rfl, isChildRow_iff.mpr (by decide +kernel)⟩
    have raised := keeps.raised promotes 2 (by decide +kernel)
    exact absurd raised (by decide +kernel)

end CommCentral.XFView
