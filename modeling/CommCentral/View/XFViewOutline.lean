import CommCentral.Lib.Outline
import CommCentral.Lib.Run
import CommCentral.View.XFViewThread

/-! When the levels of a cross-folder thread stay the levels of an outline. -/
namespace CommCentral.XFView

open Lib List

/-- The three arrays have one length. -/
def XFViewThread.InStep (thread : XFViewThread) : Prop :=
  thread.folders.length = thread.keys.length ∧ thread.levels.length = thread.keys.length

section

variable (env : XFViewEnv) (thread : XFViewThread) (newHdr : MsgHdr) (reparentChildren : Bool)
variable (parentIndex : Nat)

/-- The rows that are looked at: from the parent on, up to one of a lower level. -/
def InRun (index : Nat) : Prop :=
  parentIndex ≤ index ∧ index < thread.keys.length ∧
    ∀ between, parentIndex < between → between ≤ index →
      thread.levelAt parentIndex ≤ thread.levelAt between

/-- The new header takes the row as its child. -/
def Adopts (index : Nat) : Prop :=
  reparentChildren = true ∧
    ∃ child, thread.childHdrAt env index = some child ∧ isHdrParentOf env newHdr child = true

/-- The row counts as a younger sibling of the new header. -/
def Precedes (index : Nat) : Prop :=
  thread.levelAt index = thread.levelAt parentIndex + 1 ∧
    ∃ child, thread.childHdrAt env index = some child ∧
      newHdr.dateInSeconds < child.dateInSeconds

/-- The first row of the run that the new header adopts. -/
def AdoptsFirst (index : Nat) : Prop :=
  InRun thread parentIndex index ∧ Adopts env thread newHdr reparentChildren index ∧
    ∀ earlier < index, InRun thread parentIndex earlier →
      ¬ Adopts env thread newHdr reparentChildren earlier

/-- The younger sibling that the new header goes to: the first one, or the last one of the run
where adopted children are looked for and there are none. -/
def PrecedesChosen (index : Nat) : Prop :=
  InRun thread parentIndex index ∧ Precedes env thread newHdr parentIndex index ∧
    (∀ other, InRun thread parentIndex other →
      ¬ Adopts env thread newHdr reparentChildren other) ∧
    ∀ other, InRun thread parentIndex other → Precedes env thread newHdr parentIndex other →
      if reparentChildren then other ≤ index else index ≤ other

/-- The place of a new header below a parent suits its level. -/
structure SuitsParent : Prop where
  /-- An adopted row is at most one level below the parent, no row of its subtree is as deep as
  numbers of 8 bits go, and if it is the parent itself, the row above is as deep as that. -/
  adopted : ∀ index, AdoptsFirst env thread newHdr reparentChildren parentIndex index →
    thread.levelAt index ≤ thread.levelAt parentIndex + 1 ∧
      (∀ row, index ≤ row → row ≤ lastOfSubtree thread.levels index (thread.levelAt index) →
        thread.levelAt row < 255) ∧
      (index = parentIndex → ∃ above, parentIndex = above + 1 ∧
        thread.levelAt parentIndex ≤ thread.levelAt above)
  /-- The last row below the younger sibling is its child, if there is one. -/
  sibling : ∀ index, PrecedesChosen env thread newHdr reparentChildren parentIndex index →
    thread.levelAt (lastOfSubtree thread.levels index (thread.levelAt index)) ≤
      thread.levelAt parentIndex + 2
  /-- Without an adopted row or a younger sibling, the last row of the thread is as deep as the
  parent. -/
  last : (∀ index, InRun thread parentIndex index →
      ¬ Adopts env thread newHdr reparentChildren index ∧
        ¬ Precedes env thread newHdr parentIndex index) →
    thread.levelAt parentIndex ≤ thread.levelAt (thread.keys.length - 1)

end

/-- The place of a new header suits its level, if it has a parent in the thread. -/
def SuitsAdd (env : XFViewEnv) (thread : XFViewThread) (newHdr : MsgHdr)
    (reparentChildren : Bool) : Prop :=
  ∀ parent parentIndex, findParent env thread newHdr newHdr.numReferences =
    some (parent, parentIndex) → SuitsParent env thread newHdr reparentChildren parentIndex

/-- The row after the removed one fits to the row before it. Its level is lowered if it is
above the low byte of the key of the removed message. -/
def SuitsRemove (thread : XFViewThread) (child : MsgHdr) : Prop :=
  ∀ index, thread.hdrIndex child = some index →
    ∀ next ∈ (thread.levels.drop (index + 1)).head?,
      (if child.messageKey % 256 < next then next - 1 else next) ≤
        limitAfter 0 (thread.levels.take index)

def Suits (thread : XFViewThread) : XFViewCall → Prop
  | .addHdr env newHdr reparentChildren => SuitsAdd env thread newHdr reparentChildren
  | .removeChildHdr child => SuitsRemove thread child

section

lemma length_raiseWhile (childLevel : Nat) (levels) :
    (raiseWhile childLevel levels).length = levels.length := by
  induction levels with
  | nil => rfl
  | cons level rest ih =>
    rw [raiseWhile]
    split
    · exact congrArg (· + 1) ih
    · rfl

lemma length_raiseSubtree (levels) : (raiseSubtree levels).length = levels.length := by
  cases levels with
  | nil => rfl
  | cons childLevel rest => exact congrArg (· + 1) (length_raiseWhile childLevel rest)

lemma length_lowerWhile (levelRemoved : Nat) (levels) :
    (lowerWhile levelRemoved levels).length = levels.length := by
  induction levels with
  | nil => rfl
  | cons level rest ih =>
    rw [lowerWhile]
    split
    · exact congrArg (· + 1) ih
    · rfl

lemma length_levelsBelowRoot (levels) : (levelsBelowRoot levels).length = levels.length := by
  cases levels with
  | nil => rfl
  | cons rootLevel rest => exact congrArg (· + 1) (length_map _)

lemma outline_raiseWhile (outline : OutlineFrom limit levels)
    (shallow : ∀ level ∈ levels.takeWhile (childLevel < ·), level < 255) :
    OutlineFrom (limit + 1) (raiseWhile childLevel levels) := by
  induction levels generalizing limit with
  | nil => trivial
  | cons level rest ih =>
    rw [raiseWhile]
    split
    · rename_i above
      rw [takeWhile_cons, if_pos (decide_eq_true above)] at shallow
      have bound := shallow level mem_cons_self
      rw [Nat.mod_eq_of_lt (by omega)]
      exact ⟨Nat.succ_le_succ outline.1,
        ih outline.2 fun later mem => shallow later (mem_cons_of_mem _ mem)⟩
    · exact ⟨outline.1.trans (Nat.le_succ _), outline.2⟩

lemma outline_lowerWhile (outline : OutlineFrom limit levels)
    (fits : ∀ next ∈ levels.head?, (if levelRemoved < next then next - 1 else next) ≤ higher) :
    OutlineFrom higher (lowerWhile levelRemoved levels) := by
  induction levels generalizing limit higher with
  | nil => trivial
  | cons level rest ih =>
    have first := fits level rfl
    rw [lowerWhile]
    split
    · rename_i above
      rw [if_pos above] at first
      refine ⟨first, ih outline.2 ?_⟩
      intro next head
      cases rest with
      | nil => cases head
      | cons second others =>
        cases head
        have bound := outline.2.1
        split
        · omega
        · omega
    · rename_i below
      rw [if_neg below] at first
      exact ⟨first, outline.2⟩

lemma outline_levelsBelowRoot (levels : List Nat) (outline : Outline levels) :
    OutlineFrom 1 (levelsBelowRoot levels) := by
  cases levels with
  | nil => trivial
  | cons rootLevel rest =>
    have root : rootLevel = 0 := Nat.le_zero.mp outline.1
    have flat : ∀ count : List Nat, OutlineFrom 2 (count.map fun _ => 2) ∧
        OutlineFrom 3 (count.map fun _ => 2) := by
      intro count
      induction count with
      | nil => exact ⟨trivial, trivial⟩
      | cons first count ih => exact ⟨⟨le_refl _, ih.2⟩, ⟨Nat.le_succ _, ih.2⟩⟩
    rw [levelsBelowRoot, root]
    exact ⟨le_refl _, (flat rest).1⟩

end

section Scan

/-- What the loop has found before a row. -/
structure Scanned (env : XFViewEnv) (thread : XFViewThread) (newHdr : MsgHdr)
    (reparentChildren : Bool) (parentIndex i insertIndex insertLevel : Nat) : Prop where
  start : parentIndex ≤ i
  inRun : ∀ earlier, parentIndex ≤ earlier → earlier < i → InRun thread parentIndex earlier
  notAdopted : ∀ earlier < i, InRun thread parentIndex earlier →
    ¬ Adopts env thread newHdr reparentChildren earlier
  place : (insertIndex = thread.keys.length ∧ insertLevel = thread.levelAt parentIndex + 1 ∧
      ∀ earlier < i, InRun thread parentIndex earlier →
        ¬ Precedes env thread newHdr parentIndex earlier) ∨
    reparentChildren = true ∧ ∃ sibling < i, InRun thread parentIndex sibling ∧
      Precedes env thread newHdr parentIndex sibling ∧
      insertIndex = lastOfSubtree thread.levels sibling (thread.levelAt sibling) ∧
      insertLevel = thread.levelAt sibling ∧
      ∀ earlier < i, InRun thread parentIndex earlier →
        Precedes env thread newHdr parentIndex earlier → earlier ≤ sibling

/-- Where a new header with a parent goes. -/
inductive Placed (env : XFViewEnv) (thread : XFViewThread) (newHdr : MsgHdr)
    (reparentChildren : Bool) (parentIndex : Nat) : Placement → Prop
  | adopted {index} (first : AdoptsFirst env thread newHdr reparentChildren parentIndex index) :
    Placed env thread newHdr reparentChildren parentIndex ⟨index, thread.levelAt parentIndex + 1,
      thread.levels.take index ++ raiseSubtree (thread.levels.drop index)⟩
  | sibling {index} (chosen : PrecedesChosen env thread newHdr reparentChildren parentIndex index) :
    Placed env thread newHdr reparentChildren parentIndex
      ⟨lastOfSubtree thread.levels index (thread.levelAt index), thread.levelAt index, thread.levels⟩
  | last (none : ∀ index, InRun thread parentIndex index →
      ¬ Adopts env thread newHdr reparentChildren index ∧
        ¬ Precedes env thread newHdr parentIndex index) :
    Placed env thread newHdr reparentChildren parentIndex
      ⟨thread.keys.length, thread.levelAt parentIndex + 1, thread.levels⟩

variable {i insertIndex insertLevel : Nat}

section

variable
  (scanned : Scanned env thread newHdr reparentChildren parentIndex i insertIndex insertLevel)
include scanned

lemma Scanned.inRun_at (more : i < thread.keys.length ∧ (i = parentIndex ∨ thread.levelAt
      parentIndex ≤ thread.levelAt i)) : InRun thread parentIndex i := by
  refine ⟨scanned.start, more.1, ?_⟩
  intro between after upTo
  by_cases last : between = i
  · rw [last] at after ⊢
    exact more.2.resolve_left (Nat.ne_of_gt after)
  · exact (scanned.inRun between (by omega) (by omega)).2.2 between after (le_refl _)

lemma Scanned.place_at_end (ended : ∀ later, i ≤ later → ¬ InRun thread parentIndex later) :
    Placed env thread newHdr reparentChildren parentIndex
      ⟨insertIndex, insertLevel, thread.levels⟩ := by
  have within (index : Nat) (inRun : InRun thread parentIndex index) : index < i := by
    by_contra beyond
    exact ended index (Nat.not_lt.mp beyond) inRun
  rcases scanned.place with ⟨rfl, rfl, none⟩ | ⟨reparent, sibling, below, inRun, precedes, rfl, rfl,
    last⟩
  · exact .last fun index inRun =>
      ⟨scanned.notAdopted index (within index inRun) inRun, none index (within index inRun) inRun⟩
  · refine .sibling ⟨inRun, precedes, ?_, ?_⟩
    · exact fun other inRun => scanned.notAdopted other (within other inRun) inRun
    · intro other inRun precedes
      rw [if_pos reparent]
      exact last other (within other inRun) inRun precedes

section

variable (inRun : InRun thread parentIndex i)
  (notAdopted : ¬ Adopts env thread newHdr reparentChildren i)
include inRun notAdopted

/-- One more row that is neither adopted nor a younger sibling. -/
theorem Scanned.skip (notPrecedes : ¬ Precedes env thread newHdr parentIndex i) :
    Scanned env thread newHdr reparentChildren parentIndex (i + 1) insertIndex insertLevel := by
  have before {earlier : Nat} (upTo : earlier < i + 1) : earlier < i ∨ earlier = i := by omega
  refine ⟨scanned.start.trans (Nat.le_succ _), ?_, ?_, ?_⟩
  · intro earlier start upTo
    cases before upTo with
    | inl below => exact scanned.inRun earlier start below
    | inr here =>
      rw [here]
      exact inRun
  · intro earlier upTo
    cases before upTo with
    | inl below => exact scanned.notAdopted earlier below
    | inr here =>
      rw [here]
      exact fun _ => notAdopted
  · rcases scanned.place with ⟨index, level, none⟩ | ⟨reparent, sibling, below, rest⟩
    · refine .inl ⟨index, level, ?_⟩
      intro earlier upTo
      cases before upTo with
      | inl below => exact none earlier below
      | inr here =>
        rw [here]
        exact fun _ => notPrecedes
    · refine .inr ⟨reparent, sibling, below.trans (Nat.lt_succ_self _), rest.1, rest.2.1,
        rest.2.2.1, rest.2.2.2.1, ?_⟩
      intro earlier upTo
      cases before upTo with
      | inl below => exact rest.2.2.2.2 earlier below
      | inr here =>
        rw [here]
        exact fun _ precedes => absurd precedes notPrecedes

lemma Scanned.sibling (precedes : Precedes env thread newHdr parentIndex i)
    (reparent : reparentChildren = true) :
    Scanned env thread newHdr reparentChildren parentIndex (i + 1)
      (lastOfSubtree thread.levels i (thread.levelAt i)) (thread.levelAt i) := by
  have before {earlier : Nat} (upTo : earlier < i + 1) : earlier < i ∨ earlier = i := by omega
  refine ⟨scanned.start.trans (Nat.le_succ _), ?_, ?_, ?_⟩
  · intro earlier start upTo
    cases before upTo with
    | inl below => exact scanned.inRun earlier start below
    | inr here =>
      rw [here]
      exact inRun
  · intro earlier upTo
    cases before upTo with
    | inl below => exact scanned.notAdopted earlier below
    | inr here =>
      rw [here]
      exact fun _ => notAdopted
  · exact .inr ⟨reparent, i, Nat.lt_succ_self _, inRun, precedes, rfl, rfl,
      fun earlier upTo _ _ => Nat.le_of_lt_succ upTo⟩

end

end

lemma scanChildren_placed {steps i insertIndex insertLevel : Nat}
    (scanned : Scanned env thread newHdr reparentChildren parentIndex i insertIndex insertLevel)
    (enough : thread.keys.length ≤ i + steps) :
    Placed env thread newHdr reparentChildren parentIndex
      (scanChildren env thread newHdr reparentChildren parentIndex
        (thread.levelAt parentIndex) steps i insertIndex insertLevel) := by
  induction steps generalizing i insertIndex insertLevel with
  | zero =>
    apply scanned.place_at_end
    intro later after inRun
    exact absurd inRun.2.1 (by omega)
  | succ steps ih =>
    have rest : thread.keys.length ≤ i + 1 + steps := by omega
    rw [scanChildren]
    split
    · rename_i more
      have inRun := scanned.inRun_at more
      split
      · rename_i missing
        refine ih (scanned.skip inRun ?_ ?_) rest
        · rintro ⟨-, child, found, -⟩
          rw [missing] at found
          cases found
        · rintro ⟨-, child, found, -⟩
          rw [missing] at found
          cases found
      · rename_i child found
        split
        · rename_i adopts
          have level : insertLevel = thread.levelAt parentIndex + 1 := by
            rcases scanned.place with ⟨-, level, -⟩ | ⟨-, sibling, -, -, precedes, -, level, -⟩
            · exact level
            · rw [level]
              exact precedes.1
          rw [level]
          exact .adopted ⟨inRun, ⟨adopts.1, child, found, adopts.2⟩, scanned.notAdopted⟩
        · rename_i adoptsNot
          have notAdopted : ¬ Adopts env thread newHdr reparentChildren i := by
            rintro ⟨reparent, other, same, isParent⟩
            rw [found] at same
            cases same
            exact adoptsNot ⟨reparent, isParent⟩
          split
          · rename_i younger
            have precedes : Precedes env thread newHdr parentIndex i :=
              ⟨younger.1, child, found, younger.2⟩
            cases reparentChildren with
            | true => exact ih (scanned.sibling inRun notAdopted precedes rfl) rest
            | false =>
              refine .sibling ⟨inRun, precedes, ?_, ?_⟩
              · rintro other - ⟨reparent, -⟩
                cases reparent
              · intro other otherInRun otherPrecedes
                rw [if_neg Bool.false_ne_true]
                by_contra earlier
                rcases scanned.place with ⟨-, -, none⟩ | ⟨reparent, -⟩
                · exact none other (Nat.not_le.mp earlier) otherInRun otherPrecedes
                · cases reparent
          · rename_i notYounger
            refine ih (scanned.skip inRun notAdopted ?_) rest
            rintro ⟨level, other, same, younger⟩
            rw [found] at same
            cases same
            exact notYounger ⟨level, younger⟩
    · rename_i ended
      apply scanned.place_at_end
      intro later after inRun
      apply ended
      refine ⟨lt_of_le_of_lt after inRun.2.1, ?_⟩
      by_cases first : i = parentIndex
      · exact .inl first
      · exact .inr (inRun.2.2 i (lt_of_le_of_ne scanned.start (Ne.symm first)) after)

lemma addBelow_placed (env : XFViewEnv) (thread : XFViewThread) (newHdr : MsgHdr)
    (reparentChildren : Bool) (parentIndex : Nat) :
    Placed env thread newHdr reparentChildren parentIndex
      (scanChildren env thread newHdr reparentChildren parentIndex (thread.levelAt parentIndex)
        (thread.keys.length - parentIndex) parentIndex thread.keys.length
        (thread.levelAt parentIndex + 1)) := by
  apply scanChildren_placed
  · refine ⟨le_refl _, fun earlier start upTo => absurd start (Nat.not_le.mpr upTo), ?_,
      .inl ⟨rfl, rfl, ?_⟩⟩
    · intro earlier upTo inRun
      exact absurd inRun.1 (Nat.not_le.mpr upTo)
    · intro earlier upTo inRun
      exact absurd inRun.1 (Nat.not_le.mpr upTo)
  · omega

end Scan

end CommCentral.XFView
