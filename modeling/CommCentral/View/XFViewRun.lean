import Mathlib.Data.List.InsertIdx
import Mathlib.Data.List.TakeWhile
import CommCentral.Lib.ArrayShift
import CommCentral.View.XFViewOutline

/-! Runs of a cross-folder thread: the arrays stay in step, and the levels stay those of an
outline while every message goes to a place that suits its level. -/
namespace CommCentral.XFView

open Lib List

/-- What holds of every thread, whatever is added and removed. -/
structure Sound (thread : XFViewThread) : Prop where
  inStep : thread.InStep
  bytes : ∀ level ∈ thread.levels, level < 256
  counted : thread.numChildren = UInt32.ofNat thread.keys.length

lemma insertIdx_take {α : Type} {list : List α} (item : α) (within : index ≤ list.length) :
    list.insertIdx index item = list.take index ++ item :: list.drop index := by
  have inserted := insertIdx_append (list.take index) (list.drop index) item
  rw [take_append_drop, length_take_of_le within] at inserted
  exact inserted

lemma raiseWhile_bytes (bytes : ∀ level ∈ levels, level < 256)
    (childLevel : Nat) : ∀ level ∈ raiseWhile childLevel levels, level < 256 := by
  induction levels with
  | nil => exact bytes
  | cons first rest ih =>
    have later := ih fun level mem => bytes level (mem_cons_of_mem _ mem)
    rw [raiseWhile]
    split
    · intro level mem
      cases mem_cons.mp mem with
      | inl here =>
        rw [here]
        exact Nat.mod_lt _ (by decide)
      | inr there => exact later level there
    · exact bytes

lemma raiseSubtree_bytes (bytes : ∀ level ∈ levels, level < 256) :
    ∀ level ∈ raiseSubtree levels, level < 256 := by
  cases levels with
  | nil => exact bytes
  | cons first rest =>
    intro level mem
    cases mem_cons.mp mem with
    | inl here =>
      rw [here]
      exact Nat.mod_lt _ (by decide)
    | inr there =>
      exact raiseWhile_bytes (fun level mem => bytes level (mem_cons_of_mem _ mem)) first
        level there

lemma lowerWhile_bytes (bytes : ∀ level ∈ levels, level < 256)
    (levelRemoved : Nat) : ∀ level ∈ lowerWhile levelRemoved levels, level < 256 := by
  induction levels with
  | nil => exact bytes
  | cons first rest ih =>
    have later := ih fun level mem => bytes level (mem_cons_of_mem _ mem)
    have here := bytes first mem_cons_self
    rw [lowerWhile]
    split
    · intro level mem
      cases mem_cons.mp mem with
      | inl same => omega
      | inr there => exact later level there
    · exact bytes

lemma levelsBelowRoot_bytes (levels) : ∀ level ∈ levelsBelowRoot levels, level < 256 := by
  cases levels with
  | nil =>
    intro level mem
    cases mem
  | cons first rest =>
    intro level mem
    cases mem_cons.mp mem with
    | inl here =>
      rw [here]
      exact Nat.mod_lt _ (by decide)
    | inr there =>
      obtain ⟨other, -, rfl⟩ := mem_map.mp there
      exact Nat.mod_lt _ (by decide)

variable {thread : XFViewThread}

lemma getElem_levelAt (within : index < thread.levels.length) :
    thread.levels[index] = thread.levelAt index := by
  rw [XFViewThread.levelAt, getD_eq_getElem?_getD, getElem?_eq_getElem within]
  rfl

lemma getElem?_levelAt (within : index < thread.levels.length) :
    thread.levels[index]? = some (thread.levelAt index) := by
  rw [getElem?_eq_getElem within, getElem_levelAt within]

lemma hdrIndex_lt (found : thread.hdrIndex hdr = some index) : index < thread.keys.length := by
  have below := (findIdx?_eq_some_iff_getElem.mp found).1
  rw [length_zip] at below
  exact below.trans_le (Nat.min_le_left _ _)

lemma findParent_lt {parentIndex count : Nat}
    (found : findParent env thread newHdr count = some (parent, parentIndex)) :
    parentIndex < thread.keys.length := by
  induction count with
  | zero => cases found
  | succ index ih =>
    rw [findParent] at found
    split at found
    · cases found
    · split at found
      · obtain ⟨row, ofParent, same⟩ := Option.map_eq_some_iff.mp found
        cases same
        exact hdrIndex_lt ofParent
      · exact ih found

section

lemma lastOfSubtree_spec (within : index < thread.levels.length) (level : Nat) :
    index ≤ lastOfSubtree thread.levels index level ∧
      lastOfSubtree thread.levels index level < thread.levels.length ∧
      ∀ row, index < row → row ≤ lastOfSubtree thread.levels index level →
        level < thread.levelAt row := by
  have length := ( takeWhile_prefix (p := (level < ·))
    (l := thread.levels.drop (index + 1))).length_le
  rw [length_drop] at length
  refine ⟨Nat.le_add_right _ _, ?_, ?_⟩
  · rw [lastOfSubtree]
    omega
  · intro row after upTo
    rw [lastOfSubtree] at upTo
    obtain ⟨steps, rfl⟩ : ∃ steps, row = index + 1 + steps := ⟨row - (index + 1), by omega⟩
    have short : steps < ((thread.levels.drop (index + 1)).takeWhile (level < ·)).length := by omega
    have below : index + 1 + steps < thread.levels.length := by omega
    have member := getElem_mem short
    have satisfied := mem_takeWhile_imp member
    rw [( takeWhile_prefix _).getElem short, getElem_drop] at satisfied
    rw [getElem_levelAt below] at satisfied
    exact of_decide_eq_true satisfied

lemma Placed.sound (placed : Placed env thread newHdr reparentChildren parentIndex placement)
    (inStep : thread.InStep) (bytes : ∀ level ∈ thread.levels, level < 256) :
    placement.insertIndex ≤ thread.keys.length ∧
      placement.levels.length = thread.keys.length ∧ ∀ level ∈ placement.levels, level < 256 := by
  cases placed with
  | @adopted index first =>
    refine ⟨first.1.2.1.le, ?_, ?_⟩
    · rw [length_append, length_raiseSubtree, ← length_append, take_append_drop]
      exact inStep.2
    · intro level mem
      rcases mem_append.mp mem with before | after
      · exact bytes level (mem_of_mem_take before)
      · exact raiseSubtree_bytes (fun level mem => bytes level (mem_of_mem_drop mem))
          level after
  | @sibling index chosen =>
    have within : index < thread.levels.length := by
      rw [inStep.2]
      exact chosen.1.2.1
    have last := (lastOfSubtree_spec within (thread.levelAt index)).2.1
    rw [inStep.2] at last
    exact ⟨last.le, inStep.2, bytes⟩
  | last none => exact ⟨le_refl _, inStep.2, bytes⟩

lemma insertAt_sound (sound : Sound thread) (within : index ≤ thread.keys.length)
    (length : levels.length = thread.keys.length) (bytes : ∀ level ∈ levels, level < 256) :
    Sound ({ thread.countHdr newHdr with levels := levels }.insertAt newHdr index level) := by
  constructor
  · constructor
    · change (thread.folders.insertIdx index _).length = (thread.keys.insertIdx index _).length
      rw [length_insertIdx_of_le_length within, length_insertIdx_of_le_length
        (within.trans_eq sound.inStep.1.symm), sound.inStep.1]
    · change (levels.insertIdx index _).length = (thread.keys.insertIdx index _).length
      rw [length_insertIdx_of_le_length within, length_insertIdx_of_le_length
        (within.trans_eq length.symm), length]
  · intro other mem
    rcases eq_or_mem_of_mem_insertIdx mem with new | old
    · rw [new]
      exact Nat.mod_lt _ (by decide)
    · exact bytes other old
  · change thread.numChildren + 1 = UInt32.ofNat (thread.keys.insertIdx index _).length
    rw [length_insertIdx_of_le_length within, sound.counted, UInt32.ofNat_add]
    rfl

lemma limitAfter_levels (within : above < thread.levels.length) :
    limitAfter 0 (thread.levels.take (above + 1)) = thread.levelAt above + 1 :=
  limitAfter_take (getElem?_levelAt within)

lemma head?_levels {index next : Nat} (head : next ∈ (thread.levels.drop index).head?) :
    next = thread.levelAt index := by
  rw [head?_drop] at head
  rw [XFViewThread.levelAt, getD_eq_getElem?_getD, head]
  rfl

lemma outline_insertIdx (outline : Outline levels) (within : index ≤ levels.length)
    (below : level ≤ limitAfter 0 (levels.take index))
    (above : ∀ next ∈ (levels.drop index).head?, next ≤ level + 1) :
    Outline (levels.insertIdx index level) := by
  rw [insertIdx_take level within]
  apply OutlineFrom.insert
  · rw [take_append_drop]
    exact outline
  · exact below
  · exact above

lemma InRun.level_le (inRun : InRun thread parentIndex index) (start : parentIndex ≤ row)
    (upTo : row ≤ index) : thread.levelAt parentIndex ≤ thread.levelAt row := by
  by_cases parent : row = parentIndex
  · rw [parent]
  · exact inRun.2.2 row (lt_of_le_of_ne start (Ne.symm parent)) upTo

/-- Levels up to the parent's and one more may follow a row of the run. -/
theorem InRun.limit_le (inStep : thread.InStep) (inRun : InRun thread parentIndex index)
    (after : parentIndex < index) :
    thread.levelAt parentIndex + 1 ≤ limitAfter 0 (thread.levels.take index) := by
  obtain ⟨above, rfl⟩ : ∃ above, index = above + 1 := ⟨index - 1, by omega⟩
  have within : above < thread.levels.length := by
    rw [inStep.2]
    exact (Nat.lt_succ_self _).trans inRun.2.1
  rw [limitAfter_levels within]
  exact Nat.succ_le_succ (inRun.level_le (Nat.lt_succ_iff.mp after) (Nat.le_succ _))

lemma Placed.outline_adopted (inStep : thread.InStep) (outline : Outline thread.levels)
    (suits : SuitsParent env thread newHdr reparentChildren parentIndex)
    (first : AdoptsFirst env thread newHdr reparentChildren parentIndex index) :
    Outline ((thread.levels.take index ++ raiseSubtree (thread.levels.drop index)).insertIdx index
      ((thread.levelAt parentIndex + 1) % 256)) := by
  obtain ⟨shallow, bytes, parent⟩ := suits.adopted index first
  have within : index < thread.levels.length := by
    rw [inStep.2]
    exact first.1.2.1
  have here := bytes index (le_refl _) (Nat.le_add_right _ _)
  have above := first.1.level_le first.1.1 (le_refl _)
  have taken : (thread.levels.take index).length = index := length_take_of_le within.le
  have inserted := insertIdx_append (thread.levels.take index)
    (raiseSubtree (thread.levels.drop index)) ((thread.levelAt parentIndex + 1) % 256)
  rw [taken] at inserted
  rw [inserted, Nat.mod_eq_of_lt (by omega), Outline, outlineFrom_append]
  rw [Outline, ← take_append_drop index thread.levels, outlineFrom_append] at outline
  refine ⟨outline.1, ?_, ?_⟩
  · rcases Nat.lt_or_ge parentIndex index with after | upTo
    · exact first.1.limit_le inStep after
    · have same : index = parentIndex := le_antisymm upTo first.1.1
      obtain ⟨row, next, deep⟩ := parent same
      rw [same, next, limitAfter_levels (by omega), ← next]
      exact Nat.succ_le_succ deep
  · have split := drop_eq_getElem_cons within
    rw [getElem_levelAt within] at split
    have after := outline.2
    rw [split] at after ⊢
    rw [raiseSubtree, Nat.mod_eq_of_lt (by omega)]
    refine ⟨Nat.succ_le_succ shallow, outline_raiseWhile after.2 ?_⟩
    intro level mem
    obtain ⟨steps, short, rfl⟩ := mem_iff_getElem.mp mem
    have length := ( takeWhile_prefix (p := (thread.levelAt index < ·))
      (l := thread.levels.drop (index + 1))).length_le
    rw [length_drop] at length
    have bound := bytes (index + 1 + steps) (by omega) (by rw [lastOfSubtree]; omega)
    rw [( takeWhile_prefix _).getElem short, getElem_drop, getElem_levelAt (by omega)]
    exact bound

lemma Placed.outline_sibling (inStep : thread.InStep) (outline : Outline thread.levels)
    (bytes : ∀ level ∈ thread.levels, level < 256)
    (suits : SuitsParent env thread newHdr reparentChildren parentIndex)
    (chosen : PrecedesChosen env thread newHdr reparentChildren parentIndex index) :
    Outline (thread.levels.insertIdx (lastOfSubtree thread.levels index (thread.levelAt index))
      (thread.levelAt index % 256)) := by
  have within : index < thread.levels.length := by
    rw [inStep.2]
    exact chosen.1.2.1
  have sibling := chosen.2.1.1
  have after : parentIndex < index := by
    refine lt_of_le_of_ne chosen.1.1 ?_
    intro same
    rw [same] at sibling
    omega
  obtain ⟨start, last, below⟩ := lastOfSubtree_spec within (thread.levelAt index)
  have byte := bytes _ (mem_of_getElem? (getElem?_levelAt within))
  rw [Nat.mod_eq_of_lt byte]
  refine outline_insertIdx outline last.le ?_ ?_
  · rcases start.eq_or_lt with same | deeper
    · rw [← same, sibling]
      exact chosen.1.limit_le inStep after
    · obtain ⟨row, next⟩ : ∃ row, lastOfSubtree thread.levels index (thread.levelAt index) =
          row + 1 := ⟨_, (Nat.succ_pred_eq_of_pos (by omega)).symm⟩
      rw [next] at deeper last below ⊢
      rw [limitAfter_levels (by omega)]
      rcases (Nat.lt_succ_iff.mp deeper).eq_or_lt with same | later
      · rw [same]
        exact Nat.le_succ _
      · exact (below row later (Nat.le_succ _)).le.trans (Nat.le_succ _)
  · intro next head
    rw [head?_levels head]
    exact (suits.sibling index chosen).trans (Nat.succ_le_succ sibling.ge)

lemma Placed.outline (placed : Placed env thread newHdr reparentChildren parentIndex placement)
    (inStep : thread.InStep) (bytes : ∀ level ∈ thread.levels, level < 256)
    (outline : Outline thread.levels) (within : parentIndex < thread.keys.length)
    (suits : SuitsParent env thread newHdr reparentChildren parentIndex) :
    Outline (placement.levels.insertIdx placement.insertIndex (placement.insertLevel % 256)) := by
  cases placed with
  | adopted first => exact outline_adopted inStep outline suits first
  | sibling chosen => exact outline_sibling inStep outline bytes suits chosen
  | last none =>
    refine outline_insertIdx outline inStep.2.ge ?_ ?_
    · obtain ⟨row, length⟩ : ∃ row, thread.keys.length = row + 1 :=
        ⟨thread.keys.length - 1, by omega⟩
      have deep := suits.last none
      rw [length] at deep ⊢
      rw [limitAfter_levels (by rw [inStep.2, length]; exact Nat.lt_succ_self row)]
      exact (Nat.mod_le _ _).trans (Nat.succ_le_succ deep)
    · intro next head
      rw [drop_of_length_le inStep.2.le] at head
      cases head

lemma findParent_countHdr (env) (thread) (newHdr) (count : Nat) :
    findParent env (thread.countHdr newHdr) newHdr count = findParent env thread newHdr count := by
  induction count with
  | zero => rfl
  | succ index ih =>
    rw [findParent, findParent, ih]
    rfl

lemma SuitsParent.countHdr
    (suits : SuitsParent env thread newHdr reparentChildren parentIndex) :
    SuitsParent env (thread.countHdr newHdr) newHdr reparentChildren parentIndex :=
  ⟨suits.adopted, suits.sibling, suits.last⟩

/-- A new header goes to one place, the rows of the others may get other levels, and the levels
are still those of an outline if the place suits. -/
theorem addHdr_rows (sound : Sound thread) (env : XFViewEnv) (newHdr : MsgHdr)
    (reparentChildren : Bool) :
    ∃ levels index level, index ≤ thread.keys.length ∧ levels.length = thread.keys.length ∧
      (∀ level ∈ levels, level < 256) ∧
      (addHdr env thread newHdr reparentChildren).1 =
        { thread.countHdr newHdr with levels := levels }.insertAt newHdr index level ∧
      (Outline thread.levels → SuitsAdd env thread newHdr reparentChildren →
        Outline (levels.insertIdx index (level % 256))) := by
  rw [addHdr]
  dsimp only
  split
  · refine ⟨thread.levels, 0, 0, Nat.zero_le _, sound.inStep.2, sound.bytes, rfl, ?_⟩
    intro outline suits
    refine outline_insertIdx outline (Nat.zero_le _) (le_refl _) ?_
    intro next head
    cases rows : thread.levels with
    | nil =>
      rw [rows] at head
      cases head
    | cons first rest =>
      rw [rows] at head outline
      cases head
      exact outline.1.trans (Nat.zero_le _)
  · rename_i more
    rw [findParent_countHdr]
    split
    · rename_i parent parentIndex found
      have within := findParent_lt found
      have placed := addBelow_placed env (thread.countHdr newHdr) newHdr reparentChildren
        parentIndex
      obtain ⟨index, length, bytes⟩ := placed.sound sound.inStep sound.bytes
      refine ⟨_, _, _, index, length, bytes, rfl, ?_⟩
      intro outline suits
      exact placed.outline sound.inStep sound.bytes outline within
        (suits parent parentIndex found).countHdr
    · rw [addAtRoot]
      split
      · refine ⟨levelsBelowRoot thread.levels, 0, 0, Nat.zero_le _, ?_,
          levelsBelowRoot_bytes _, rfl, ?_⟩
        · rw [length_levelsBelowRoot, sound.inStep.2]
        · intro outline suits
          exact ⟨le_refl _, outline_levelsBelowRoot _ outline⟩
      · refine ⟨thread.levels, thread.keys.length, 1, le_refl _, sound.inStep.2, sound.bytes, rfl,
          ?_⟩
        intro outline suits
        refine outline_insertIdx outline sound.inStep.2.ge ?_ ?_
        · obtain ⟨row, length⟩ : ∃ row, thread.keys.length = row + 1 := by
            apply Nat.exists_eq_succ_of_ne_zero
            intro none
            apply more
            change thread.numChildren + 1 = 1
            rw [sound.counted, none]
            rfl
          rw [length, limitAfter_levels (by rw [sound.inStep.2, length]; exact Nat.lt_succ_self row)]
          exact Nat.succ_le_succ (Nat.zero_le _)
        · intro next head
          rw [drop_of_length_le sound.inStep.2.le] at head
          cases head

lemma removeChildHdr_sound (sound : Sound thread) (child) :
    Sound (removeChildHdr thread child).1 := by
  rw [removeChildHdr]
  dsimp only
  split
  · exact ⟨sound.inStep, sound.bytes, sound.counted⟩
  · rename_i index found
    have within : index < thread.keys.length := hdrIndex_lt found
    obtain ⟨others, length⟩ : ∃ others, thread.keys.length = others + 1 :=
      ⟨thread.keys.length - 1, by omega⟩
    constructor
    · constructor
      · change (thread.folders.eraseIdx index).length = (thread.keys.eraseIdx index).length
        rw [length_eraseIdx_of_lt within,
          length_eraseIdx_of_lt (within.trans_eq sound.inStep.1.symm), sound.inStep.1]
      · change (thread.levels.take index ++ lowerWhile (child.messageKey % 256)
          (thread.levels.drop (index + 1))).length = (thread.keys.eraseIdx index).length
        rw [length_eraseIdx_of_lt within, length_append, length_lowerWhile,
          length_take, length_drop, sound.inStep.2]
        omega
    · intro level mem
      rcases mem_append.mp mem with before | after
      · exact sound.bytes level (mem_of_mem_take before)
      · exact lowerWhile_bytes (fun level mem => sound.bytes level (mem_of_mem_drop mem))
          _ level after
    · change thread.numChildren - 1 = UInt32.ofNat (thread.keys.eraseIdx index).length
      rw [length_eraseIdx_of_lt within, sound.counted, length, UInt32.ofNat_add,
        Nat.add_sub_cancel]
      exact UInt32.add_sub_cancel _ _

lemma removeChildHdr_outline (outline : Outline thread.levels)
    (suits : SuitsRemove thread child) : Outline (removeChildHdr thread child).1.levels := by
  rw [removeChildHdr]
  dsimp only
  split
  · exact outline
  · rename_i index found
    have fits := suits index found
    rw [Outline, ← take_append_drop (index + 1) thread.levels, outlineFrom_append] at outline
    have before := outline.1
    rw [take_add, outlineFrom_append] at before
    exact outlineFrom_append.mpr ⟨before.1, outline_lowerWhile outline.2 fits⟩

lemma call_sound (thread) (call) (sound : Sound thread) : Sound (thread.call call) := by
  cases call with
  | addHdr env newHdr reparentChildren =>
    obtain ⟨levels, index, level, within, length, bytes, result, -⟩ :=
      addHdr_rows sound env newHdr reparentChildren
    rw [XFViewThread.call, result]
    exact insertAt_sound sound within length bytes
  | removeChildHdr child => exact removeChildHdr_sound sound child

lemma call_outline (thread : XFViewThread) (call : XFViewCall) (sound : Sound thread)
    (outline : Outline thread.levels) (suits : Suits thread call) :
    Outline (thread.call call).levels := by
  cases call with
  | addHdr env newHdr reparentChildren =>
    obtain ⟨levels, index, level, -, -, -, result, outlined⟩ :=
      addHdr_rows sound env newHdr reparentChildren
    rw [XFViewThread.call, result]
    exact outlined outline suits
  | removeChildHdr child => exact removeChildHdr_outline outline suits

lemma sound_new : Sound {} := by
  refine ⟨⟨rfl, rfl⟩, ?_, rfl⟩
  intro level mem
  cases mem

/-- The outline of a thread is well formed: one level for each message, the first of them 0, and
each at most one more than the level before it. -/
structure WellOutlined (thread : XFViewThread) : Prop where
  inStep : thread.InStep
  root : ∀ first ∈ thread.levels.head?, first = 0
  below : ∀ index above level, thread.levels[index]? = some above →
    thread.levels[index + 1]? = some level → level ≤ above + 1

lemma wellOutlined_iff : WellOutlined thread ↔ thread.InStep ∧ Outline thread.levels := by
  rw [outline_iff]
  constructor
  · exact fun outlined => ⟨outlined.inStep, outlined.root, outlined.below⟩
  · exact fun ⟨inStep, root, below⟩ => ⟨inStep, root, below⟩

lemma run_sound (calls) : Sound (run XFViewThread.call {} calls) :=
  run_preserved XFViewThread.call call_sound sound_new calls

lemma run_outline (admissible : Admissible XFViewThread.call Suits {} calls) :
    Sound (run XFViewThread.call {} calls) ∧ Outline (run XFViewThread.call {} calls).levels := by
  have preserved (thread : XFViewThread) (call : XFViewCall)
      (holds : Sound thread ∧ Outline thread.levels) (suits : Suits thread call) :
      Sound (thread.call call) ∧ Outline (thread.call call).levels :=
    ⟨call_sound thread call holds.1, call_outline thread call holds.1 holds.2 suits⟩
  exact run_invariant XFViewThread.call Suits preserved ⟨sound_new, trivial⟩ admissible

/-- The three arrays are in step in every run, and the outline is well formed in every state of
a run whose calls suit. -/
theorem calls_wellOutlined (calls : List XFViewCall) :
    (run XFViewThread.call {} calls).InStep ∧
      (Admissible XFViewThread.call Suits {} calls → ∀ taken, taken <+: calls →
        WellOutlined (run XFViewThread.call {} taken)) := by
  refine ⟨(run_sound calls).inStep, ?_⟩
  intro admissible taken start
  obtain ⟨sound, outline⟩ := run_outline (admissible.of_prefix _ _ start)
  exact wellOutlined_iff.mpr ⟨sound.inStep, outline⟩

end

def rootHdr : MsgHdr :=
  { messageKey := 1, folder := 0, dateInSeconds := 10, flags := 0, messageId := [82],
    references := [] }

def replyHdr : MsgHdr :=
  { messageKey := 2, folder := 1, dateInSeconds := 20, flags := 0, messageId := [65],
    references := [[82]] }

/-- The databases hold both. -/
def twoMessages : XFViewEnv where
  msgHdrFromHash messageId :=
    if messageId = [82] then some rootHdr else if messageId = [65] then some replyHdr else none
  msgHdrForKey folder key :=
    if folder = 0 ∧ key = 1 then some rootHdr
    else if folder = 1 ∧ key = 2 then some replyHdr else none

def addBoth : List XFViewCall :=
  [.addHdr twoMessages rootHdr false, .addHdr twoMessages replyHdr false]

lemma reply_suits : SuitsAdd twoMessages (run XFViewThread.call {} (addBoth.take 1)) replyHdr
    false := by
  intro parent parentIndex found
  have same : some (rootHdr, 0) = some (parent, parentIndex) := found
  cases same
  constructor
  · rintro index ⟨-, ⟨reparent, -⟩, -⟩
    cases reparent
  · rintro index ⟨⟨-, below, -⟩, ⟨level, -⟩, -⟩
    have here : index = 0 := Nat.lt_one_iff.mp below
    rw [here] at level
    cases level
  · exact fun _ => le_refl _

lemma addBoth_suits : Admissible XFViewThread.call Suits {}
    (addBoth ++ [.removeChildHdr replyHdr]) := by
  refine And.intro ?_ (And.intro reply_suits (And.intro ?_ trivial))
  · rintro parent parentIndex ⟨⟩
  · intro index found next head
    have last : some 1 = some index := found
    cases last
    cases head

/-- The reply is added and removed. -/
theorem calls_wellOutlined_reply :
    WellOutlined (run XFViewThread.call {} (addBoth ++ [.removeChildHdr replyHdr])) :=
  (calls_wellOutlined _).2 addBoth_suits _ (prefix_refl _)

/-- The root is removed, and the level of the reply stays 1: it is not above the key. -/
theorem reply_not_lowered : ¬ ∀ calls, WellOutlined (run XFViewThread.call {} calls) := by
  intro always
  have root := (always (addBoth ++ [.removeChildHdr rootHdr])).root 1 (by decide +kernel)
  cases root

end CommCentral.XFView
