import Mathlib.Data.List.TakeWhile
import CommCentral.View.ViewEvents

/-! The rows of a view one by one, and what the operations on the three arrays do to them. -/
namespace CommCentral.View

open Lib List

/-- One message in the view. -/
structure Row where
  key : Nat
  flags : UInt32
  level : UInt8
  deriving DecidableEq

namespace Rows

def ofList (list : List Row) : Rows := ⟨list.map Row.key, list.map Row.flags, list.map Row.level⟩

def entries (rows : Rows) : List Row :=
  (rows.keys.zip (rows.flags.zip rows.levels)).map fun (key, flags, level) => ⟨key, flags, level⟩

lemma entries_ofList (list) : (ofList list).entries = list := by
  induction list with
  | nil => rfl
  | cons row rest ih => exact congrArg (row :: ·) ih

lemma InStep.ofList_entries {rows : Rows} (inStep : rows.InStep) :
    ofList rows.entries = rows := by
  have rest : (rows.flags.zip rows.levels).length = rows.keys.length := by
    rw [length_zip, ← inStep.1, ← inStep.2, Nat.min_self]
  have flags : rows.flags.length = rows.levels.length := inStep.1.symm.trans inStep.2
  have entryKeys : rows.entries.map Row.key = rows.keys := by
    rw [entries, map_map]
    exact map_fst_zip rest.ge
  have entryFlags : rows.entries.map Row.flags = rows.flags := by
    have second := congrArg (List.map Prod.fst) (map_snd_zip rest.le)
    rw [map_fst_zip flags.le, map_map] at second
    rw [entries, map_map]
    exact second
  have entryLevels : rows.entries.map Row.level = rows.levels := by
    have third := congrArg (List.map Prod.snd) (map_snd_zip rest.le)
    rw [map_snd_zip flags.ge, map_map] at third
    rw [entries, map_map]
    exact third
  rw [ofList, entryKeys, entryFlags, entryLevels]

lemma ofList_inStep (list) : (ofList list).InStep :=
  ⟨(length_map _).trans (length_map _).symm,
    (length_map _).trans (length_map _).symm⟩

end Rows

section

variable {α : Type}

lemma insertAt?_append (before after items : List α) :
    insertAt? (before ++ after) before.length items = some (before ++ items ++ after) := by
  have fits : before.length ≤ (before ++ after).length := by
    rw [length_append]
    exact Nat.le_add_right _ _
  rw [insertAt?, if_pos fits, take_left, drop_left]

lemma removeAt?_append (before items after : List α) :
    removeAt? (before ++ (items ++ after)) before.length items.length = some (before ++ after) := by
  have fits : before.length + items.length ≤ (before ++ (items ++ after)).length := by
    rw [length_append, length_append, ← Nat.add_assoc]
    exact Nat.le_add_right _ _
  rw [removeAt?, if_pos fits, take_left, ← drop_drop, drop_left, drop_left]

lemma assign?_append (before after) (old item : α) :
    assign? (before ++ old :: after) before.length item = some (before ++ item :: after) := by
  have within : before.length < (before ++ old :: after).length := by
    rw [length_append, length_cons]
    omega
  rw [assign?, if_pos within, set_append_right _ _ (Nat.le_refl _), Nat.sub_self]
  rfl

variable (before after items below : List Row) (row : Row)

lemma insert?_ofList : (Rows.ofList (before ++ after)).insert? before.length (.ofList items) =
    some (.ofList (before ++ items ++ after)) := by
  have inserted {α : Type} (field : Row → α) :
      insertAt? ((before ++ after).map field) before.length (items.map field) =
        some ((before ++ items ++ after).map field) := by
    have mapped := insertAt?_append (before.map field) (after.map field) (items.map field)
    rw [length_map, ← map_append, ← map_append, ← map_append] at mapped
    exact mapped
  simp only [Rows.insert?, Rows.ofList, inserted]
  rfl

lemma remove?_ofList :
    (Rows.ofList (before ++ (items ++ after))).remove? before.length items.length =
      some (.ofList (before ++ after)) := by
  have removed {α : Type} (field : Row → α) :
      removeAt? ((before ++ (items ++ after)).map field) before.length items.length =
        some ((before ++ after).map field) := by
    have mapped := removeAt?_append (before.map field) (items.map field) (after.map field)
    rw [length_map, length_map, ← map_append, ← map_append,
      ← map_append] at mapped
    exact mapped
  simp only [Rows.remove?, Rows.ofList, removed]
  rfl

lemma setFlags?_ofList (flags : UInt32) :
    (Rows.ofList (before ++ row :: after)).setFlags? before.length flags =
      some (.ofList (before ++ { row with flags := flags } :: after)) := by
  have assigned := assign?_append (before.map Row.flags) (after.map Row.flags) row.flags flags
  rw [length_map] at assigned
  simp only [Rows.setFlags?, Rows.ofList, map_append, map_cons, assigned]
  rfl

def ThreadedView.showing (view : ThreadedView) (list : List Row) : ThreadedView :=
  { view with rows := .ofList list }

variable (view : ThreadedView)

lemma size_showing : (view.showing before).size = before.length := length_map _

lemma changeRows_showing {change : Rows → Option Rows}
    (changed : change (.ofList list) = some (.ofList later)) :
    changeRows change (view.showing list) = (.ok (), view.showing later) := by
  rw [changeRows]
  have rows : (view.showing list).rows = .ofList list := rfl
  rw [rows, changed]
  rfl

lemma flagsAt_showing : flagsAt before.length (view.showing (before ++ row :: after)) =
    (.ok row.flags, view.showing (before ++ row :: after)) := by
  have found : ((before ++ row :: after).map Row.flags)[before.length]? = some row.flags := by
    rw [getElem?_map, getElem?_append_right (Nat.le_refl _), Nat.sub_self]
    rfl
  have flags : (view.showing (before ++ row :: after)).rows.flags[before.length]? =
    some row.flags := found
  change demand ((view.showing (before ++ row :: after)).rows.flags[before.length]?) _ = _
  rw [flags]
  rfl

lemma levelAt_showing : levelAt before.length (view.showing (before ++ row :: after)) =
    (.ok row.level, view.showing (before ++ row :: after)) := by
  have found : ((before ++ row :: after).map Row.level)[before.length]? = some row.level := by
    rw [getElem?_map, getElem?_append_right (Nat.le_refl _), Nat.sub_self]
    rfl
  have levels : (view.showing (before ++ row :: after)).rows.levels[before.length]? =
    some row.level := found
  change demand ((view.showing (before ++ row :: after)).rows.levels[before.length]?) _ = _
  rw [levels]
  rfl

lemma setFlagsAt_showing (flags : UInt32) :
    setFlagsAt before.length flags (view.showing (before ++ row :: after)) =
      (.ok (), view.showing (before ++ { row with flags := flags } :: after)) :=
  changeRows_showing view (setFlags?_ofList before after row flags)

lemma insertMsgHdrAt_showing :
    insertMsgHdrAt before.length row.key row.flags row.level (view.showing (before ++ after)) =
      (.ok (), view.showing (before ++ row :: after)) := by
  apply changeRows_showing
  have within : ¬ (Rows.ofList (before ++ after)).keys.length < before.length := by
    rw [Rows.ofList, length_map, length_append]
    exact Nat.not_lt.mpr (Nat.le_add_right _ _)
  have inserted := insert?_ofList before after [row]
  rw [append_assoc] at inserted
  rw [if_neg within]
  exact inserted

lemma removeRow_showing : removeRow before.length (view.showing (before ++ row :: after)) =
    (.ok (), view.showing (before ++ after)) := by
  apply changeRows_showing
  have within : before.length < (Rows.ofList (before ++ row :: after)).keys.length := by
    rw [Rows.ofList, length_map, length_append, length_cons]
    omega
  rw [if_pos within]
  exact remove?_ofList before after [row]

lemma removeRows_showing :
    removeRows before.length items.length (view.showing (before ++ (items ++ after))) =
      (.ok (), view.showing (before ++ after)) :=
  changeRows_showing view (remove?_ofList before after items)

/-- A first row of a thread, the rows below it, and the rows of the threads after it. -/
structure ThreadRows (row : Row) (below after : List Row) : Prop where
  top : row.level = 0
  deeper : ∀ child ∈ below, child.level ≠ 0
  next : ∀ other ∈ after.head?, other.level = 0

variable {row below after}

lemma ThreadRows.takeWhile_levels (thread : ThreadRows row below after) :
    ((below ++ after).map Row.level).takeWhile (· != 0) = below.map Row.level := by
  have first : (below.map Row.level).takeWhile (· != 0) = below.map Row.level := by
    rw [takeWhile_eq_self_iff]
    intro level mem
    obtain ⟨child, isBelow, rfl⟩ := mem_map.mp mem
    exact bne_iff_ne.mpr (thread.deeper child isBelow)
  have rest : (after.map Row.level).takeWhile (· != 0) = [] := by
    cases after with
    | nil => rfl
    | cons other after =>
      rw [map_cons, takeWhile_cons, thread.next other rfl]
      rfl
  rw [map_append, takeWhile_append_of_pos (fun level mem => ?_), rest, append_nil]
  obtain ⟨child, isBelow, rfl⟩ := mem_map.mp mem
  exact bne_iff_ne.mpr (thread.deeper child isBelow)

/-- The entries of an array after those of a row. -/
theorem drop_field {α : Type} (field : Row → α) (before later : List Row) (row : Row) :
    ((before ++ row :: later).map field).drop (before.length + 1) = later.map field := by
  rw [← map_drop, ← drop_drop, drop_left]
  rfl

lemma afterThreadTop_showing (top : row.level = 0) :
    afterThreadTop before.length (view.showing (before ++ row :: after)) =
      (.ok (before.length + 1), view.showing (before ++ row :: after)) := by
  have level := levelAt_showing before after row view
  rw [top] at level
  cases length : before.length with
  | zero | succ index =>
    rw [length] at level
    rw [afterThreadTop, Attempt.bind_eq level]
    rfl

section

variable (thread : ThreadRows row below after)
include thread

lemma countExpandedThread_showing :
    countExpandedThread before.length (view.showing (before ++ row :: (below ++ after))) =
      (.ok (1 + below.length), view.showing (before ++ row :: (below ++ after))) := by
  rw [countExpandedThread, Attempt.bind_eq (afterThreadTop_showing before view thread.top)]
  have levels : ((view.showing (before ++ row :: (below ++ after))).rows.levels.drop
      (before.length + 1)).takeWhile (· != 0) = below.map Row.level := by
    change (((before ++ row :: (below ++ after)).map Row.level).drop (before.length + 1)).takeWhile
      (· != 0) = below.map Row.level
    rw [drop_field]
    exact thread.takeWhile_levels
  change (Except.ok (1 + _), _) = _
  rw [levels, length_map]

lemma collapseExpanded_showing (flags : UInt32) :
    collapseExpanded before.length flags (view.showing (before ++ row :: (below ++ after))) =
      (.ok (), view.showing (before ++ { row with flags := flags ||| flagElided } :: after)) := by
  have size := size_showing (before ++ row :: (below ++ after)) view
  rw [length_append, length_cons, length_append] at size
  have within : ¬ (view.showing (before ++ row :: (below ++ after))).size ≤ before.length := by
    omega
  have count : min (1 + below.length - 1)
      ((view.showing (before ++ row :: (below ++ after))).size - (before.length + 1)) =
      below.length := by
    omega
  have removed := removeRows_showing (before ++ [{ row with flags := flags ||| flagElided }]) after
    below view
  rw [length_append, append_assoc, append_assoc] at removed
  rw [collapseExpanded]
  change (if (view.showing (before ++ row :: (below ++ after))).size ≤ before.length then _
    else _ : ViewM Unit) _ = _
  rw [if_neg within, Attempt.bind_eq (countExpandedThread_showing before view thread),
    Attempt.bind_eq (setFlagsAt_showing before (below ++ after) row view _), count]
  exact removed

lemma collapseByIndex_showing (threaded : view.viewFlags.threadedDisplay = true)
    (expanded : hasFlag row.flags flagElided = false) :
    ∃ flags, collapseByIndex before.length (view.showing (before ++ row :: (below ++ after))) =
      (.ok (), view.showing (before ++ { row with flags := flags } ::
        if hasFlag row.flags viewFlagHasChildren then after else below ++ after)) := by
  have start : collapseByIndex before.length (view.showing (before ++ row :: (below ++ after))) =
      (if hasFlag row.flags flagElided || !view.viewFlags.threadedDisplay ||
          !hasFlag row.flags viewFlagHasChildren then pure ()
        else collapseExpanded before.length row.flags : ViewM Unit)
        (view.showing (before ++ row :: (below ++ after))) :=
    Attempt.bind_eq (flagsAt_showing before (below ++ after) row view)
  rw [start, expanded, threaded]
  cases hasChildren : hasFlag row.flags viewFlagHasChildren with
  | true => exact ⟨_, collapseExpanded_showing before view thread row.flags⟩
  | false => exact ⟨row.flags, rfl⟩

lemma threadRows_showing :
    threadRows before.length (view.showing (before ++ row :: (below ++ after))) =
      (.ok (.ofList below), view.showing (before ++ row :: (below ++ after))) := by
  have size := size_showing (before ++ row :: (below ++ after)) view
  have copied {α : Type} (field : Row → α) :
      ((((before ++ row :: (below ++ after)).map field).drop (before.length + 1)).take
        below.length) = below.map field := by
    rw [drop_field, ← map_take, take_left]
  have levels : (((view.showing (before ++ row :: (below ++ after))).rows.levels.take
      (view.showing (before ++ row :: (below ++ after))).size).drop
      (before.length + 1)).takeWhile (· != 0) = below.map Row.level := by
    have all : (view.showing (before ++ row :: (below ++ after))).rows.levels.take
        (view.showing (before ++ row :: (below ++ after))).size =
        (before ++ row :: (below ++ after)).map Row.level := by
      rw [size]
      exact take_of_length_le (length_map _).le
    rw [all, drop_field]
    exact thread.takeWhile_levels
  have keys : ((view.showing (before ++ row :: (below ++ after))).rows.keys.drop
      (before.length + 1)).take below.length = below.map Row.key := copied Row.key
  have flags : ((view.showing (before ++ row :: (below ++ after))).rows.flags.drop
      (before.length + 1)).take below.length = below.map Row.flags := copied Row.flags
  have within : before.length + 1 + below.length ≤
      (view.showing (before ++ row :: (below ++ after))).rows.flags.length := by
    change _ ≤ ((before ++ row :: (below ++ after)).map Row.flags).length
    rw [length_map, length_append, length_cons, length_append]
    omega
  rw [threadRows]
  change (let levels := (((view.showing (before ++ row :: (below ++ after))).rows.levels.take
      (view.showing (before ++ row :: (below ++ after))).size).drop
      (before.length + 1)).takeWhile (· != 0)
    if before.length + 1 + levels.length ≤ _ then _ else _ : ViewM Rows) _ = _
  dsimp only
  rw [levels, length_map, if_pos within, keys, flags]
  rfl

end

end

end CommCentral.View
