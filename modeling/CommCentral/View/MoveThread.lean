import Mathlib.Data.List.Nodup
import CommCentral.View.InsertIndex
import CommCentral.View.RowEntries
import CommCentral.View.SortOrder
import CommCentral.View.ViewRun

/-! When moving a thread only moves its rows in the view. -/
namespace CommCentral.View

open Lib List

/-- What is selected when a thread is moved: the rows of the selected ranges and the current
row. -/
structure Selection where
  indices : List Nat := []
  current : Option Nat := none

/-- The keys that `SaveAndClearSelection` keeps, those of the ranges first. -/
def Selection.keys (selection : Selection) (view : ThreadedView) : List Nat :=
  (selection.indices ++ selection.current.toList).filterMap fun index => view.rows.keys[index]?

section

variable (env : ViewEnv)

def keyOfFirstMsgInThread (key : Nat) : Option Nat := do
  let hdr ← env.msgHdrForKey key
  let thread ← (env.threadContaining hdr).join
  thread.childKeys[0]?

def expandToKey (key : Nat) : ViewM Unit := do
  let view ← Attempt.read fun view : ThreadedView => view
  let shown := (indexOfKey view key 0).any fun index =>
    let flags := view.rows.flags.getD index 0
    !hasFlag flags viewFlagDummy || !hasFlag flags flagElided
  if shown || key == nsMsgKey_None then pure ()
  else
    match (keyOfFirstMsgInThread env key).bind (findKey view) with
    | none => pure ()
    | some threadIndex => expandIfElided env threadIndex

/-- What `RestoreSelection` does to the rows. -/
def restoreSelection : List Nat → ViewM Unit
  | [] => pure ()
  | key :: rest => do
    expandToKey env key
    restoreSelection rest

/-- `MoveThreadAt`, between saving and restoring the selection. -/
def moveThread (selection : Selection) (threadIndex : Nat) : ViewM Unit := do
  let keys ← Attempt.read selection.keys
  moveThreadAt env threadIndex
  restoreSelection env keys

end

/-- The first row of a thread with the rows below it. -/
def threadAt (rows : List Row) (index : Nat) : List Row :=
  match rows.drop index with
  | [] => []
  | row :: rest => row :: rest.takeWhile fun child => child.level != 0

/-- The rows of the thread are taken out, and put in again before another thread or after all
of them. -/
def ThreadMoved (before after : List Row) (index : Nat) : Prop :=
  let thread := threadAt before index
  ∃ first second, before.take index ++ before.drop (index + thread.length) = first ++ second ∧
    (∀ row ∈ second.head?, row.level = 0) ∧ after = first ++ thread ++ second

/-- Whatever is selected, moving the thread ends, and moves its rows only. -/
def MovesThread (env : ViewEnv) (view : ThreadedView) (index : Nat) : Prop :=
  ∀ selection, ∃ later after, moveThread env selection index view = (.ok (), later) ∧
    later.rows = .ofList after ∧ ThreadMoved view.rows.entries after index

/-- A threaded view: each message has one row, the first row starts a thread, and there are no
dummy rows, which only groups have. -/
structure Threaded (view : ThreadedView) : Prop where
  inStep : view.rows.InStep
  threaded : view.viewFlags.threadedDisplay = true
  notGrouped : view.viewFlags.groupBySort = false
  distinct : view.rows.keys.Nodup
  top : ∀ level ∈ view.rows.levels.head?, level = 0
  noDummies : ∀ flags ∈ view.rows.flags, hasFlag flags viewFlagDummy = false

/-- The header of the thread is there and shown, and the flags of its first row suit the rows
below it. -/
structure SuitsMove (env : ViewEnv) (places : PlaceEnv) (view : ThreadedView) (index : Nat) :
    Prop where
  shown : ∃ hdr, msgHdrForViewIndex env view index = some hdr ∧
    ignoresHdr env view.viewFlags hdr = false
  /-- An expanded row with rows below it has the flag for children. -/
  expanded : hasFlag (view.rows.flags.getD index 0) flagElided = false →
    1 < (threadAt view.rows.entries index).length →
    hasFlag (view.rows.flags.getD index 0) viewFlagHasChildren = true
  /-- Only the first row of the view may be collapsed with rows below it, if its place among
  these is still the first one. -/
  collapsed : hasFlag (view.rows.flags.getD index 0) flagElided = true →
    1 < (threadAt view.rows.entries index).length →
    index = 0 ∧ ∀ hdr, msgHdrForViewIndex env view index = some hdr →
      getInsertIndex places (view.showing view.rows.entries.tail) hdr = 0

section

variable {view : ThreadedView}
variable {before below after : List Row}

lemma exists_threadRows (inStep : view.rows.InStep) (top : view.rows.levels[index]? = some 0) :
    ∃ before row below after, before.length = index ∧
      view.rows.entries = before ++ row :: (below ++ after) ∧ ThreadRows row below after := by
  have rows := inStep.ofList_entries
  rw [← rows] at top
  change (view.rows.entries.map Row.level)[index]? = some 0 at top
  rw [getElem?_map] at top
  obtain ⟨row, found, isTop⟩ := Option.map_eq_some_iff.mp top
  obtain ⟨within, here⟩ := List.getElem?_eq_some_iff.mp found
  let rest := view.rows.entries.drop (index + 1)
  refine ⟨view.rows.entries.take index, row, rest.takeWhile fun child => child.level != 0,
    rest.dropWhile fun child => child.level != 0, length_take_of_le within.le, ?_, isTop, ?_,
    ?_⟩
  · rw [takeWhile_append_dropWhile, ← here, getElem_cons_drop, take_append_drop]
  · intro child mem
    have deeper : (child.level != 0) = true :=
      mem_takeWhile_imp (p := fun child : Row => child.level != 0) mem
    exact bne_iff_ne.mp deeper
  · intro other head
    have notDeeper := head?_dropWhile_not (fun child : Row => child.level != 0) rest
    rw [head] at notDeeper
    exact of_not_not fun deeper => Bool.noConfusion (notDeeper.symm.trans (bne_iff_ne.mpr deeper))

lemma threadAt_eq (thread : ThreadRows row below after) :
    threadAt (before ++ row :: (below ++ after)) before.length = row :: below := by
  have next : after.takeWhile (fun child => child.level != 0) = [] := by
    cases after with
    | nil => rfl
    | cons other after => rw [takeWhile_cons, thread.next other rfl, if_neg (by decide)]
  rw [threadAt, drop_left]
  change row :: (below ++ after).takeWhile _ = _
  rw [takeWhile_append_of_pos fun child mem => bne_iff_ne.mpr (thread.deeper child mem),
    next, append_nil]

lemma threadMoved_iff (thread : ThreadRows row below after) (later : List Row) :
    ThreadMoved (before ++ row :: (below ++ after)) later before.length ↔
      ∃ first second, before ++ after = first ++ second ∧ (∀ row ∈ second.head?, row.level = 0) ∧
        later = first ++ row :: (below ++ second) := by
  have rest : (before ++ row :: (below ++ after)).drop (before.length + (row :: below).length) =
      after := by
    rw [← drop_drop, drop_left]
    exact drop_left
  rw [ThreadMoved, threadAt_eq thread]
  rw [take_left, rest]
  refine exists_congr fun first => exists_congr fun second => ?_
  rw [append_assoc]
  exact Iff.rfl

/-- The rows that are left when the first row is removed. -/
def remaining (row : Row) (below after : List Row) : List Row :=
  if hasFlag row.flags flagElided || !hasFlag row.flags viewFlagHasChildren then below ++ after
  else after

/-- The rows that are put in again below the first row. -/
def collected (row : Row) (below : List Row) : List Row :=
  if hasFlag row.flags flagElided then [] else below

lemma collectThread_showing (before : List Row) (thread : ThreadRows row below after)
    (threaded : view.viewFlags.threadedDisplay = true) :
    ∃ flags, collectThread before.length row.flags
        (view.showing (before ++ row :: (below ++ after))) =
      (.ok (.ofList (collected row below)),
        view.showing (before ++ { row with flags := flags } :: remaining row below after)) := by
  rw [collectThread, collected, remaining]
  cases elided : hasFlag row.flags flagElided with
  | true => exact ⟨row.flags, rfl⟩
  | false =>
    obtain ⟨flags, collapsed⟩ := collapseByIndex_showing before view thread threaded elided
    refine ⟨flags, ?_⟩
    have counted : expansionDelta before.length (view.showing (before ++ row :: (below ++ after))) =
        (.ok (1 + below.length), view.showing (before ++ row :: (below ++ after))) := by
      have start : expansionDelta before.length (view.showing (before ++ row :: (below ++ after))) =
          (if view.viewFlags.threadedDisplay then countExpandedThread before.length else pure 0 :
            ViewM Nat) (view.showing (before ++ row :: (below ++ after))) := rfl
      rw [start, threaded]
      exact countExpandedThread_showing before view thread
    rw [if_neg (by decide), Attempt.bind_eq counted,
      Attempt.bind_eq (threadRows_showing before view thread), Attempt.bind_eq collapsed]
    cases hasFlag row.flags viewFlagHasChildren <;> rfl

lemma addHdr_shown (shown : ignoresHdr env view.viewFlags hdr = false)
    (parts : list = first ++ second)
    (place : getInsertIndex places (view.showing list) hdr = first.length) :
    addHdr (env.placing places) hdr (view.showing list) = (.ok (some first.length),
      view.clearPrevIdArray.showing (first ++ ⟨hdr.messageKey, addedFlags hdr, 0⟩ :: second)) := by
  have added : insertHdr (env.placing places) hdr (view.showing list) = (.ok first.length,
      view.showing (first ++ ⟨hdr.messageKey, addedFlags hdr, 0⟩ :: second)) := by
    have start : insertHdr (env.placing places) hdr (view.showing list) =
        (do
          insertMsgHdrAt (getInsertIndex places (view.showing list) hdr) hdr.messageKey
            (addedFlags hdr) 0
          pure (getInsertIndex places (view.showing list) hdr) : ViewM Nat)
          (view.showing list) := rfl
    rw [start, place, parts, Attempt.bind_eq (insertMsgHdrAt_showing first second
      ⟨hdr.messageKey, addedFlags hdr, 0⟩ view)]
    rfl
  have start : addHdr (env.placing places) hdr (view.showing list) =
      (if ignoresHdr env view.viewFlags hdr then pure none
        else do
          let index ← insertHdr (env.placing places) hdr
          clearPrevIdArray
          pure (some index) : ViewM (Option Nat)) (view.showing list) := rfl
  rw [start, shown, if_neg (by decide), Attempt.bind_eq added]
  rfl

lemma insertChildren_showing (first second) (added : Row) :
    insertChildren (some first.length) (.ofList (collected row below)) row.flags
        (view.showing (first ++ added :: second)) =
      (.ok (), view.showing (first ++ added :: (collected row below ++ second))) := by
  rw [insertChildren, collected]
  cases hasFlag row.flags flagElided with
  | true => rfl
  | false =>
    have inserted := insert?_ofList (first ++ [added]) second below
    rw [length_append, append_assoc, append_assoc, append_assoc] at inserted
    change changeRows (fun rows : Rows => rows.insert? (first.length + 1) (.ofList below))
      (view.showing (first ++ added :: second)) =
        (.ok (), view.showing (first ++ added :: (below ++ second)))
    apply changeRows_showing
    exact inserted

section

variable (thread : ThreadRows row below after) (threaded : view.viewFlags.threadedDisplay = true)
  (found : msgHdrForViewIndex env (view.showing (before ++ row :: (below ++ after))) before.length = some hdr)
include thread threaded found

lemma moveThreadAt_removed :
    moveThreadAt env before.length (view.showing (before ++ row :: (below ++ after))) =
      (do
        let added ← addHdr env hdr
        let found ← Attempt.read fun view : ThreadedView => findHdr view hdr.messageKey false
        insertChildren (added.or found) (.ofList (collected row below)) row.flags
        setFlagsAt ((added.or found).getD 0) row.flags : ViewM Unit)
        (view.showing (before ++ remaining row below after)) := by
  obtain ⟨flags, collects⟩ := collectThread_showing before thread threaded
  have foundHdr : demand (msgHdrForViewIndex env
      (view.showing (before ++ row :: (below ++ after))) before.length)
      (view.showing (before ++ remaining row below after)) =
      (.ok hdr, view.showing (before ++ remaining row below after)) := by
    rw [found]
    rfl
  rw [moveThreadAt, Attempt.read_bind,
    Attempt.bind_eq (flagsAt_showing before (below ++ after) row view), Attempt.bind_eq collects,
    Attempt.bind_eq (removeRow_showing before _ { row with flags := flags } view),
    Attempt.bind_eq foundHdr]

lemma moveThreadAt_shown (key : hdr.messageKey = row.key)
    (shown : ignoresHdr env view.viewFlags hdr = false)
    (parts : before ++ remaining row below after = first ++ second) (place : getInsertIndex places
      (view.showing (before ++ remaining row below after)) hdr = first.length) :
    moveThreadAt (env.placing places) before.length
        (view.showing (before ++ row :: (below ++ after))) =
      (.ok (), view.clearPrevIdArray.showing
        (first ++ row :: (collected row below ++ second))) := by
  have foundToo : msgHdrForViewIndex (env.placing places)
      (view.showing (before ++ row :: (below ++ after))) before.length = some hdr := found
  rw [moveThreadAt_removed thread threaded foundToo,
    Attempt.bind_eq (addHdr_shown shown parts place), Attempt.read_bind]
  have same : { (⟨hdr.messageKey, addedFlags hdr, 0⟩ : Row) with flags := row.flags } = row := by
    rw [key, ← thread.top]
  have flagged := setFlagsAt_showing first (collected row below ++ second)
    ⟨hdr.messageKey, addedFlags hdr, 0⟩ view.clearPrevIdArray row.flags
  rw [same] at flagged
  exact (Attempt.bind_eq (insertChildren_showing first second _)).trans flagged

end

lemma findHdr_missing (missing : key ∉ view.rows.keys) (allowDummy : Bool) :
    findHdr view key allowDummy = none := by
  have notFound : indexOfKey view key 0 = none := by
    rw [indexOfKey, drop_zero, findIdx?_eq_none_iff.mpr]
    · rfl
    · intro other mem
      rw [beq_eq_false_iff_ne]
      rintro rfl
      exact missing mem
  rw [findHdr, notFound]

lemma mem_collected (mem : child ∈ collected row below) : child ∈ below := by
  rw [collected] at mem
  split at mem
  · cases mem
  · exact mem

lemma mem_remaining (mem : other ∈ remaining row below after) : other ∈ below ++ after := by
  rw [remaining] at mem
  split at mem
  · exact mem
  · exact mem_append_right _ mem

lemma notMem_rest (distinct : ((before ++ row :: (below ++ after)).map Row.key).Nodup) :
    row.key ∉ (collected row below ++ (before ++ remaining row below after)).map Row.key := by
  rw [map_append, map_cons, nodup_middle, ← map_append] at distinct
  intro mem
  obtain ⟨other, inRest, same⟩ := mem_map.mp mem
  apply (nodup_cons.mp distinct).1
  refine mem_map.mpr ⟨other, ?_, same⟩
  rcases mem_append.mp inRest with isCollected | others
  · exact mem_append_right _ (mem_append_left _ (mem_collected isCollected))
  · rcases mem_append.mp others with isBefore | isLeft
    · exact mem_append_left _ isBefore
    · exact mem_append_right _ (mem_remaining isLeft)

/-- The header of the thread is not shown: its row is lost, and another row gets its flags. -/
theorem moveThreadAt_ignored (thread : ThreadRows row below after)
    (threaded : view.viewFlags.threadedDisplay = true)
    (distinct : ((before ++ row :: (below ++ after)).map Row.key).Nodup)
    (found : msgHdrForViewIndex env (view.showing (before ++ row :: (below ++ after)))
      before.length = some hdr)
    (key : hdr.messageKey = row.key) (ignored : ignoresHdr env view.viewFlags hdr = true) :
    moveThreadAt (env.placing places) before.length
        (view.showing (before ++ row :: (below ++ after))) =
      setFlagsAt 0 row.flags
        (view.showing (collected row below ++ (before ++ remaining row below after))) := by
  have foundToo : msgHdrForViewIndex (env.placing places)
      (view.showing (before ++ row :: (below ++ after))) before.length = some hdr := found
  have notAdded : addHdr (env.placing places) hdr
      (view.showing (before ++ remaining row below after)) =
      (.ok none, view.showing (before ++ remaining row below after)) := by
    have start : addHdr (env.placing places) hdr
        (view.showing (before ++ remaining row below after)) =
        (if ignoresHdr env view.viewFlags hdr then pure none
          else do
            let index ← insertHdr (env.placing places) hdr
            clearPrevIdArray
            pure (some index) : ViewM (Option Nat))
          (view.showing (before ++ remaining row below after)) := rfl
    rw [start, ignored]
    rfl
  have missing : findHdr (view.showing (before ++ remaining row below after)) hdr.messageKey false =
      none := by
    apply findHdr_missing
    intro mem
    rw [key] at mem
    apply notMem_rest distinct
    rw [map_append]
    exact mem_append_right _ mem
  rw [moveThreadAt_removed thread threaded foundToo, Attempt.bind_eq notAdded, Attempt.read_bind,
    missing]
  have inserted : insertChildren (none.or none) (.ofList (collected row below)) row.flags
      (view.showing (before ++ remaining row below after)) =
      (.ok (), view.showing (collected row below ++ (before ++ remaining row below after))) := by
    rw [insertChildren, collected]
    cases hasFlag row.flags flagElided with
    | true => rfl
    | false =>
      change changeRows (fun rows : Rows => rows.insert? 0 (.ofList below)) _ = _
      apply changeRows_showing
      exact insert?_ofList [] (before ++ remaining row below after) below
  exact Attempt.bind_eq inserted

/-- A message that has a row needs no thread to be expanded. -/
theorem expandToKey_shown (env : ViewEnv)
    (noDummies : ∀ row ∈ list, hasFlag row.flags viewFlagDummy = false)
    (shown : key ∈ list.map Row.key) :
    expandToKey env key (view.showing list) = (.ok (), view.showing list) := by
  obtain ⟨position, found⟩ : ∃ position,
      (list.map Row.key).findIdx? (· == key) = some position := by
    rw [← Option.isSome_iff_exists, findIdx?_isSome, any_eq_true]
    exact ⟨key, shown, beq_self_eq_true key⟩
  have within := (findIdx?_eq_some_iff_getElem.mp found).1
  rw [length_map] at within
  have here : indexOfKey (view.showing list) key 0 = some position := by
    change ((list.map Row.key).findIdx? (· == key)).map (0 + ·) = some position
    rw [found, Option.map_some, Nat.zero_add]
  have notDummy : hasFlag ((view.showing list).rows.flags.getD position 0) viewFlagDummy =
      false := by
    change hasFlag ((list.map Row.flags).getD position 0) viewFlagDummy = false
    rw [getD_eq_getElem?_getD, getElem?_map, getElem?_eq_getElem within]
    exact noDummies _ (getElem_mem within)
  rw [expandToKey, Attempt.read_bind, here, Option.any_some]
  simp only [notDummy, Bool.not_false, Bool.true_or, if_true]
  rfl

lemma restoreSelection_shown (env)
    (noDummies : ∀ row ∈ list, hasFlag row.flags viewFlagDummy = false) (keys)
    (shown : ∀ key ∈ keys, key ∈ list.map Row.key) :
    restoreSelection env keys (view.showing list) = (.ok (), view.showing list) := by
  induction keys with
  | nil => rfl
  | cons key rest ih =>
    rw [restoreSelection,
      Attempt.bind_eq (expandToKey_shown env noDummies (shown key mem_cons_self))]
    exact ih fun other mem => shown other (mem_cons_of_mem _ mem)

lemma Selection.keys_shown (selection : Selection) (list : List Row) :
    ∀ key ∈ selection.keys (view.showing list), key ∈ list.map Row.key := by
  intro key mem
  obtain ⟨position, -, found⟩ := mem_filterMap.mp mem
  exact mem_of_getElem? found

lemma ThreadMoved.mem_iff (thread : ThreadRows row below after)
    (moved : ThreadMoved (before ++ row :: (below ++ after)) later before.length) (other : Row) :
    other ∈ later ↔ other ∈ before ++ row :: (below ++ after) := by
  obtain ⟨first, second, parts, -, rfl⟩ := (threadMoved_iff thread later).mp moved
  have others : other ∈ before ∨ other ∈ after ↔ other ∈ first ∨ other ∈ second := by
    rw [← mem_append, parts, mem_append]
  simp only [mem_append, mem_cons]
  tauto

/-- The selection changes nothing of what became of the rows. -/
theorem movesThread_of_moved {last : ThreadedView} (thread : ThreadRows row below after) (noDummies
      : ∀ other ∈ before ++ row :: (below ++ after), hasFlag other.flags viewFlagDummy = false) (ran
      : moveThreadAt env before.length (view.showing (before ++ row :: (below ++ after))) = (.ok (),
      last.showing later))
    (moved : ThreadMoved (before ++ row :: (below ++ after)) later before.length) :
    MovesThread env (view.showing (before ++ row :: (below ++ after))) before.length := by
  intro selection
  have same := moved.mem_iff thread
  refine ⟨last.showing later, later, ?_, rfl, ?_⟩
  · rw [moveThread, Attempt.read_bind, Attempt.bind_eq ran]
    apply restoreSelection_shown
    · exact fun other mem => noDummies other ((same other).mp mem)
    · intro key mem
      obtain ⟨other, isShown, rfl⟩ := mem_map.mp (selection.keys_shown _ key mem)
      exact mem_map.mpr ⟨other, (same other).mpr isShown, rfl⟩
  · change ThreadMoved (Rows.ofList _).entries later before.length
    rw [Rows.entries_ofList]
    exact moved

/-- Without a selection there is only the move. -/
theorem MovesThread.moved (moves : MovesThread env (view.showing list) index) :
    ∃ later after, moveThreadAt env index (view.showing list) = (.ok (), later) ∧
      later.rows = .ofList after ∧ ThreadMoved list after index := by
  obtain ⟨later, after, ran, rows, moved⟩ := moves {}
  rw [moveThread, Attempt.read_bind] at ran
  obtain ⟨_, last, moveRan, rest⟩ := Attempt.bind_ok ran
  cases rest
  change ThreadMoved (Rows.ofList list).entries after index at moved
  rw [Rows.entries_ofList] at moved
  exact ⟨_, after, moveRan, rows, moved⟩

/-- The header goes before a row of level 0, before all rows or after them. -/
theorem exists_place (places : PlaceEnv) (hdr : RowHdr)
    (threaded : view.viewFlags.threadedDisplay = true)
    (notGrouped : view.viewFlags.groupBySort = false) (list : List Row) :
    ∃ first second, list = first ++ second ∧
      getInsertIndex places (view.showing list) hdr = first.length ∧
      ∀ other ∈ second.head?, first = [] ∨ other.level = 0 := by
  have inStep : (view.showing list).rows.InStep := Rows.ofList_inStep list
  have start := getInsertIndex_threadStart places hdr inStep threaded notGrouped
  generalize getInsertIndex places (view.showing list) hdr = place at start ⊢
  have levels : (view.showing list).rows.levels = list.map Row.level := rfl
  rw [levels] at start
  have within := start.le
  rw [length_map] at within
  refine ⟨list.take place, list.drop place, (take_append_drop _ _).symm,
    (length_take_of_le within).symm, ?_⟩
  intro other head
  rw [head?_drop] at head
  rcases start with last | ⟨-, first | top⟩
  · rw [last, length_map, getElem?_eq_none (Nat.le_refl _)] at head
    cases head
  · rw [first, take_zero]
    exact .inl rfl
  · have level : (list.map Row.level).getD place 0 = other.level := by
      rw [getD_eq_getElem?_getD, getElem?_map, head]
      rfl
    exact .inr (level.symm.trans top)

section

variable (thread : ThreadRows row below after)
include thread

lemma threadMoved_of_whole
    (top : ∀ other ∈ (before ++ row :: (below ++ after)).head?, other.level = 0)
    (parts : before ++ after = first ++ second)
    (start : ∀ other ∈ second.head?, first = [] ∨ other.level = 0) :
    ThreadMoved (before ++ row :: (below ++ after)) (first ++ row :: (below ++ second))
      before.length := by
  refine (threadMoved_iff thread _).mpr ⟨first, second, parts, ?_, rfl⟩
  intro other head
  rcases start other head with none | isTop
  · rw [none, nil_append] at parts
    cases before with
    | nil =>
      rw [← parts] at head
      exact thread.next other head
    | cons earlier before =>
      rw [← parts] at head
      exact top other head
  · exact isTop

/-- The first row alone is taken out: it has to come back to its place. -/
theorem threadMoved_alone_iff (distinct : ((before ++ row :: (below ++ after)).map Row.key).Nodup)
    (shown : below ≠ []) (parts : before ++ (below ++ after) = first ++ second) :
    ThreadMoved (before ++ row :: (below ++ after)) (first ++ row :: second) before.length ↔
      first.length = before.length := by
  have distinctRows : (before ++ row :: (below ++ after)).Nodup := List.Nodup.of_map _ distinct
  rw [nodup_middle, nodup_cons, parts] at distinctRows
  constructor
  · intro moved
    obtain ⟨earlier, later, -, -, same⟩ := (threadMoved_iff thread _).mp moved
    have notFirst : row ∉ first := fun mem => distinctRows.1 (mem_append_left _ mem)
    have notSecond : row ∉ second := fun mem => distinctRows.1 (mem_append_right _ mem)
    obtain ⟨sameFirst, -, sameRest⟩ := (append_cons_inj_of_notMem notFirst notSecond).mp same
    cases below with
    | nil => exact absurd rfl shown
    | cons child below =>
      have childOnce := distinctRows.2
      rw [← parts, cons_append, nodup_middle, nodup_cons] at childOnce
      have notBefore : child ∉ before := fun mem => childOnce.1 (mem_append_left _ mem)
      have notAfter : child ∉ below ++ after := fun mem => childOnce.1 (mem_append_right _ mem)
      rw [sameRest, sameFirst] at parts
      obtain ⟨sameBefore, -⟩ := (append_cons_inj_of_notMem notBefore notAfter).mp parts
      rw [sameFirst, sameBefore]
  · intro same
    obtain ⟨rfl, rfl⟩ := append_inj parts same.symm
    exact (threadMoved_iff thread _).mpr ⟨before, after, rfl, thread.next, rfl⟩

lemma suitsMove_showing_iff :
    SuitsMove env places (view.showing (before ++ row :: (below ++ after))) before.length ↔
      (∃ hdr, msgHdrForViewIndex env (view.showing (before ++ row :: (below ++ after)))
        before.length = some hdr ∧ ignoresHdr env view.viewFlags hdr = false) ∧
      (hasFlag row.flags flagElided = false → below ≠ [] →
        hasFlag row.flags viewFlagHasChildren = true) ∧
      (hasFlag row.flags flagElided = true → below ≠ [] → before = [] ∧
        ∀ hdr, msgHdrForViewIndex env (view.showing (before ++ row :: (below ++ after)))
          before.length = some hdr →
          getInsertIndex places (view.showing (below ++ after)) hdr = 0) := by
  have flags : (view.showing (before ++ row :: (below ++ after))).rows.flags.getD before.length 0 =
      row.flags := by
    change ((before ++ row :: (below ++ after)).map Row.flags).getD before.length 0 = row.flags
    rw [getD_eq_getElem?_getD, getElem?_map, getElem?_append_right (Nat.le_refl _),
      Nat.sub_self]
    rfl
  have entries : (view.showing (before ++ row :: (below ++ after))).rows.entries =
      before ++ row :: (below ++ after) := Rows.entries_ofList _
  have shown : 1 < (row :: below).length ↔ below ≠ [] := by
    rw [length_cons, Nat.lt_add_left_iff_pos, length_pos_iff]
  have place : (before.length = 0 ∧ ∀ hdr,
        msgHdrForViewIndex env (view.showing (before ++ row :: (below ++ after))) before.length =
          some hdr →
        getInsertIndex places (view.showing (before ++ row :: (below ++ after)).tail) hdr = 0) ↔
      before = [] ∧ ∀ hdr,
        msgHdrForViewIndex env (view.showing (before ++ row :: (below ++ after))) before.length =
          some hdr →
        getInsertIndex places (view.showing (below ++ after)) hdr = 0 := by
    rw [length_eq_zero_iff]
    refine and_congr_right fun first => ?_
    rw [first]
    exact Iff.rfl
  constructor
  · rintro ⟨hdr, expanded, collapsed⟩
    rw [flags, entries, threadAt_eq thread, shown] at expanded collapsed
    exact ⟨hdr, expanded, fun elided isShown => place.mp (collapsed elided isShown)⟩
  · rintro ⟨hdr, expanded, collapsed⟩
    refine ⟨hdr, ?_, ?_⟩
    · rw [flags, entries, threadAt_eq thread, shown]
      exact expanded
    · rw [flags, entries, threadAt_eq thread, shown]
      exact fun elided isShown => place.mpr (collapsed elided isShown)

end

lemma setFlagsAt_keys (ran : setFlagsAt index flags view = (.ok (), later)) :
    later.rows.keys = view.rows.keys := by
  rw [setFlagsAt, changeRows] at ran
  cases changed : view.rows.setFlags? index flags with
  | none =>
    rw [changed] at ran
    cases ran
  | some rows =>
    rw [changed] at ran
    cases ran
    obtain ⟨newFlags, -, same⟩ := Option.bind_eq_some_iff.mp changed
    cases same
    rfl

lemma moveThreadAt_missing (thread : ThreadRows row below after)
    (threaded : view.viewFlags.threadedDisplay = true) (missing : msgHdrForViewIndex env
      (view.showing (before ++ row :: (below ++ after))) before.length = none) :
    moveThreadAt env before.length (view.showing (before ++ row :: (below ++ after))) ≠
      (.ok (), later) := by
  obtain ⟨flags, collects⟩ := collectThread_showing before thread threaded
  rw [moveThreadAt, Attempt.read_bind,
    Attempt.bind_eq (flagsAt_showing before (below ++ after) row view), Attempt.bind_eq collects,
    Attempt.bind_eq (removeRow_showing before _ { row with flags := flags } view), missing]
  rintro ⟨⟩

lemma threadMoved_collected_iff (thread : ThreadRows row below after)
    (distinct : ((before ++ row :: (below ++ after)).map Row.key).Nodup)
    (top : ∀ other ∈ (before ++ row :: (below ++ after)).head?, other.level = 0)
    (parts : before ++ remaining row below after = first ++ second)
    (start : ∀ other ∈ second.head?, first = [] ∨ other.level = 0) :
    ThreadMoved (before ++ row :: (below ++ after))
        (first ++ row :: (collected row below ++ second)) before.length ↔
      (hasFlag row.flags flagElided = false → below ≠ [] →
        hasFlag row.flags viewFlagHasChildren = true) ∧
      (hasFlag row.flags flagElided = true → below ≠ [] → before = [] ∧ first = []) := by
  by_cases shown : below = []
  · have kept : remaining row below after = after := by
      rw [remaining, shown, nil_append, ite_self]
    have all : collected row below = below := by
      rw [collected, shown, ite_self]
    rw [kept] at parts
    rw [all]
    exact iff_of_true (threadMoved_of_whole thread top parts start)
      ⟨fun _ isShown => absurd shown isShown, fun _ isShown => absurd shown isShown⟩
  · unfold collected remaining at *
    cases elided : hasFlag row.flags flagElided with
    | true =>
      rw [elided] at parts
      refine (threadMoved_alone_iff thread distinct shown parts).trans ?_
      constructor
      · intro same
        refine ⟨Bool.noConfusion, fun _ _ => ?_⟩
        obtain ⟨sameBefore, sameRest⟩ := append_inj parts same.symm
        obtain ⟨child, others, isShown⟩ := exists_cons_of_ne_nil shown
        rw [← sameRest, isShown] at start
        rcases start child rfl with none | isTop
        · exact ⟨sameBefore.trans none, none⟩
        · exact absurd isTop (thread.deeper child (isShown ▸ mem_cons_self))
      · rintro ⟨-, collapsed⟩
        obtain ⟨noBefore, none⟩ := collapsed rfl shown
        rw [noBefore, none]
    | false =>
      cases hasChildren : hasFlag row.flags viewFlagHasChildren with
      | true =>
        rw [elided, hasChildren] at parts
        exact iff_of_true (threadMoved_of_whole thread top parts start)
          ⟨fun _ _ => rfl, fun elided => Bool.noConfusion elided⟩
      | false =>
        rw [elided, hasChildren] at parts
        refine iff_of_false ?_ fun suits => Bool.noConfusion (suits.1 rfl shown)
        intro moved
        obtain ⟨earlier, later, others, -, same⟩ := (threadMoved_iff thread _).mp moved
        -- The rows below the first one are in the view twice.
        have left := congrArg List.length parts
        have right := congrArg List.length others
        have lengths := congrArg List.length same
        have nonempty := length_pos_iff.mpr shown
        simp only [length_append, length_cons, Bool.false_or, Bool.not_false, if_true,
          Bool.false_eq_true, if_false] at left right lengths
        omega

lemma movesThread_showing_iff (places : PlaceEnv) (thread : ThreadRows row below after)
    (threaded : view.viewFlags.threadedDisplay = true)
    (notGrouped : view.viewFlags.groupBySort = false)
    (distinct : ((before ++ row :: (below ++ after)).map Row.key).Nodup)
    (top : ∀ other ∈ (before ++ row :: (below ++ after)).head?, other.level = 0)
    (noDummies : ∀ other ∈ before ++ row :: (below ++ after),
      hasFlag other.flags viewFlagDummy = false)
    (keyed : ∀ key hdr, env.msgHdrForKey key = some hdr → hdr.messageKey = key) :
    MovesThread (env.placing places) (view.showing (before ++ row :: (below ++ after)))
        before.length ↔
      SuitsMove env places (view.showing (before ++ row :: (below ++ after))) before.length := by
  rw [suitsMove_showing_iff thread]
  cases found : msgHdrForViewIndex env (view.showing (before ++ row :: (below ++ after)))
    before.length with
  | none =>
    refine iff_of_false ?_ ?_
    · intro moves
      obtain ⟨later, last, ran, -⟩ := moves.moved
      have missing : msgHdrForViewIndex (env.placing places)
          (view.showing (before ++ row :: (below ++ after))) before.length = Option.none := found
      exact moveThreadAt_missing thread threaded missing ran
    · rintro ⟨⟨hdr, none, -⟩, -⟩
      cases none
  | some hdr =>
    have key : hdr.messageKey = row.key := by
      obtain ⟨key, here, isHdr⟩ := Option.bind_eq_some_iff.mp found
      change ((before ++ row :: (below ++ after)).map Row.key)[before.length]? = some key at here
      rw [getElem?_map, getElem?_append_right (Nat.le_refl _), Nat.sub_self] at here
      cases here
      split at isHdr
      · cases isHdr
      · exact keyed _ _ isHdr
    cases ignored : ignoresHdr env view.viewFlags hdr with
    | true =>
      refine iff_of_false ?_ ?_
      · intro moves
        obtain ⟨later, last, ran, rows, moved⟩ := moves.moved
        rw [moveThreadAt_ignored thread threaded distinct found key ignored] at ran
        have keys := setFlagsAt_keys ran
        have isShown := (moved.mem_iff thread row).mpr
          (mem_append_right _ mem_cons_self)
        rw [rows] at keys
        apply notMem_rest distinct
        change last.map Row.key = List.map Row.key _ at keys
        rw [← keys]
        exact mem_map_of_mem isShown
      · rintro ⟨⟨other, same, shown⟩, -⟩
        cases same
        rw [ignored] at shown
        cases shown
    | false =>
      obtain ⟨first, second, parts, place, start⟩ :=
        exists_place places hdr threaded notGrouped (before ++ remaining row below after)
      have ran := moveThreadAt_shown thread threaded found key ignored parts place
      have moves_iff : MovesThread (env.placing places)
          (view.showing (before ++ row :: (below ++ after))) before.length ↔
          ThreadMoved (before ++ row :: (below ++ after))
            (first ++ row :: (collected row below ++ second)) before.length := by
        constructor
        · intro moves
          obtain ⟨later, last, ranToo, rows, moved⟩ := moves.moved
          rw [ran] at ranToo
          cases ranToo
          have same := congrArg Rows.entries rows
          change (Rows.ofList _).entries = _ at same
          rw [Rows.entries_ofList, Rows.entries_ofList] at same
          rw [same]
          exact moved
        · exact movesThread_of_moved thread noDummies ran
      rw [moves_iff, threadMoved_collected_iff thread distinct top parts start]
      have alone (elided : hasFlag row.flags flagElided = true) (noBefore : before = []) :
          getInsertIndex places (view.showing (below ++ after)) hdr = first.length := by
        rw [remaining, elided, noBefore] at place
        exact place
      constructor
      · rintro ⟨expanded, collapsed⟩
        refine ⟨⟨hdr, rfl, ignored⟩, expanded, fun elided isShown => ?_⟩
        obtain ⟨noBefore, atStart⟩ := collapsed elided isShown
        refine ⟨noBefore, fun other same => ?_⟩
        cases same
        rw [alone elided noBefore, atStart]
        rfl
      · rintro ⟨-, expanded, collapsed⟩
        refine ⟨expanded, fun elided isShown => ?_⟩
        obtain ⟨noBefore, placed⟩ := collapsed elided isShown
        have atStart := placed hdr rfl
        rw [alone elided noBefore] at atStart
        exact ⟨noBefore, eq_nil_of_length_eq_zero atStart⟩

/-- Moving a thread moves its rows and nothing else in exactly the views that suit it. -/
theorem movesThread_iff (env : ViewEnv) (places : PlaceEnv) (state : Threaded view)
    (keyed : ∀ key hdr, env.msgHdrForKey key = some hdr → hdr.messageKey = key)
    (isTop : view.rows.levels[index]? = some 0) :
    MovesThread (env.placing places) view index ↔ SuitsMove env places view index := by
  obtain ⟨before, row, below, after, rfl, entries, thread⟩ := exists_threadRows state.inStep isTop
  have rows : Rows.ofList (before ++ row :: (below ++ after)) = view.rows := by
    rw [← entries]
    exact state.inStep.ofList_entries
  have same : view.showing (before ++ row :: (below ++ after)) = view := by
    rw [ThreadedView.showing, rows]
  have distinct := state.distinct
  have top := state.top
  have noDummies := state.noDummies
  rw [← rows] at distinct top noDummies
  have result := movesThread_showing_iff places thread state.threaded state.notGrouped distinct
    ?_ ?_ keyed
  · rw [same] at result
    exact result
  · intro other head
    apply top
    change other.level ∈ ((before ++ row :: (below ++ after)).map Row.level).head?
    rw [head?_map, head]
    rfl
  · exact fun other mem => noDummies _ (mem_map_of_mem mem)

end

def datedHdr (hdr : RowHdr) : MsgHdr where
  messageKey := UInt32.ofNat hdr.messageKey
  flags := hdr.flags
  lineCount := 0
  messageSize := 0
  priority := 1
  junkscore := ""
  dateInSeconds := UInt32.ofNat hdr.dateInSeconds
  dateReceived := 0
  threadNewestMsgDate := none
  subjectCollationKey := none
  locationName := none
  recipients := none
  author := none
  account := none
  tags := none
  isOutgoingMsg := false

def samplePlaces : PlaceEnv where
  columns := byIdView .ascending
  collation := byteCollation
  folder := ⟨fun key => (threeMessages.find? fun hdr => hdr.messageKey == key.toNat).map datedHdr⟩
  colHandler := none
  sortHdr := datedHdr
  unset := fun _ => 0

/-- An expanded thread of three messages. -/
def expandedView : ThreadedView :=
  { ThreadedView.new { threadedDisplay := true } .byDate .ascending with
    rows := .ofList
      [⟨1, viewFlagIsThread ||| viewFlagHasChildren, 0⟩, ⟨2, flagRead, 1⟩, ⟨3, 0, 2⟩] }

lemma threaded_expandedView : Threaded expandedView := by
  refine ⟨⟨rfl, rfl⟩, rfl, rfl, ?_, ?_, ?_⟩
  · decide
  · decide
  · decide

theorem movesThread_expanded :
    MovesThread ((sampleEnv threeMessages threeMessages).placing samplePlaces) expandedView 0 := by
  refine (movesThread_iff (sampleEnv threeMessages threeMessages) samplePlaces
    threaded_expandedView ?_ rfl).mpr ?_
  · intro key hdr found
    have isKey : (hdr.messageKey == key) = true :=
      find?_some (p := fun hdr : RowHdr => hdr.messageKey == key) found
    exact beq_iff_eq.mp isKey
  · refine ⟨⟨sampleHdr 1 nsMsgKey_None false, rfl, rfl⟩, fun _ _ => rfl, fun elided => ?_⟩
    exact absurd elided (by decide)

def ignoredEnv : ViewEnv :=
  { sampleEnv threeMessages threeMessages with
    threadContaining := fun _ =>
      some (some { sampleThread threeMessages with flags := flagIgnored }) }

/-- The first row of an ignored thread is lost, and its flags go to the first reply. -/
theorem movesThread_ignored : Threaded expandedView ∧
    (moveThread (ignoredEnv.placing samplePlaces) {} 0 expandedView).2.rows =
      .ofList [⟨2, viewFlagIsThread ||| viewFlagHasChildren, 1⟩, ⟨3, 0, 2⟩] ∧
    ¬ MovesThread (ignoredEnv.placing samplePlaces) expandedView 0 := by
  have rows : (moveThread (ignoredEnv.placing samplePlaces) {} 0 expandedView).2.rows =
      .ofList [⟨2, viewFlagIsThread ||| viewFlagHasChildren, 1⟩, ⟨3, 0, 2⟩] := by
    decide +kernel
  refine ⟨threaded_expandedView, rows, ?_⟩
  intro moves
  obtain ⟨later, last, ran, laterRows, first, second, -, -, moved⟩ := moves {}
  rw [ran] at rows
  have two : (Rows.ofList last).entries.length = 2 := by
    rw [← laterRows, rows, Rows.entries_ofList]
    rfl
  have three : (threadAt expandedView.rows.entries 0).length = 3 := rfl
  rw [Rows.entries_ofList, moved, length_append, length_append, three] at two
  omega

end CommCentral.View
