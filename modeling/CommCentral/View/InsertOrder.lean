import CommCentral.View.InsertIndex

/-! A header that is put where the search says keeps a sorted message list sorted: the first rows of
the threads, or all rows of a flat list, in one folder or in several. -/
namespace CommCentral.View

open Lib List Option

/-- The rows that count compare with the header, and those it belongs after come first. -/
structure Comparable (counts : Nat → Prop) (trial : Nat → Option Int) (size : Nat) : Prop where
  decides : ∀ row < size, counts row → ∃ retStatus, trial row = some retStatus ∧ retStatus ≠ 0
  monotone : ∀ row < size, ∀ later < size, row < later → counts row → counts later →
    (∃ retStatus > 0, trial later = some retStatus) → ∃ retStatus > 0, trial row = some retStatus

/-- The header belongs after the rows before the index. -/
def Above (counts : Nat → Prop) (trial : Nat → Option Int) (index : Nat) : Prop :=
  ∀ row < index, counts row → ∃ retStatus > 0, trial row = some retStatus

/-- The header belongs before the rows from the index on. -/
def Below (counts : Nat → Prop) (trial : Nat → Option Int) (size index : Nat) : Prop :=
  ∀ row < size, index ≤ row → counts row → ∃ retStatus < 0, trial row = some retStatus

section Search

variable {counts : Nat → Prop} {trial : Nat → Option Int} {size : Nat}
  (comparable : Comparable counts trial size)
include comparable

lemma Comparable.above (within : row < size) (counted : counts row)
    (greater : ∃ retStatus > 0, trial row = some retStatus) : Above counts trial (row + 1) := by
  intro earlier before earlierCounts
  rcases Nat.lt_succ_iff_lt_or_eq.mp before with less | same
  · exact comparable.monotone earlier (less.trans within) row within less earlierCounts counted
      greater
  · exact same ▸ greater

lemma Comparable.below (within : row < size) (counted : counts row)
    (less : ∃ retStatus < 0, trial row = some retStatus) : Below counts trial size row := by
  intro later laterWithin notBefore laterCounts
  obtain ⟨retStatus, found, nonzero⟩ := comparable.decides later laterWithin laterCounts
  by_cases negative : retStatus < 0
  · exact ⟨retStatus, negative, found⟩
  · have positive : retStatus > 0 := by omega
    obtain ⟨other, smaller, isOther⟩ := less
    rcases Nat.lt_or_eq_of_le notBefore with after | same
    · obtain ⟨again, greater, isAgain⟩ := comparable.monotone row within later laterWithin after
        counted laterCounts ⟨retStatus, positive, found⟩
      rw [isOther] at isAgain
      cases isAgain
      omega
    · subst same
      rw [isOther] at found
      cases found
      omega

lemma Comparable.searchRows (all : ∀ row, counts row) (enough : highIndex - lowIndex ≤ steps)
    (inside : highIndex ≤ size) (low : Above counts trial lowIndex)
    (high : Below counts trial size highIndex) :
    searchRows trial steps lowIndex highIndex ≤ size ∧
      Above counts trial (searchRows trial steps lowIndex highIndex) ∧
      Below counts trial size (searchRows trial steps lowIndex highIndex) := by
  induction steps generalizing lowIndex highIndex with
  | zero =>
    rw [View.searchRows]
    exact ⟨inside, fun row before => low row (by omega), high⟩
  | succ steps ih =>
    rw [View.searchRows]
    by_cases apart : lowIndex < highIndex
    · rw [if_pos apart]
      dsimp only
      generalize middleEq : (lowIndex + highIndex - 1) / 2 = tryIndex
      have tryInside : tryIndex < size := by omega
      obtain ⟨retStatus, found, nonzero⟩ := comparable.decides tryIndex tryInside (all tryIndex)
      rw [found]
      dsimp only
      rw [if_neg nonzero]
      by_cases negative : retStatus < 0
      · rw [if_pos negative]
        exact ih (by omega) (by omega) low
          (comparable.below tryInside (all tryIndex) ⟨retStatus, negative, found⟩)
      · rw [if_neg negative]
        exact ih (by omega) inside
          (comparable.above tryInside (all tryIndex) ⟨retStatus, by omega, found⟩) high
    · rw [if_neg apart]
      exact ⟨inside, fun row before => low row (by omega), high⟩

end Search

variable {levels : List UInt8}

/-- The first row of a thread that is not before another one is not slid back past it. -/
theorem le_threadTop (first : levels.getD lowIndex 0 = 0) (order : lowIndex ≤ tryIndex) :
    lowIndex ≤ threadTop levels tryIndex := by
  induction tryIndex with
  | zero => exact order
  | succ tryIndex ih =>
    rw [threadTop]
    split
    · exact order
    · rename_i child
      rcases Nat.le_succ_iff.mp order with less | same
      · exact ih less
      · subst same
        exact absurd first child

lemma threadTop_level (first : levels.getD 0 0 = 0) (tryIndex : Nat) :
    levels.getD (threadTop levels tryIndex) 0 = 0 := by
  induction tryIndex with
  | zero => exact first
  | succ tryIndex ih =>
    rw [threadTop]
    split
    · rename_i top
      exact top
    · exact ih

/-- The rows below the first one of a thread, and the row after them. -/
theorem takeWhile_children (levels : List UInt8) :
    levels.getD (levels.takeWhile (· != 0)).length 0 = 0 ∧
      ∀ row < (levels.takeWhile (· != 0)).length, levels.getD row 0 ≠ 0 := by
  induction levels with
  | nil => exact ⟨rfl, nofun⟩
  | cons level rest ih =>
    by_cases top : level = 0
    · subst top
      exact ⟨rfl, nofun⟩
    · rw [takeWhile_cons_of_pos (by simpa using top), length_cons]
      refine ⟨ih.1, ?_⟩
      intro row before
      cases row with
      | zero => exact top
      | succ row => exact ih.2 row (Nat.lt_of_succ_lt_succ before)

/-- Sliding forward over children ends where a thread starts, and passes no such row. -/
theorem slideForward (levels : List UInt8) (start : Nat) :
    levels.getD (start + ((levels.drop start).takeWhile (· != 0)).length) 0 = 0 ∧
      ∀ row, start ≤ row → row < start + ((levels.drop start).takeWhile (· != 0)).length →
        levels.getD row 0 ≠ 0 := by
  obtain ⟨next, children⟩ := takeWhile_children (levels.drop start)
  rw [getD_eq_getElem?_getD, getElem?_drop, ← getD_eq_getElem?_getD] at next
  refine ⟨next, ?_⟩
  intro row notBefore before
  have child := children (row - start) (by omega)
  rw [getD_eq_getElem?_getD, getElem?_drop, ← getD_eq_getElem?_getD,
    Nat.add_sub_cancel' notBefore] at child
  exact child

lemma Comparable.searchThreads {trial : Nat → Option Int}
    (comparable : Comparable (fun row => levels.getD row 0 = 0) trial levels.length)
    (first : levels.getD 0 0 = 0) (enough : highIndex - lowIndex ≤ steps)
    (inside : highIndex ≤ levels.length) (lowStart : levels.getD lowIndex 0 = 0)
    (highStart : levels.getD highIndex 0 = 0)
    (low : Above (fun row => levels.getD row 0 = 0) trial lowIndex)
    (high : Below (fun row => levels.getD row 0 = 0) trial levels.length highIndex) :
    View.searchThreads levels trial steps lowIndex highIndex ≤ levels.length ∧
      levels.getD (View.searchThreads levels trial steps lowIndex highIndex) 0 = 0 ∧
      Above (fun row => levels.getD row 0 = 0) trial
        (View.searchThreads levels trial steps lowIndex highIndex) ∧
      Below (fun row => levels.getD row 0 = 0) trial levels.length
        (View.searchThreads levels trial steps lowIndex highIndex) := by
  induction steps generalizing lowIndex highIndex with
  | zero =>
    rw [View.searchThreads]
    exact ⟨inside, highStart, fun row before => low row (by omega), high⟩
  | succ steps ih =>
    rw [View.searchThreads]
    by_cases apart : lowIndex < highIndex
    · rw [if_pos apart]
      have tryTop := threadTop_level first ((lowIndex + highIndex) / 2)
      have notAbove := threadTop_le levels ((lowIndex + highIndex) / 2)
      have notBelow : lowIndex ≤ threadTop levels ((lowIndex + highIndex) / 2) :=
        le_threadTop lowStart (by omega)
      dsimp only
      generalize threadTop levels ((lowIndex + highIndex) / 2) = tryIndex at *
      have tryInside : tryIndex < levels.length := by omega
      obtain ⟨retStatus, found, nonzero⟩ := comparable.decides tryIndex tryInside tryTop
      rw [if_neg (by omega), found]
      dsimp only
      rw [if_neg nonzero]
      by_cases negative : retStatus < 0
      · rw [if_pos negative]
        exact ih (by omega) (by omega) lowStart tryTop low
          (comparable.below tryInside tryTop ⟨retStatus, negative, found⟩)
      · rw [if_neg negative]
        obtain ⟨nextTop, children⟩ := slideForward levels (tryIndex + 1)
        have above := comparable.above tryInside tryTop ⟨retStatus, by omega, found⟩
        apply ih (by omega) inside nextTop highStart _ high
        intro row before isTop
        by_cases beforeTry : row < tryIndex + 1
        · exact above row beforeTry isTop
        · exact absurd isTop (children row (by omega) before)
    · rw [if_neg apart]
      exact ⟨inside, highStart, fun row before => low row (by omega), high⟩

/-- A header and the number of its folder, 0 for `m_folder`. -/
structure FolderHdr where
  folder : Nat
  hdr : MsgHdr

/-- A view whose rows may be of several folders. -/
structure FolderView where
  env : PlaceEnv
  view : ThreadedView
  /-- `GetFolders`: the folder of each row, or null in a view of one folder. -/
  folders : Option (List Nat) := none
  otherFolders : Nat → MsgFolder := fun _ => env.folder

namespace FolderView

variable (view : FolderView)

def folderAt : Nat → MsgFolder
  | 0 => view.env.folder
  | number + 1 => view.otherFolders number

def getFolderForViewIndex (index : Nat) : Option Nat :=
  match view.folders with
  | none => some 0
  | some folders => folders[index]?

def hdrAt (tryIndex : Nat) : Option FolderHdr := do
  let key ← view.view.rows.keys[tryIndex]?
  let folder ← view.getFolderForViewIndex tryIndex
  let hdr ← (view.folderAt folder).getMessageHeader (UInt32.ofNat key)
  return ⟨folder, hdr⟩

def entry (fieldType : FieldType) (hdr : FolderHdr) : IdKey :=
  placeEntry { view.env with folder := view.folderAt hdr.folder } view.view fieldType hdr.hdr

/-- What the comparator says of two headers. -/
def compare (fieldType : FieldType) (first second : FolderHdr) : Option Int :=
  fieldType.comparator (placeInfo view.env view.view) (view.entry fieldType first)
    (view.entry fieldType second)

def retStatus (fieldType : FieldType) (msgHdr : FolderHdr) (tryIndex : Nat)
    (tryHdr : FolderHdr) : Int :=
  (view.compare fieldType msgHdr tryHdr).getD (view.env.unset tryIndex)

def threadTrial (fieldType : FieldType) (msgHdr : FolderHdr) (tryIndex : Nat) : Option Int :=
  (view.hdrAt tryIndex).map fun tryHdr =>
    if tryHdr.folder = msgHdr.folder ∧ tryHdr.hdr.messageKey = msgHdr.hdr.messageKey then 0
    else view.retStatus fieldType msgHdr tryIndex tryHdr

/-- `GetIndexForThread` with a number of steps for its loop. -/
def indexForThread (msgHdr : FolderHdr) (steps : Nat) : Nat :=
  match getFieldTypeAndLenForSort view.view.sortType view.env.colHandler with
  | none => view.view.size
  | some (fieldType, _) =>
    searchThreads view.view.rows.levels (view.threadTrial fieldType msgHdr) steps 0 view.view.size

def getIndexForThread (msgHdr : FolderHdr) : Nat := view.indexForThread msgHdr view.view.size

/-- A trial of `GetInsertIndexHelper`. -/
def rowTrial (fieldType : FieldType) (msgHdr : FolderHdr) (tryIndex : Nat) : Option Int :=
  (view.hdrAt tryIndex).map fun tryHdr => view.retStatus fieldType msgHdr tryIndex tryHdr

/-- `GetInsertIndexHelper` with a number of steps for its loop. -/
def insertIndex (msgHdr : FolderHdr) (steps : Nat) : Nat :=
  match getFieldTypeAndLenForSort view.view.sortType view.env.colHandler with
  | none => view.view.size
  | some (fieldType, _) => searchRows (view.rowTrial fieldType msgHdr) steps 0 view.view.size

def getInsertIndexHelper (msgHdr : FolderHdr) : Nat := view.insertIndex msgHdr view.view.size

/-- `m_folders` after a row was inserted. -/
def insertFolder (folders : Option (List Nat)) (index folder : Nat) : Option (Option (List Nat)) :=
  match folders with
  | none => some none
  | some folders => (insertAt? folders index [folder]).map some

/-- `InsertMsgHdrAt`, also of a view of several folders. -/
def insertMsgHdrAt (index : Nat) (hdr : FolderHdr) (flags : UInt32) (level : UInt8) :
    Option FolderView := do
  let rows ← view.view.rows.insert? index ⟨[hdr.hdr.messageKey.toNat], [flags], [level]⟩
  let folders ← insertFolder view.folders index hdr.folder
  return { view with
    view := { view.view with rows := rows }
    folders := folders }

variable (env : PlaceEnv)

lemma hdrAt_ofFolder (view) (tryIndex : Nat) :
    ({ env := env, view := view } : FolderView).hdrAt tryIndex =
      (hdrAtRow env view tryIndex).map (FolderHdr.mk 0) := by
  rw [hdrAt, hdrAtRow]
  cases view.rows.keys[tryIndex]? with
  | none => rfl
  | some key =>
    change (env.folder.getMessageHeader (UInt32.ofNat key)).bind _ = _
    cases found : env.folder.getMessageHeader (UInt32.ofNat key) with
    | none => simp [found]
    | some hdr => simp [found]

lemma getIndexForThread_ofFolder (view) (hdr) :
    ({ env := env, view := view } : FolderView).getIndexForThread ⟨0, env.sortHdr hdr⟩ =
      View.getIndexForThread env view hdr := by
  have trials (fieldType : FieldType) :
      ({ env := env, view := view } : FolderView).threadTrial fieldType ⟨0, env.sortHdr hdr⟩ =
        fun tryIndex => (hdrAtRow env view tryIndex).map fun tryHdr =>
          if tryHdr.messageKey = (env.sortHdr hdr).messageKey then 0
          else compareAtRow env view fieldType (env.sortHdr hdr) tryHdr tryIndex := by
    funext tryIndex
    simp only [threadTrial, hdrAt_ofFolder, Option.map_map, Function.comp_def, true_and]
    rfl
  simp only [getIndexForThread, indexForThread, View.getIndexForThread, trials] <;> rfl

lemma getInsertIndexHelper_ofFolder (view) (hdr) :
    ({ env := env, view := view } : FolderView).getInsertIndexHelper ⟨0, env.sortHdr hdr⟩ =
      View.getInsertIndexHelper env view hdr := by
  have trials (fieldType : FieldType) :
      ({ env := env, view := view } : FolderView).rowTrial fieldType ⟨0, env.sortHdr hdr⟩ =
        fun tryIndex => (hdrAtRow env view tryIndex).map fun tryHdr =>
          compareAtRow env view fieldType (env.sortHdr hdr) tryHdr tryIndex := by
    funext tryIndex
    simp only [rowTrial, hdrAt_ofFolder, Option.map_map, Function.comp_def]
    rfl
  simp only [getInsertIndexHelper, insertIndex, View.getInsertIndexHelper, trials] <;> rfl

def StartsThread (row : Nat) : Prop := view.view.rows.levels.getD row 0 = 0

/-- A row of a flat list. -/
def InList (_ : FolderView) (_ : Nat) : Prop := True

structure InStep : Prop where
  rows : view.view.rows.InStep
  folders : ∀ folders, view.folders = some folders → folders.length = view.view.size

/-- The rows that count are all there, and the comparator puts an earlier one first. -/
structure Sorted (counts : FolderView → Nat → Prop) (fieldType : FieldType) : Prop where
  found : ∀ row < view.view.size, counts view row → ∃ hdr, view.hdrAt row = some hdr
  increasing : ∀ row later, row < later → counts view row → counts view later →
    ∀ first second, view.hdrAt row = some first → view.hdrAt later = some second →
      ∃ result < 0, view.compare fieldType first second = some result

/-- A header of the folder it names, with a sorted view that it is not in. The comparator orders it
and the rows that count totally. -/
structure Places (counts : FolderView → Nat → Prop) (fieldType : FieldType) (msgHdr : FolderHdr) :
    Prop where
  inStep : view.InStep
  sorted : view.Sorted counts fieldType
  own : (view.folderAt msgHdr.folder).getMessageHeader msgHdr.hdr.messageKey = some msgHdr.hdr
  ofFolder : view.folders = none → msgHdr.folder = 0
  absent : ∀ row hdr, view.hdrAt row = some hdr →
    ¬(hdr.folder = msgHdr.folder ∧ hdr.hdr.messageKey = msgHdr.hdr.messageKey)
  ordered : TotalOrderOn
    (fun hdr => hdr = msgHdr ∨ ∃ row < view.view.size, counts view row ∧ view.hdrAt row = some hdr)
    (view.compare fieldType)

section

variable {view} {counts : FolderView → Nat → Prop}

lemma hdrAt_within (found : view.hdrAt row = some hdr) : row < view.view.size := by
  rw [hdrAt] at found
  by_contra outside
  rw [getElem?_eq_none (Nat.le_of_not_lt outside)] at found
  cases found

section

variable (places : view.Places counts fieldType msgHdr)
include places

lemma Places.differs (found : view.hdrAt row = some hdr) : hdr ≠ msgHdr := by
  rintro rfl
  exact places.absent row hdr found ⟨rfl, rfl⟩

lemma Places.below_iff (counted : counts view row) (found : view.hdrAt row = some hdr) :
    (∃ result < 0, view.compare fieldType hdr msgHdr = some result) ↔
      ∃ result > 0, view.compare fieldType msgHdr hdr = some result :=
  places.ordered.neg_iff_pos (.inr ⟨row, hdrAt_within found, counted, found⟩) (.inl rfl)
    (places.differs found)

/-- A header before one that the new header belongs after. -/
theorem Places.below_trans (before : row < later) (counted : counts view row)
    (laterCounted : counts view later) (found : view.hdrAt row = some hdr)
    (laterFound : view.hdrAt later = some laterHdr)
    (less : ∃ result < 0, view.compare fieldType laterHdr msgHdr = some result) :
    ∃ result < 0, view.compare fieldType hdr msgHdr = some result := by
  by_cases same : hdr = laterHdr
  · exact same ▸ less
  · have increasing := places.sorted.increasing row later before counted laterCounted hdr laterHdr
      found laterFound
    exact places.ordered.trans hdr (.inr ⟨row, hdrAt_within found, counted, found⟩) laterHdr
      (.inr ⟨later, hdrAt_within laterFound, laterCounted, laterFound⟩) msgHdr (.inl rfl) same
      (places.differs laterFound) (places.differs found) increasing less

lemma Places.decided (counted : counts view row) (found : view.hdrAt row = some hdr) :
    view.compare fieldType msgHdr hdr = some (view.retStatus fieldType msgHdr row hdr) ∧
      view.retStatus fieldType msgHdr row hdr ≠ 0 := by
  have mem : ∃ row < view.view.size, counts view row ∧ view.hdrAt row = some hdr :=
    ⟨row, hdrAt_within found, counted, found⟩
  obtain ⟨here, there, isHere, -⟩ := places.ordered.sign_swap msgHdr (.inl rfl) hdr
    (.inr mem) (places.differs found).symm
  have nonzero := places.ordered.nonzero msgHdr (.inl rfl) hdr (.inr mem)
    (places.differs found).symm
  rw [retStatus, isHere]
  refine ⟨rfl, ?_⟩
  rintro rfl
  exact nonzero isHere

omit places in
lemma rowTrial_eq (view : FolderView) (fieldType : FieldType) (msgHdr : FolderHdr) (row : Nat)
    (hdr : FolderHdr) (found : view.hdrAt row = some hdr) :
    view.rowTrial fieldType msgHdr row = some (view.retStatus fieldType msgHdr row hdr) := by
  rw [rowTrial, found]
  rfl

lemma Places.threadTrial_eq (row : Nat) (hdr : FolderHdr) (found : view.hdrAt row = some hdr) :
    view.threadTrial fieldType msgHdr row = some (view.retStatus fieldType msgHdr row hdr) := by
  rw [threadTrial, found, map_some, if_neg (places.absent row hdr found)]

/-- The rows compare with the header as the search asks for. -/
theorem Places.comparable {trial : Nat → Option Int}
    (tries : ∀ row hdr, view.hdrAt row = some hdr →
      trial row = some (view.retStatus fieldType msgHdr row hdr)) :
    Comparable (counts view) trial view.view.size := by
  constructor
  · intro row within counted
    obtain ⟨hdr, found⟩ := places.sorted.found row within counted
    exact ⟨_, tries row hdr found, (places.decided counted found).2⟩
  · rintro row within later laterWithin before counted laterCounted ⟨result, positive, tried⟩
    obtain ⟨hdr, found⟩ := places.sorted.found row within counted
    obtain ⟨laterHdr, laterFound⟩ := places.sorted.found later laterWithin laterCounted
    rw [tries later laterHdr laterFound, ← (places.decided laterCounted laterFound).1] at tried
    have less := (places.below_iff laterCounted laterFound).mpr ⟨result, positive, tried⟩
    have earlierLess := places.below_trans before counted laterCounted found laterFound less
    obtain ⟨greater, isPositive, isGreater⟩ := (places.below_iff counted found).mp earlierLess
    refine ⟨greater, isPositive, ?_⟩
    rw [tries row hdr found, ← (places.decided counted found).1, isGreater]

end

/-- What is in a row after one was inserted. -/
def shifted {α : Type} (index : Nat) (item : α) (earlier : Nat → Option α) (row : Nat) : Option α :=
  if row < index then earlier row else if row = index then some item else earlier (row - 1)

lemma insertAt?_shifted {α : Type} {list : List α} (inside : index ≤ list.length) (item : α) :
    ∃ later, insertAt? list index [item] = some later ∧ later.length = list.length + 1 ∧
      (later[·]?) = shifted index item (list[·]?) := by
  refine ⟨list.take index ++ [item] ++ list.drop index, if_pos inside, ?_, ?_⟩
  · simp
    omega
  · funext row
    rw [shifted]
    grind

/-- What inserting a header changes. -/
structure Inserted (later : FolderView) (index : Nat) (hdr : FolderHdr) (level : UInt8) : Prop where
  size : later.view.size = view.view.size + 1
  compare : later.compare = view.compare
  hdrs : later.hdrAt = shifted index hdr view.hdrAt
  levels : (later.view.rows.levels[·]?) = shifted index level (view.view.rows.levels[·]?)

lemma insertFolder_spec (inStep : view.InStep) (ofFolder : view.folders = none → folder = 0)
    (inside : index ≤ view.view.size) :
    ∃ folders, insertFolder view.folders index folder = some folders ∧
      ({ view with folders := folders } : FolderView).getFolderForViewIndex =
        shifted index folder view.getFolderForViewIndex := by
  cases several : view.folders with
  | none =>
    refine ⟨none, rfl, ?_⟩
    funext row
    rw [shifted, getFolderForViewIndex, getFolderForViewIndex, getFolderForViewIndex, several,
      ofFolder several, ite_self, ite_self]
  | some folders =>
    have length := inStep.folders folders several
    obtain ⟨later, inserted, -, folderAt⟩ := insertAt?_shifted (inside.trans length.ge) folder
    refine ⟨some later, ?_, ?_⟩
    · rw [insertFolder, inserted]
      rfl
    · have earlier : view.getFolderForViewIndex = (folders[·]?) := by
        funext row
        rw [getFolderForViewIndex, several]
      rw [earlier]
      exact folderAt

lemma insertMsgHdrAt_spec (inStep : view.InStep)
    (own : (view.folderAt msgHdr.folder).getMessageHeader msgHdr.hdr.messageKey = some msgHdr.hdr)
    (ofFolder : view.folders = none → msgHdr.folder = 0) (inside : index ≤ view.view.size)
    (flags : UInt32) (level : UInt8) :
    ∃ later, view.insertMsgHdrAt index msgHdr flags level = some later ∧
      view.Inserted later index msgHdr level := by
  obtain ⟨keys, isKeys, size, keyAt⟩ := insertAt?_shifted inside msgHdr.hdr.messageKey.toNat
  obtain ⟨newFlags, isFlags, -⟩ := insertAt?_shifted (inside.trans inStep.rows.1.le) flags
  obtain ⟨levels, isLevels, -, levelAt⟩ := insertAt?_shifted (inside.trans inStep.rows.2.le) level
  obtain ⟨folders, isFolders, folderAt⟩ := insertFolder_spec inStep ofFolder inside
  refine ⟨{ view with
    view := { view.view with rows := ⟨keys, newFlags, levels⟩ }
    folders := folders }, ?_, ⟨size, rfl, ?_, levelAt⟩⟩
  · simp only [insertMsgHdrAt, Rows.insert?, isKeys, isFlags, isLevels, isFolders,
      bind_eq_bind, bind_some, Option.pure_def]
  · funext row
    change (keys[row]?).bind (fun key => (FolderView.getFolderForViewIndex
      { view with folders := folders } row).bind fun folder =>
        ((view.folderAt folder).getMessageHeader (UInt32.ofNat key)).bind fun hdr =>
          some (FolderHdr.mk folder hdr)) = _
    have keyHere : keys[row]? = _ := congrFun keyAt row
    rw [keyHere, congrFun folderAt row, shifted, shifted, shifted]
    by_cases before : row < index
    · rw [if_pos before, if_pos before, if_pos before]
      rfl
    · rw [if_neg before, if_neg before, if_neg before]
      by_cases here : row = index
      · rw [if_pos here, if_pos here, if_pos here, bind_some, bind_some,
          UInt32.ofNat_toNat, own]
        rfl
      · rw [if_neg here, if_neg here, if_neg here]
        rfl

lemma Inserted.startsThread (inserted : view.Inserted later index msgHdr level) (row : Nat)
    (starts : later.StartsThread row) :
    if row < index then view.StartsThread row else row = index ∨ view.StartsThread (row - 1) := by
  have here : later.view.rows.levels[row]? = _ := congrFun inserted.levels row
  rw [StartsThread, getD_eq_getElem?_getD, here, shifted] at starts
  by_cases before : row < index
  · rw [if_pos before] at starts ⊢
    rw [StartsThread, getD_eq_getElem?_getD]
    exact starts
  · rw [if_neg before] at starts ⊢
    by_cases same : row = index
    · exact .inl same
    · rw [if_neg same] at starts
      refine .inr ?_
      rw [StartsThread, getD_eq_getElem?_getD]
      exact starts

lemma Sorted.insert (sorted : view.Sorted counts fieldType)
    (inserted : view.Inserted later index msgHdr level) (inside : index ≤ view.view.size) (counted :
      ∀ row, counts later row → if row < index then counts view row else row = index ∨ counts view
      (row - 1)) (smaller : ∀ row < index, counts view row → ∀ hdr, view.hdrAt row = some hdr → ∃
      result < 0, view.compare fieldType hdr msgHdr = some result) (greater : ∀ row, index ≤ row →
      counts view row → ∀ hdr, view.hdrAt row = some hdr → ∃ result < 0, view.compare fieldType
      msgHdr hdr = some result) : later.Sorted counts fieldType := by
  constructor
  · intro row within isCounted
    rw [inserted.size] at within
    rw [inserted.hdrs, shifted]
    have here := counted row isCounted
    by_cases before : row < index
    · rw [if_pos before] at here ⊢
      exact sorted.found row (by omega) here
    · rw [if_neg before] at here ⊢
      by_cases same : row = index
      · exact ⟨msgHdr, if_pos same⟩
      · rw [if_neg same]
        exact sorted.found (row - 1) (by omega) (here.resolve_left same)
  · intro row behind before isCounted behindCounted first second isFirst isSecond
    rw [inserted.hdrs, shifted] at isFirst isSecond
    have here := counted row isCounted
    have there := counted behind behindCounted
    rw [inserted.compare]
    -- Neither, the second or the first of the two rows is the new one.
    rcases Nat.lt_trichotomy row index with above | same | below
    · rw [if_pos above] at isFirst here
      rcases Nat.lt_trichotomy behind index with above' | same' | below'
      · rw [if_pos above'] at isSecond there
        exact sorted.increasing row behind before here there first second isFirst isSecond
      · rw [if_neg (by omega), if_pos same'] at isSecond
        cases isSecond
        exact smaller row above here first isFirst
      · rw [if_neg (by omega), if_neg (by omega)] at isSecond
        rw [if_neg (by omega)] at there
        exact sorted.increasing row (behind - 1) (by omega) here (there.resolve_left (by omega))
          first second isFirst isSecond
    · rw [if_neg (by omega), if_pos same] at isFirst
      cases isFirst
      rw [if_neg (by omega), if_neg (by omega)] at isSecond
      rw [if_neg (by omega)] at there
      exact greater (behind - 1) (by omega) (there.resolve_left (by omega)) second isSecond
    · rw [if_neg (by omega), if_neg (by omega)] at isFirst isSecond
      rw [if_neg (by omega)] at here there
      exact sorted.increasing (row - 1) (behind - 1) (by omega) (here.resolve_left (by omega))
        (there.resolve_left (by omega)) first second isFirst isSecond

/-- Inserting where the search ends, with the rows before it smaller and the others greater. -/
theorem Places.insert (places : view.Places counts fieldType msgHdr) {trial : Nat → Option Int}
      (tries : ∀ row hdr, view.hdrAt row = some hdr → trial row = some (view.retStatus fieldType
      msgHdr row hdr)) (inside : index ≤ view.view.size) (above : Above (counts view) trial index)
    (below : Below (counts view) trial view.view.size index) (flags : UInt32) (level : UInt8)
      (counted : ∀ later row, view.Inserted later index msgHdr level → counts later row → if row <
      index then counts view row else row = index ∨ counts view (row - 1)) :
    ∃ later, view.insertMsgHdrAt index msgHdr flags level = some later ∧
      later.Sorted counts fieldType := by
  obtain ⟨later, isLater, inserted⟩ :=
    insertMsgHdrAt_spec places.inStep places.own places.ofFolder inside flags level
  refine ⟨later, isLater, places.sorted.insert inserted inside (counted later · inserted) ?_ ?_⟩
  · intro row before isCounted hdr found
    obtain ⟨result, positive, tried⟩ := above row before isCounted
    rw [tries row hdr found, ← (places.decided isCounted found).1] at tried
    exact (places.below_iff isCounted found).mpr ⟨result, positive, tried⟩
  · intro row notBefore isCounted hdr found
    obtain ⟨result, negative, tried⟩ := below row (hdrAt_within found) notBefore isCounted
    rw [tries row hdr found, ← (places.decided isCounted found).1] at tried
    exact ⟨result, negative, tried⟩

end

end FolderView

lemma searchThreads_steps {trial : Nat → Option Int} (enough : highIndex - lowIndex ≤ steps) :
    searchThreads levels trial steps lowIndex highIndex =
      searchThreads levels trial (highIndex - lowIndex) lowIndex highIndex := by
  induction steps, enough using Nat.le_induction with
  | base => rfl
  | succ steps enough ih => rw [searchThreads_enough enough, ih]

lemma searchRows_enough {trial : Nat → Option Int} (enough : highIndex - lowIndex ≤ steps) :
    searchRows trial (steps + 1) lowIndex highIndex =
      searchRows trial steps lowIndex highIndex := by
  induction steps generalizing lowIndex highIndex with
  | zero => rw [searchRows, searchRows, if_neg (by omega)]
  | succ steps ih =>
    rw [searchRows]
    conv_rhs => rw [searchRows]
    by_cases apart : lowIndex < highIndex
    · rw [if_pos apart, if_pos apart]
      dsimp only
      generalize middleEq : (lowIndex + highIndex - 1) / 2 = tryIndex
      cases trial tryIndex with
      | none => rfl
      | some retStatus =>
        dsimp only
        rw [ih (by omega), ih (by omega)]
    · rw [if_neg apart, if_neg apart]

lemma searchRows_steps {trial : Nat → Option Int} (enough : highIndex - lowIndex ≤ steps) :
    searchRows trial steps lowIndex highIndex =
      searchRows trial (highIndex - lowIndex) lowIndex highIndex := by
  induction steps, enough using Nat.le_induction with
  | base => rfl
  | succ steps enough ih => rw [searchRows_enough enough, ih]

namespace FolderView

/-- A place for the header that keeps the rows that count sorted. -/
structure KeepsSorted (view : FolderView) (counts : FolderView → Nat → Prop) (fieldType : FieldType)
    (msgHdr : FolderHdr) (index : Nat) (level : UInt8) : Prop where
  place : index = view.view.size ∨ index < view.view.size ∧ counts view index
  sorted : ∀ flags, ∃ later, view.insertMsgHdrAt index msgHdr flags level = some later ∧
    later.Sorted counts fieldType

/-- A message of a folder that has one with each key. -/
def numbered (key : UInt32) : MsgHdr :=
  ⟨key, 0, 0, 0, 0, "", 0, 0, none, none, none, none, none, none, none, false⟩

/-- Two threads by id, the first one with a reply. -/
def twoThreads : FolderView where
  env :=
    { columns := ⟨.byId, .ascending, [], false, true, false, false⟩
      collation := ⟨fun _ => none, fun _ _ => 0⟩
      folder := ⟨fun key => some (numbered key)⟩
      colHandler := none
      sortHdr := fun hdr => numbered (UInt32.ofNat hdr.messageKey)
      unset := fun _ => 0 }
  view :=
    { rows := ⟨[1, 2, 4], [0, 0, 0], [0, 1, 0]⟩
      sortType := .byId
      sortOrder := .ascending }

lemma compare_twoThreads (distinct : first ≠ second) :
    twoThreads.compare .kU32 ⟨0, numbered first⟩ ⟨0, numbered second⟩ =
      some (fieldCmp UInt32.toNat first second) := by
  have value : FieldType.kU32.valueCmp twoThreads.env.collation
      (twoThreads.entry .kU32 ⟨0, numbered first⟩) (twoThreads.entry .kU32 ⟨0, numbered second⟩) =
        fieldCmp UInt32.toNat first second := rfl
  have differs : fieldCmp UInt32.toNat first second ≠ 0 := by
    intro same
    exact distinct (UInt32.toNat_inj.mp ((fieldCmp_eq_zero _ _ _).mp same))
  have isSet (key : UInt32) : FieldType.kU32.IsSet (twoThreads.entry .kU32 ⟨0, numbered key⟩) := rfl
  rw [FolderView.compare, FieldType.comparator_eq .kU32 _ (isSet first) (isSet second)]
  exact if_pos (value ▸ differs)

lemma hdrAt_twoThreads (found : twoThreads.hdrAt row = some hdr) :
    ∃ key, hdr = ⟨0, numbered key⟩ ∧
      (row = 0 ∧ key = 1 ∨ row = 1 ∧ key = 2 ∨ row = 2 ∧ key = 4) := by
  match row with
  | 0 => exact ⟨1, (Option.some.inj found).symm, .inl ⟨rfl, rfl⟩⟩
  | 1 => exact ⟨2, (Option.some.inj found).symm, .inr (.inl ⟨rfl, rfl⟩)⟩
  | 2 => exact ⟨4, (Option.some.inj found).symm, .inr (.inr ⟨rfl, rfl⟩)⟩
  | row + 3 => exact absurd found nofun

lemma places_twoThreads (counts : FolderView → Nat → Prop) :
    twoThreads.Places counts .kU32 ⟨0, numbered 3⟩ where
  inStep := ⟨by decide, nofun⟩
  sorted := by
    constructor
    · intro row within _
      match row with
      | 0 => exact ⟨_, rfl⟩
      | 1 => exact ⟨_, rfl⟩
      | 2 => exact ⟨_, rfl⟩
      | row + 3 => exact absurd within (Nat.not_lt.mpr (Nat.le_add_left 3 row))
    · intro row later before _ _ first second isFirst isSecond
      obtain ⟨key, rfl, rows⟩ := hdrAt_twoThreads isFirst
      obtain ⟨laterKey, rfl, laterRows⟩ := hdrAt_twoThreads isSecond
      have less : key ≠ laterKey ∧ fieldCmp UInt32.toNat key laterKey < 0 := by
        rcases rows with ⟨rfl, rfl⟩ | ⟨rfl, rfl⟩ | ⟨rfl, rfl⟩ <;>
          rcases laterRows with ⟨rfl, rfl⟩ | ⟨rfl, rfl⟩ | ⟨rfl, rfl⟩ <;> first | decide | omega
      exact ⟨_, less.2, compare_twoThreads less.1⟩
  own := rfl
  ofFolder _ := rfl
  absent row hdr found := by
    obtain ⟨key, rfl, rows⟩ := hdrAt_twoThreads found
    rintro ⟨-, same⟩
    have isThree : key = 3 := same
    subst isThree
    simp at rows
  ordered := by
    have keyed (hdr : FolderHdr) (mem : hdr = ⟨0, numbered 3⟩ ∨
        ∃ row < twoThreads.view.size, counts twoThreads row ∧ twoThreads.hdrAt row = some hdr) :
        ∃ key, hdr = ⟨0, numbered key⟩ := by
      rcases mem with rfl | ⟨row, -, -, found⟩
      · exact ⟨3, rfl⟩
      · obtain ⟨key, same, -⟩ := hdrAt_twoThreads found
        exact ⟨key, same⟩
    apply TotalOrderOn.of_preorder
      ((fieldCmp_preorder UInt32.toNat).comap fun hdr : FolderHdr => hdr.hdr.messageKey)
    · intro first firstIn second secondIn distinct
      obtain ⟨firstKey, rfl⟩ := keyed first firstIn
      obtain ⟨secondKey, rfl⟩ := keyed second secondIn
      exact compare_twoThreads fun same => distinct (same ▸ rfl)
    · intro first firstIn second secondIn distinct same
      obtain ⟨firstKey, rfl⟩ := keyed first firstIn
      obtain ⟨secondKey, rfl⟩ := keyed second secondIn
      have sameKeys : firstKey = secondKey := UInt32.toNat_inj.mp ((fieldCmp_eq_zero _ _ _).mp same)
      exact distinct (sameKeys ▸ rfl)

end FolderView

end CommCentral.View
