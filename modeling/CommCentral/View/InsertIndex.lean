import CommCentral.View.RowArrays

/-! Where a message list view puts a new header: the binary search over the rows, or over the
first rows of its threads. -/
namespace CommCentral.View

/-- What the search for a place asks for. -/
structure PlaceEnv where
  /-- The secondary column, and what else the comparators read of the view. -/
  columns : DBView
  collation : Collation
  folder : MsgFolder
  /-- `GetCurColumnHandler` -/
  colHandler : Option CustomColumnHandler
  /-- The header as the columns read it. -/
  sortHdr : RowHdr → MsgHdr
  /-- What comes out of a comparison with the row if a number in it was never set. -/
  unset : Nat → Int

section

variable (env : PlaceEnv) (view : ThreadedView)

def placeInfo : ViewSortInfo where
  view := { env.columns with
    threadedDisplay := view.viewFlags.threadedDisplay
    groupBySort := view.viewFlags.groupBySort }
  collation := env.collation
  isSecondarySort := false
  ascendingSort := view.sortOrder = .ascending

/-- `EntryInfo1` and `EntryInfo2` -/
def placeEntry (fieldType : FieldType) (hdr : MsgHdr) : IdKey where
  id := hdr.messageKey
  folder := some env.folder
  key :=
    match fieldType with
    | .kCollationKey => getCollationKey env.collation hdr view.sortType env.colHandler
    | .kU32 => []
  dword :=
    match fieldType with
    | .kCollationKey => none
    | .kU32 =>
      if view.sortType = .byId then some hdr.messageKey
      else getLongField (placeInfo env view).view hdr view.sortType env.colHandler

def hdrAtRow (tryIndex : Nat) : Option MsgHdr := do
  let key ← view.rows.keys[tryIndex]?
  env.folder.getMessageHeader (UInt32.ofNat key)

/-- `retStatus` for the header and one of the view. -/
def compareAtRow (fieldType : FieldType) (msgHdr tryHdr : MsgHdr) (tryIndex : Nat) : Int :=
  (fieldType.comparator (placeInfo env view) (placeEntry env view fieldType msgHdr)
    (placeEntry env view fieldType tryHdr)).getD (env.unset tryIndex)

/-- The row of level 0 at or above the index, or the first row. -/
def threadTop (levels : List UInt8) : (tryIndex : Nat) → Nat
  | 0 => 0
  | tryIndex + 1 =>
    if levels.getD (tryIndex + 1) 0 = 0 then tryIndex + 1 else threadTop levels tryIndex

/-- The loop of `GetIndexForThread` between two first rows of threads. A trial without a result
ends it, and each step brings the bounds closer. -/
def searchThreads (levels : List UInt8) (trial : Nat → Option Int) :
    (steps lowIndex highIndex : Nat) → Nat
  | 0, _, highIndex => highIndex
  | steps + 1, lowIndex, highIndex =>
    if lowIndex < highIndex then
      let tryIndex := threadTop levels ((lowIndex + highIndex) / 2)
      if tryIndex < lowIndex then highIndex
      else
        match trial tryIndex with
        | none => highIndex
        | some retStatus =>
          if retStatus = 0 then tryIndex
          else if retStatus < 0 then searchThreads levels trial steps lowIndex tryIndex
          else
            let below := (levels.drop (tryIndex + 1)).takeWhile (· != 0)
            searchThreads levels trial steps (tryIndex + 1 + below.length) highIndex
    else highIndex

def getIndexForThread (hdr : RowHdr) : Nat :=
  match getFieldTypeAndLenForSort view.sortType env.colHandler with
  | none => view.size
  | some (fieldType, _) =>
    let msgHdr := env.sortHdr hdr
    let trial (tryIndex : Nat) : Option Int :=
      (hdrAtRow env view tryIndex).map fun tryHdr =>
        -- The header is not expected to be in the view, and would be put at its own row.
        if tryHdr.messageKey = msgHdr.messageKey then 0
        else compareAtRow env view fieldType msgHdr tryHdr tryIndex
    searchThreads view.rows.levels trial view.size 0 view.size

/-- The loop of `GetInsertIndexHelper`. -/
def searchRows (trial : Nat → Option Int) : (steps lowIndex highIndex : Nat) → Nat
  | 0, _, highIndex => highIndex
  | steps + 1, lowIndex, highIndex =>
    if lowIndex < highIndex then
      let tryIndex := (lowIndex + highIndex - 1) / 2
      match trial tryIndex with
      | none => highIndex
      | some retStatus =>
        if retStatus = 0 then tryIndex
        else if retStatus < 0 then searchRows trial steps lowIndex tryIndex
        else searchRows trial steps (tryIndex + 1) highIndex
    else highIndex

def getInsertIndexHelper (hdr : RowHdr) : Nat :=
  match getFieldTypeAndLenForSort view.sortType env.colHandler with
  | none => view.size
  | some (fieldType, _) =>
    let msgHdr := env.sortHdr hdr
    let trial (tryIndex : Nat) : Option Int :=
      (hdrAtRow env view tryIndex).map fun tryHdr =>
        compareAtRow env view fieldType msgHdr tryHdr tryIndex
    searchRows trial view.size 0 view.size

/-- `GetInsertIndex`. The sort order, which is compared with the sort type by id, is never
that. -/
def getInsertIndex (hdr : RowHdr) : Nat :=
  if view.size = 0 then 0
  else if view.viewFlags.threadedDisplay && !view.viewFlags.groupBySort then
    getIndexForThread env view hdr
  else getInsertIndexHelper env view hdr

end

/-- The answers of the view itself for the place of a header. -/
def ViewEnv.placing (env : ViewEnv) (places : PlaceEnv) : ViewEnv :=
  { env with insertIndex := fun view hdr => some (getInsertIndex places view hdr) }

section

variable {trial : Nat → Option Int}

lemma threadTop_le (levels) (tryIndex : Nat) : threadTop levels tryIndex ≤ tryIndex := by
  induction tryIndex with
  | zero => exact Nat.le_refl _
  | succ tryIndex ih =>
    rw [threadTop]
    split
    · exact Nat.le_refl _
    · exact Nat.le_succ_of_le ih

/-- A row where a thread may be put: after all rows, before the first one, or before one of
level 0. -/
def ThreadStart (levels : List UInt8) (index : Nat) : Prop :=
  index = levels.length ∨ index < levels.length ∧ (index = 0 ∨ levels.getD index 0 = 0)

lemma threadStart_threadTop (within : tryIndex < levels.length) :
    ThreadStart levels (threadTop levels tryIndex) := by
  refine .inr ⟨Nat.lt_of_le_of_lt (threadTop_le levels tryIndex) within, ?_⟩
  clear within
  induction tryIndex with
  | zero => exact .inl rfl
  | succ tryIndex ih =>
    rw [threadTop]
    split
    · rename_i top
      exact .inr top
    · exact ih

lemma ThreadStart.le (start : ThreadStart levels index) : index ≤ levels.length := by
  rcases start with same | ⟨within, -⟩
  · exact Nat.le_of_eq same
  · exact Nat.le_of_lt within

/-- The search takes no more steps than there are rows between its bounds. -/
theorem searchThreads_enough (enough : highIndex - lowIndex ≤ steps) :
    searchThreads levels trial (steps + 1) lowIndex highIndex =
      searchThreads levels trial steps lowIndex highIndex := by
  induction steps generalizing lowIndex highIndex with
  | zero => rw [searchThreads, searchThreads, if_neg (by omega)]
  | succ steps ih =>
    have middle := threadTop_le levels ((lowIndex + highIndex) / 2)
    rw [searchThreads]
    conv_rhs => rw [searchThreads]
    dsimp only
    generalize threadTop levels ((lowIndex + highIndex) / 2) = tryIndex at middle ⊢
    by_cases below : lowIndex < highIndex
    · rw [if_pos below, if_pos below]
      by_cases outside : tryIndex < lowIndex
      · rw [if_pos outside, if_pos outside]
      · rw [if_neg outside, if_neg outside]
        cases trial tryIndex with
        | none => rfl
        | some retStatus =>
          have earlier : tryIndex - lowIndex ≤ steps := by omega
          have later (next : Nat) (past : tryIndex < next) : highIndex - next ≤ steps := by omega
          dsimp only
          rw [ih earlier, ih (later _ (by omega))]
    · rw [if_neg below, if_neg below]

/-- Whatever the comparisons say, the search ends where a thread starts. -/
theorem searchThreads_threadStart (start : ThreadStart levels highIndex) :
    ThreadStart levels (searchThreads levels trial steps lowIndex highIndex) := by
  induction steps generalizing lowIndex highIndex with
  | zero => exact start
  | succ steps ih =>
    rw [searchThreads]
    split
    · rename_i below
      have high := start.le
      have tried : ThreadStart levels (threadTop levels ((lowIndex + highIndex) / 2)) :=
        threadStart_threadTop (by omega)
      dsimp only
      split
      · exact start
      · split
        · exact start
        · split
          · exact tried
          · split
            · exact ih tried
            · exact ih start
    · exact start

lemma getInsertIndex_threadStart (env) (hdr) (inStep : view.rows.InStep)
    (threaded : view.viewFlags.threadedDisplay = true)
    (notGrouped : view.viewFlags.groupBySort = false) :
    ThreadStart view.rows.levels (getInsertIndex env view hdr) := by
  have size : view.size = view.rows.levels.length := inStep.2
  rw [getInsertIndex]
  split
  · rename_i empty
    exact .inl (empty.symm.trans size)
  · rw [threaded, notGrouped, Bool.not_false, Bool.and_true, if_pos rfl, getIndexForThread]
    split
    · exact .inl size
    · exact searchThreads_threadStart (.inl size)

end

end CommCentral.View
