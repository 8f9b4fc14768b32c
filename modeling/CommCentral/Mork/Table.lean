import CommCentral.Lib.ArrayShift

/-! Mork tables (`morkTable`): the row array, the row map and the list of unsaved
changes. Rows are compared by identity; allocations succeed. -/
namespace CommCentral.Mork
open Lib

universe u

/-- `morkTableChange_kCut`: the row was cut. -/
def tableChangeCut : Int := -1

/-- `morkTableChange_kAdd`: the row was added. -/
def tableChangeAdd : Int := -2

/-- A `morkTableChange`: a row and either one of the codes above or the position it was
moved to. -/
structure TableChange (Row : Type u) where
  row : Row
  pos : Int
deriving Repr, DecidableEq

/-- The members of `morkTable` that its row operations use. `rowMap` is null until
the table is large; `rewrite` is `morkTable_kRewriteBit`. -/
structure MorkTable (Row : Type u) where
  rowArray : List Row
  rowMap : Option (List Row)
  changeList : List (TableChange Row)
  changesCount : Nat
  changesMax : Nat
  rewrite : Bool
  clean : Bool
  spaceCanDirty : Bool
deriving Repr, DecidableEq

variable {Row : Type u} [DecidableEq Row]

/-- `morkTable_kMakeRowMapThreshold`. -/
def makeRowMapThreshold : Nat := 17

namespace MorkTable

def setTableClean (table : MorkTable Row) : MorkTable Row :=
  { table with changeList := [], changesCount := 0, rewrite := false, clean := true }

def noteTableSetAll (table : MorkTable Row) : MorkTable Row :=
  { table with changeList := [], changesCount := 0, rewrite := true }

def hasChangeOverflow (table : MorkTable Row) : Bool := table.changesCount ≥ table.changesMax

/-- The common body of `note_row_change` and `note_row_move`. -/
def noteChange (table : MorkTable Row) (change : TableChange Row) : MorkTable Row :=
  if table.rewrite || table.hasChangeOverflow then table.noteTableSetAll
  else { table with
    changeList := table.changeList ++ [change]
    changesCount := table.changesCount + 1 }

def noteTableAddRow (table : MorkTable Row) (row : Row) : MorkTable Row :=
  table.noteChange ⟨row, tableChangeAdd⟩

def noteTableCutRow (table : MorkTable Row) (row : Row) : MorkTable Row :=
  table.noteChange ⟨row, tableChangeCut⟩

def noteRowMove (table : MorkTable Row) (row : Row) (newPos : Int) : MorkTable Row :=
  table.noteChange ⟨row, newPos⟩

/-- `MaybeDirtySpaceStoreAndTable`; the result says whether changes are to be noted. -/
def maybeDirty (table : MorkTable Row) : MorkTable Row × Bool :=
  if table.spaceCanDirty then
    ({ table with
        changesMax := if table.clean then min (table.rowArray.length / 4) 0x07FFF
          else table.changesMax
        clean := false }, true)
  else (table, false)

/-- `canDirty`, as `MoveRow`, `AddRow` and `CutRow` start. -/
def dirtyOnce (table : MorkTable Row) : MorkTable Row × Bool :=
  if table.clean then table.maybeDirty else (table, true)

def findMemberRow (table : MorkTable Row) (row : Row) : Bool :=
  match table.rowMap with
  | some map => row ∈ map
  | none => row ∈ table.rowArray

/-- `MoveRow`'s search around the hint: look at `lo`, then at `hi`, then one slot further
out on both sides. -/
def seekNear (rows : List Row) (row : Row) : Nat → Int → Nat → Option Nat
  | 0, _, _ => none
  | fuel + 1, lo, hi =>
    if lo < 0 ∧ hi ≥ rows.length then none
    else if 0 ≤ lo ∧ rows[lo.toNat]? = some row then some lo.toNat
    else if rows[hi]? = some row then some hi
    else seekNear rows row fuel (if 0 ≤ lo then lo - 1 else lo)
      (if hi < rows.length then hi + 1 else hi)

/-- The slot of the row; a hint that is not positive means a scan from the start. -/
def findSlot (rows : List Row) (row : Row) (hint : Int) : Option Nat :=
  if hint ≤ 0 then rows.idxOf? row
  else seekNear rows row (rows.length + 1) hint hint.toNat

/-- A position forced into the used part of the array. -/
def clampPos (rows : List Row) (pos : Int) : Int :=
  if pos > (rows.length : Int) - 1 then (rows.length : Int) - 1
  else if pos < 0 then 0 else pos

/-- The loops at the end of `MoveRow`: shift the slots between and store the row. -/
def moveSlots (rows : List Row) (row : Row) (fromSlot toSlot : Nat) : List Row :=
  if fromSlot < toSlot then (shiftDown rows fromSlot row (toSlot - fromSlot)).set toSlot row
  else (shiftUp rows fromSlot row (fromSlot - toSlot)).set toSlot row

/-- The table and the position that `MoveRow` returns. -/
def moveRow (table : MorkTable Row) (row : Row) (hintFromPos toPos : Int) :
    MorkTable Row × Int :=
  let (table, canDirty) := table.dirtyOnce
  let rows := table.rowArray
  if rows.length = 0 then (table, -1)
  else
    let toPos := clampPos rows toPos
    match findSlot rows row (clampPos rows hintFromPos) with
    | none => (table, -1)
    | some fromSlot =>
      if (fromSlot : Int) = toPos then (table, fromSlot)
      else
        let moved := { table with rowArray := moveSlots rows row fromSlot toPos.toNat }
        (if canDirty then moved.noteRowMove row toPos else moved, toPos)

/-- `morkRowMap::AddRow`. -/
def mapAddRow (map : List Row) (row : Row) : List Row := if row ∈ map then map else row :: map

def buildRowMap (rows : List Row) : List Row := rows.foldl mapAddRow []

/-- The row map after `row` was appended to the array `rows`. -/
def mapAfterAdd (rowMap : Option (List Row)) (rows : List Row) (row : Row) :
    Option (List Row) :=
  match rowMap with
  | some map => some (mapAddRow map row)
  | none => if rows.length ≥ makeRowMapThreshold then some (buildRowMap rows) else none

def addRow (table : MorkTable Row) (row : Row) : MorkTable Row :=
  if table.findMemberRow row then table
  else
    let (table, canDirty) := table.dirtyOnce
    let rows := table.rowArray ++ [row]
    let added := { table with
      rowArray := rows
      rowMap := mapAfterAdd table.rowMap rows row }
    if canDirty then added.noteTableAddRow row else added

/-- `morkArray::CutSlot`. -/
def cutSlot (rows : List Row) (pos : Nat) (filler : Row) : List Row :=
  if pos < rows.length then (shiftDown rows pos filler (rows.length - 1 - pos)).dropLast
  else rows

/-- The scan of `CutRow` for the slot of the row, and the cut. -/
def arrayAfterCut (rows : List Row) (row : Row) : List Row :=
  match rows.idxOf? row with
  | some pos => cutSlot rows pos row
  | none => rows

def cutRow (table : MorkTable Row) (row : Row) : MorkTable Row :=
  if table.findMemberRow row then
    let (table, canDirty) := table.dirtyOnce
    let cut := { table with
      rowArray := arrayAfterCut table.rowArray row
      rowMap := table.rowMap.map (fun map => map.erase row) }
    if canDirty then cut.noteTableCutRow row else cut
  else table

/-- `CutAllRows`; the loop over the row map cuts every row of it. -/
def cutAllRows (table : MorkTable Row) : MorkTable Row :=
  let (table, dirtied) := table.maybeDirty
  let noted := if dirtied then table.noteTableSetAll else table
  { noted with rowArray := [], rowMap := noted.rowMap.map (fun _ => []) }

end MorkTable

/-- The row operations of a table. -/
inductive RowOp (Row : Type u) where
  | add (row : Row)
  | cut (row : Row)
  | move (row : Row) (hintFromPos toPos : Int)
  | cutAll
deriving Repr, DecidableEq

def MorkTable.perform (table : MorkTable Row) : RowOp Row → MorkTable Row
  | .add row => table.addRow row
  | .cut row => table.cutRow row
  | .move row hintFromPos toPos => (table.moveRow row hintFromPos toPos).1
  | .cutAll => table.cutAllRows

def MorkTable.run (table : MorkTable Row) (ops : List (RowOp Row)) : MorkTable Row :=
  ops.foldl MorkTable.perform table

/-! ### The text of a table

What `morkWriter::PutTable` writes and how `morkBuilder` takes it in. A token stands for the bytes
of one item; cells and the meta row are left out. -/

/-- `tableStart cutAll` is the opening brace with the table id, `tableStart true` with a minus sign
before the id; `minus`, `row` and `pos` are the items of the body. -/
inductive TableToken (Row : Type u) where
  | tableStart (cutAll : Bool)
  | minus
  | row (row : Row)
  | pos (pos : Nat)
  | tableEnd
deriving Repr, DecidableEq

def putTableChange (change : TableChange Row) : List (TableToken Row) :=
  if change.pos = tableChangeAdd then [.row change.row]
  else if change.pos = tableChangeCut then [.minus, .row change.row]
  else if change.pos ≥ 0 then [.row change.row, .pos change.pos.toNat]
  else []

/-- The body: all rows for a rewrite, else the noted changes. -/
def putTableBody (needDirtyAll : Bool) (table : MorkTable Row) : List (TableToken Row) :=
  if table.rewrite || needDirtyAll then table.rowArray.map .row
  else table.changeList.flatMap putTableChange

/-- `PutTable`: the text and the table, which is clean afterwards. `mWriter_Incremental`
is the opposite of `mWriter_NeedDirtyAll`. -/
def putTable (needDirtyAll : Bool) (table : MorkTable Row) :
    List (TableToken Row) × MorkTable Row :=
  (.tableStart (table.rewrite && !needDirtyAll) :: putTableBody needDirtyAll table ++ [.tableEnd],
    table.setTableClean)

/-- The builder inside a table: the table found for the table id, the current row and the
minus sign seen last. -/
structure TableBuilder (Row : Type u) where
  table : MorkTable Row
  row : Option Row
  doCutRow : Bool
deriving Repr, DecidableEq

namespace TableBuilder

def onNewTable (table : MorkTable Row) (cutAllRows : Bool) : TableBuilder Row where
  table := if cutAllRows then table.cutAllRows else table
  row := none
  doCutRow := false

def onMinusRow (builder : TableBuilder Row) : TableBuilder Row := { builder with doCutRow := true }

def onNewRow (builder : TableBuilder Row) (row : Row) : TableBuilder Row :=
  { table := if builder.doCutRow then builder.table.cutRow row else builder.table.addRow row
    row := some row
    doCutRow := false }

def onRowPos (builder : TableBuilder Row) (rowPos : Nat) : TableBuilder Row :=
  match builder.row with
  | some row => { builder with table := (builder.table.moveRow row 0 rowPos).1 }
  | none => builder

def onRowEnd (builder : TableBuilder Row) : TableBuilder Row :=
  { builder with row := none, doCutRow := false }

/-- The loop of `morkParser::ReadTable`; a position belongs to the row right before it. -/
def readItems : List (TableToken Row) → TableBuilder Row → TableBuilder Row
  | .minus :: rest, builder => readItems rest builder.onMinusRow
  | .row row :: .pos pos :: rest, builder =>
    readItems rest ((builder.onNewRow row).onRowPos pos).onRowEnd
  | .row row :: rest, builder => readItems rest (builder.onNewRow row).onRowEnd
  | .pos _ :: rest, builder => readItems rest builder
  | .tableStart _ :: rest, builder => readItems rest builder
  | .tableEnd :: _, builder => builder
  | [], builder => builder

end TableBuilder

/-- Read the text of a table into the table that its id denotes. -/
def replayTable (text : List (TableToken Row)) (table : MorkTable Row) : MorkTable Row :=
  match text with
  | .tableStart cutAll :: items =>
    (TableBuilder.readItems items (TableBuilder.onNewTable table cutAll)).table
  | _ => table

end CommCentral.Mork
