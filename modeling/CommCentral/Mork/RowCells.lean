import CommCentral.Lib.FixedBuffer
import CommCentral.Lib.KeyedList
import Mathlib.Data.List.Count

/-! The cells of a row, and the cells that a row takes from the builder (`morkRow`). -/
namespace CommCentral.Mork

open Lib List

universe u

/-- `morkChange_kNil` and the codes after it. -/
inductive Change where
  | nil
  | add
  | cut
  | put
  | set
  | dup
deriving DecidableEq

structure MorkCell (Atom : Type u) where
  column : Nat
  change : Change
  atom : Option Atom
deriving DecidableEq

variable {Atom : Type u}

/-- What `NewCells` fills new cells with. -/
def zeroCell : MorkCell Atom := ⟨0, .nil, none⟩

def columns (cells : List (MorkCell Atom)) : List Nat := cells.map MorkCell.column

def getCell (cells : List (MorkCell Atom)) (column : Nat) : Option (MorkCell Atom) :=
  itemAt MorkCell.column cells column

def getCellPos (cells : List (MorkCell Atom)) (column : Nat) : Option Nat :=
  cells.findIdx? fun cell => cell.column = column

/-- `CountOverlap`, with the cells that it marks as duplicates. -/
def countOverlap [DecidableEq Atom] (row : List (MorkCell Atom)) :
    (ioVector : List (MorkCell Atom)) → Nat × List (MorkCell Atom)
  | [] => (0, [])
  | cell :: rest =>
    let (outCount, ioVector) := countOverlap row rest
    match getCell row cell.column with
    | none => (outCount, cell :: ioVector)
    | some old =>
      if cell.change ≠ .cut ∨ old.change ≠ cell.change then
        (if cell.atom ≠ old.atom then outCount + 1 else outCount, cell :: ioVector)
      else (outCount, { cell with change := .dup } :: ioVector)

/-- The loop of `MergeCells`. There is no result where it reports an error, or writes a cell beyond
the length of the row. -/
def mergeLoop (newEnd : Nat) : (srcCells : List (MorkCell Atom)) → (cells : List (MorkCell Atom)) →
    (newCells inOverlap : Nat) → Option (List (MorkCell Atom))
  | [], cells, _, _ => some cells
  | src :: rest, cells, newCells, inOverlap =>
    if src.change = .dup then mergeLoop newEnd rest cells newCells inOverlap
    else
      match (if inOverlap ≠ 0 then getCellPos cells src.column else none) with
      | some pos => mergeLoop newEnd rest (cells.set pos src) newCells (inOverlap - 1)
      | none =>
        if newCells < newEnd then
          (store cells newCells src).bind fun cells =>
            mergeLoop newEnd rest cells (newCells + 1) inOverlap
        else none

def mergeCells (cells ioVector : List (MorkCell Atom)) (inOldRowFill inOverlap : Nat) :
    Option (List (MorkCell Atom)) :=
  mergeLoop (inOldRowFill + cells.length) ioVector cells inOldRowFill inOverlap

/-- `mRow_Length` is a `mork_u2`, and the new length is compared with what it holds. -/
def addRowCells (row : List (MorkCell Atom)) (inNewSize : Nat) : Option (List (MorkCell Atom)) :=
  if row.length < inNewSize then
    if inNewSize % 65536 ≥ inNewSize then
      some (row ++ List.replicate (inNewSize - row.length) zeroCell)
    else none
  else some row

/-- There is no result where an error is reported. -/
def takeCells [DecidableEq Atom] (row ioVector : List (MorkCell Atom)) :
    Option (List (MorkCell Atom)) :=
  if ioVector = [] then some row
  else
    let (overlap, ioVector) := countOverlap row ioVector
    let growth := ioVector.length - overlap
    let newLength := row.length + growth
    (if growth ≠ 0 then addRowCells row newLength else some row).bind fun cells =>
      if cells.length ≥ newLength then mergeCells cells ioVector row.length overlap else none

lemma getCellPos_split {before after : List (MorkCell Atom)} (absent : column ∉ columns before)
    (isColumn : old.column = column) :
    getCellPos (before ++ old :: after) column = some before.length := by
  rw [getCellPos, findIdx?_append, findIdx?_eq_none_iff.mpr, Option.none_or,
    findIdx?_cons, decide_eq_true isColumn]
  · rw [if_pos rfl, Option.map_some, Nat.zero_add]
  · intro cell mem
    exact decide_eq_false fun same => absent (same ▸ mem_map_of_mem mem)

variable {cells : List (MorkCell Atom)}

lemma getCellPos_none (absent : column ∉ columns cells) : getCellPos cells column = none :=
  findIdx?_eq_none_iff.mpr fun _ mem =>
    decide_eq_false fun same => absent (same ▸ mem_map_of_mem mem)

lemma exists_split (present : column ∈ columns cells) :
    ∃ before old after, cells = before ++ old :: after ∧
      old.column = column ∧ column ∉ columns before := by
  induction cells with
  | nil => exact absurd present not_mem_nil
  | cons first rest ih =>
    by_cases isFirst : first.column = column
    · exact ⟨[], first, rest, rfl, isFirst, not_mem_nil⟩
    · have later := (mem_cons.mp present).resolve_left (Ne.symm isFirst)
      obtain ⟨before, old, after, split, isColumn, absent⟩ := ih later
      refine ⟨first :: before, old, after, congrArg (first :: ·) split, isColumn, ?_⟩
      exact not_mem_cons_of_ne_of_not_mem (Ne.symm isFirst) absent

/-- A cell that replaces one of its column leaves the columns alone. -/
theorem columns_set (found : getCellPos cells src.column = some pos) :
    columns (cells.set pos src) = columns cells := by
  obtain ⟨inside, isColumn, _⟩ := findIdx?_eq_some_iff_getElem.mp found
  have same := of_decide_eq_true isColumn
  rw [columns, columns, map_set, ← same]
  rw [← getElem_map MorkCell.column (h := by rwa [length_map])]
  exact set_getElem_self _

lemma columns_store {cells after : List (MorkCell Atom)}
    (stored : store cells index src = some after) :
    index < cells.length ∧ columns after = (columns cells).set index src.column := by
  rw [store] at stored
  split at stored
  · rename_i inside
    cases stored
    exact ⟨inside, map_set⟩
  · exact absurd stored.symm (Option.some_ne_none _)

end CommCentral.Mork
