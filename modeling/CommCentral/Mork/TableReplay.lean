import CommCentral.Mork.TableOrder

/-! Saving the changes of a table and reading them back: the replay of the written text
reproduces the row order in memory. -/
namespace CommCentral.Mork
open MorkTable List

universe u

variable {Row : Type u} [DecidableEq Row]

/-- The change list leads from the saved row order to the order in memory, unless all
rows are to be rewritten. -/
def Tracks (savedOrder : List Row) (table : MorkTable Row) : Prop :=
  table.rewrite = true ∨ table.changeList.foldl applyChange savedOrder = table.rowArray

/-- A table of an open store whose unsaved changes are recorded. -/
structure Recording (savedOrder : List Row) (table : MorkTable Row) : Prop where
  valid : table.Valid
  canDirty : table.spaceCanDirty = true
  tracks : Tracks savedOrder table

omit [DecidableEq Row] in
private lemma dirtyOnce_canDirty (table : MorkTable Row) (canDirty : table.spaceCanDirty = true) :
    table.dirtyOnce.2 = true := by
  unfold dirtyOnce maybeDirty
  rw [canDirty]
  split
  · rfl
  · rfl

private lemma tracks_noteChange (savedOrder before : List Row) (table : MorkTable Row)
    (change : TableChange Row)
    (tracked : table.rewrite = true ∨ table.changeList.foldl applyChange savedOrder = before)
    (applied : table.rowArray = applyChange before change) :
    Tracks savedOrder (table.noteChange change) := by
  unfold noteChange noteTableSetAll
  split
  · exact .inl rfl
  · rename_i short
    rw [Bool.or_eq_true, not_or] at short
    rcases tracked with rewrite | same
    · exact absurd rewrite short.1
    · right
      rw [foldl_append, same, applied]
      rfl

omit [DecidableEq Row] in
private lemma spaceCanDirty_noteChange (table : MorkTable Row) (change : TableChange Row) :
    (table.noteChange change).spaceCanDirty = table.spaceCanDirty := by
  unfold noteChange noteTableSetAll
  split
  · rfl
  · rfl

variable {table : MorkTable Row}

private lemma recording_addRow (recording : Recording savedOrder table) (row : Row) :
    Recording savedOrder (table.addRow row) := by
  obtain ⟨rows, _, changes, rewrite, canDirty⟩ := table.dirtyOnce_frame
  have dirty := dirtyOnce_canDirty table recording.canDirty
  have order := rowArray_addRow recording.valid row
  have valid := valid_addRow recording.valid row
  by_cases found : table.findMemberRow row = true
  · rw [addRow, if_pos found]
    exact recording
  · have noted : ∃ added : MorkTable Row, added.changeList = table.changeList ∧
        added.rewrite = table.rewrite ∧ added.spaceCanDirty = table.spaceCanDirty ∧
        table.addRow row = added.noteChange ⟨row, tableChangeAdd⟩ := by
      rw [addRow, if_neg found]
      simp only [dirty, if_true, noteTableAddRow]
      refine ⟨_, ?_, ?_, ?_, rfl⟩
      · exact changes
      · exact rewrite
      · exact canDirty
    obtain ⟨added, sameChanges, sameRewrite, sameDirty, same⟩ := noted
    rw [same, rowArray_noteChange] at order
    refine ⟨valid, ?_, ?_⟩
    · rw [same, spaceCanDirty_noteChange, sameDirty, recording.canDirty]
    · rw [same]
      refine tracks_noteChange savedOrder table.rowArray added _ ?_ ?_
      · rw [sameRewrite, sameChanges]
        exact recording.tracks
      · rw [order, applyChange, if_pos rfl]

private lemma recording_cutRow (recording : Recording savedOrder table) (row : Row) :
    Recording savedOrder (table.cutRow row) := by
  obtain ⟨rows, _, changes, rewrite, canDirty⟩ := table.dirtyOnce_frame
  have dirty := dirtyOnce_canDirty table recording.canDirty
  have order := rowArray_cutRow recording.valid row
  have valid := valid_cutRow recording.valid row
  by_cases found : table.findMemberRow row = true
  · have noted : ∃ cut : MorkTable Row, cut.changeList = table.changeList ∧
        cut.rewrite = table.rewrite ∧ cut.spaceCanDirty = table.spaceCanDirty ∧
        table.cutRow row = cut.noteChange ⟨row, tableChangeCut⟩ := by
      rw [cutRow, if_pos found]
      simp only [dirty, if_true, noteTableCutRow]
      refine ⟨_, ?_, ?_, ?_, rfl⟩
      · exact changes
      · exact rewrite
      · exact canDirty
    obtain ⟨cut, sameChanges, sameRewrite, sameDirty, same⟩ := noted
    rw [same, rowArray_noteChange] at order
    refine ⟨valid, ?_, ?_⟩
    · rw [same, spaceCanDirty_noteChange, sameDirty, recording.canDirty]
    · rw [same]
      refine tracks_noteChange savedOrder table.rowArray cut _ ?_ ?_
      · rw [sameRewrite, sameChanges]
        exact recording.tracks
      · rw [order, applyChange, if_neg (show ¬ tableChangeCut = tableChangeAdd by decide),
          if_pos rfl]
  · rw [cutRow, if_neg found]
    exact recording

/-- The position in the change list is the clamped one; it puts the row in the same place. -/
private theorem moveTo_clampPos (rows : List Row) (row : Row) (pos : Int)
    (nonempty : rows.length ≠ 0) : moveTo rows row (clampPos rows pos) = moveTo rows row pos := by
  obtain ⟨nonnegative, inside⟩ := clampPos_range rows pos nonempty
  rw [moveTo, moveTo, clampPos_of_inside rows (clampPos rows pos) nonnegative inside]

private lemma recording_moveRow (recording : Recording savedOrder table) (row : Row)
    (hintFromPos toPos : Int) :
    Recording savedOrder (table.moveRow row hintFromPos toPos).1 := by
  obtain ⟨rows, _, changes, rewrite, canDirty⟩ := table.dirtyOnce_frame
  have valid := valid_moveRow recording.valid row hintFromPos toPos
  have tracked : Tracks savedOrder table.dirtyOnce.1 := by
    rw [Tracks, rewrite, changes, rows]
    exact recording.tracks
  rcases moveRow_cases recording.valid row hintFromPos toPos with ⟨idle, _⟩ | ⟨mem, moved⟩
  · rw [idle] at valid ⊢
    exact ⟨valid, canDirty.trans recording.canDirty, tracked⟩
  · simp only [dirtyOnce_canDirty table recording.canDirty, if_true, noteRowMove] at moved
    refine ⟨valid, ?_, ?_⟩
    · rw [moved, spaceCanDirty_noteChange]
      exact canDirty.trans recording.canDirty
    · have nonempty : table.rowArray.length ≠ 0 := Nat.ne_of_gt (length_pos_of_mem mem)
      obtain ⟨nonnegative, _⟩ := clampPos_range table.rowArray toPos nonempty
      rw [moved]
      refine tracks_noteChange savedOrder table.rowArray _ _ ?_ ?_
      · rw [Tracks, rows] at tracked
        exact tracked
      · rw [applyChange, if_neg (by simp only [tableChangeAdd]; omega),
          if_neg (by simp only [tableChangeCut]; omega), if_pos nonnegative, addTo, if_pos mem]
        exact (moveTo_clampPos table.rowArray row toPos nonempty).symm

omit [DecidableEq Row] in
private lemma cutAllRows_recorded (canDirty : table.spaceCanDirty = true) :
    table.cutAllRows.rewrite = true ∧ table.cutAllRows.spaceCanDirty = true := by
  simp [cutAllRows, maybeDirty, canDirty, noteTableSetAll]

lemma recording_perform (recording : Recording savedOrder table) (op : RowOp Row) :
    Recording savedOrder (table.perform op) := by
  cases op with
  | add row => exact recording_addRow recording row
  | cut row => exact recording_cutRow recording row
  | move row hintFromPos toPos => exact recording_moveRow recording row hintFromPos toPos
  | cutAll =>
    obtain ⟨rewrite, canDirty⟩ := cutAllRows_recorded recording.canDirty
    exact ⟨valid_cutAllRows table, canDirty, .inl rewrite⟩

/-- So does every sequence of operations. -/
theorem recording_run (recording : Recording savedOrder table) (ops : List (RowOp Row)) :
    Recording savedOrder (table.run ops) := by
  induction ops generalizing table with
  | nil => exact recording
  | cons op ops ih => exact ih (recording_perform recording op)

/-- Between two items the builder has no current row and no pending minus sign. -/
structure Ready (rows : List Row) (builder : TableBuilder Row) : Prop where
  valid : builder.table.Valid
  order : builder.table.rowArray = rows
  noRow : builder.row = none
  noMinus : builder.doCutRow = false

/-- The text starts with an item of its own, not with a position for the row before it. -/
def StartsItem : List (TableToken Row) → Prop
  | .pos _ :: _ => False
  | _ => True

open TableBuilder

private lemma readItems_row (row : Row) (rest : List (TableToken Row))
    (builder : TableBuilder Row) (starts : StartsItem rest) :
    readItems (.row row :: rest) builder = readItems rest (builder.onNewRow row).onRowEnd := by
  cases rest with
  | nil => rfl
  | cons token rest =>
    cases token with
    | pos pos => exact starts.elim
    | tableStart cutAll | minus | row row | tableEnd => rfl

/-- The text of one change does to the order what the change stands for. -/
private theorem readItems_change {rows : List Row} (ready : Ready rows builder)
    (change : TableChange Row) (rest : List (TableToken Row)) (starts : StartsItem rest) :
    ∃ next, Ready (applyChange rows change) next ∧
      readItems (putTableChange change ++ rest) builder = readItems rest next := by
  obtain ⟨valid, order, noRow, noMinus⟩ := ready
  unfold putTableChange applyChange
  split
  · refine ⟨(builder.onNewRow change.row).onRowEnd, ⟨?_, ?_, rfl, rfl⟩, ?_⟩
    · simp only [onRowEnd, onNewRow, noMinus]
      exact valid_addRow valid change.row
    · simp only [onRowEnd, onNewRow, noMinus, Bool.false_eq_true, if_false]
      rw [rowArray_addRow valid, order]
    · exact readItems_row change.row rest builder starts
  · split
    · refine ⟨(builder.onMinusRow.onNewRow change.row).onRowEnd, ⟨?_, ?_, rfl, rfl⟩, ?_⟩
      · exact valid_cutRow valid change.row
      · exact (rowArray_cutRow valid change.row).trans (by rw [order])
      · exact readItems_row change.row rest builder.onMinusRow starts
    · split
      · rename_i nonnegative
        have added := valid_addRow valid change.row
        have position : (change.pos.toNat : Int) = change.pos := Int.toNat_of_nonneg nonnegative
        refine ⟨((builder.onNewRow change.row).onRowPos change.pos.toNat).onRowEnd,
          ⟨?_, ?_, rfl, rfl⟩, rfl⟩
        · simp only [onRowEnd, onRowPos, onNewRow, noMinus]
          exact valid_moveRow added change.row 0 _
        · simp only [onRowEnd, onRowPos, onNewRow, noMinus, Bool.false_eq_true, if_false]
          rw [rowArray_moveRow added, rowArray_addRow valid, order, position]
      · exact ⟨builder, ⟨valid, order, noRow, noMinus⟩, rfl⟩


omit [DecidableEq Row] in
private lemma startsItem_changes (changes : List (TableChange Row)) :
    StartsItem (changes.flatMap putTableChange ++ [.tableEnd]) := by
  induction changes with
  | nil => trivial
  | cons change changes ih =>
    rw [flatMap_cons]
    unfold putTableChange
    split
    · trivial
    · split
      · trivial
      · split
        · trivial
        · exact ih

private lemma readItems_changes (changes : List (TableChange Row)) {rows : List Row}
    (ready : Ready rows builder) :
    (readItems (changes.flatMap putTableChange ++ [.tableEnd]) builder).table.rowArray =
      changes.foldl applyChange rows := by
  induction changes generalizing rows builder with
  | nil => exact ready.order
  | cons change changes ih =>
    obtain ⟨next, ready', step⟩ := readItems_change ready change _ (startsItem_changes changes)
    rw [flatMap_cons, append_assoc, step, ih ready', foldl_cons]

omit [DecidableEq Row] in
private lemma startsItem_rows (rows : List Row) :
    StartsItem (rows.map TableToken.row ++ [.tableEnd]) := by
  cases rows with
  | nil => trivial
  | cons row rows => trivial

private lemma readItems_rows (rest : List Row) {rows : List Row} (ready : Ready rows builder)
    (nodup : (rows ++ rest).Nodup) :
    (readItems (rest.map TableToken.row ++ [.tableEnd]) builder).table.rowArray = rows ++ rest := by
  induction rest generalizing rows builder with
  | nil => exact ready.order.trans (append_nil rows).symm
  | cons row rest ih =>
    have absent : row ∉ rows := by
      intro mem
      exact (nodup_append.mp nodup).2.2 row mem row (mem_cons_self ..) rfl
    obtain ⟨valid, order, noRow, noMinus⟩ := ready
    have ready' : Ready (rows ++ [row]) (builder.onNewRow row).onRowEnd := by
      refine ⟨?_, ?_, rfl, rfl⟩
      · simp only [onRowEnd, onNewRow, noMinus]
        exact valid_addRow valid row
      · simp only [onRowEnd, onNewRow, noMinus, Bool.false_eq_true, if_false]
        rw [rowArray_addRow valid, order, addTo, if_neg absent]
    rw [map_cons, cons_append, readItems_row row _ builder (startsItem_rows rest),
      ih ready' (by rwa [append_assoc]), append_assoc]
    rfl

/-- A table with nothing to save, as `SetTableClean` leaves it. -/
structure Saved (table : MorkTable Row) : Prop where
  clean : table.clean = true
  noChanges : table.changeList = []
  noRewrite : table.rewrite = false

/-- Whatever happened to a saved table of an open store, the text that an incremental
commit writes turns any table with the saved row order into the row order in memory. -/
theorem replay_incremental_commit (live loaded : MorkTable Row) (valid : live.Valid)
    (canDirty : live.spaceCanDirty = true) (saved : Saved live) (loadedValid : loaded.Valid)
    (sameOrder : loaded.rowArray = live.rowArray) (ops : List (RowOp Row)) :
    (replayTable (putTable false (live.run ops)).1 loaded).rowArray = (live.run ops).rowArray := by
  have start : Recording live.rowArray live := by
    refine ⟨valid, canDirty, .inr ?_⟩
    rw [saved.noChanges]
    rfl
  have recording := recording_run start ops
  cases rewrite : (live.run ops).rewrite with
  | true =>
    have ready : Ready [] (onNewTable loaded true) :=
      ⟨valid_cutAllRows loaded, rowArray_cutAllRows loaded, rfl, rfl⟩
    have read := readItems_rows (live.run ops).rowArray ready recording.valid.nodup
    simpa [replayTable, putTable, putTableBody, rewrite] using read
  | false =>
    have ready : Ready live.rowArray (onNewTable loaded false) := ⟨loadedValid, sameOrder, rfl, rfl⟩
    have read := readItems_changes (live.run ops).changeList ready
    rcases recording.tracks with impossible | tracked
    · rw [rewrite] at impossible
      cases impossible
    · rw [tracked] at read
      simpa [replayTable, putTable, putTableBody, rewrite] using read

/-- A clean table with the rows 0 to 4. -/
def fiveRows : MorkTable Nat where
  rowArray := [0, 1, 2, 3, 4]
  rowMap := none
  changeList := []
  changesCount := 0
  changesMax := 0
  rewrite := false
  clean := true
  spaceCanDirty := true

lemma fiveRows_valid : fiveRows.Valid :=
  ⟨by decide, fun _ present => (by cases present), fun _ present => (by cases present)⟩

/-- One move is recorded as a change, replayed on the same five rows. -/
theorem replay_incremental_commit_fiveRows :
    (replayTable (putTable false (fiveRows.run [.move 3 2 1])).1 fiveRows).rowArray =
      (fiveRows.run [.move 3 2 1]).rowArray :=
  replay_incremental_commit fiveRows fiveRows fiveRows_valid rfl ⟨rfl, rfl, rfl⟩ fiveRows_valid rfl
    [.move 3 2 1]

end CommCentral.Mork
