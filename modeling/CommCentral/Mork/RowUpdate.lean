import CommCentral.Mork.RowCells

/-! Taking cells as an update of the row (`TakeCells`). -/
namespace CommCentral.Mork

open Lib List

universe u

variable {Atom : Type u}

/-- The cells of the vector whose column is in the row. -/
def existing (rowColumns : List Nat) (cells : List (MorkCell Atom)) : Nat :=
  cells.countP fun cell => cell.column ∈ rowColumns

/-- The cells of the vector whose column is not in the row. -/
def fresh (rowColumns : List Nat) (cells : List (MorkCell Atom)) : Nat :=
  cells.countP fun cell => cell.column ∉ rowColumns

section Counting

lemma existing_cons_present (present : src.column ∈ rowColumns) :
    existing rowColumns (src :: rest) = existing rowColumns rest + 1 :=
  countP_cons_of_pos (decide_eq_true present)

lemma existing_cons_absent (absent : src.column ∉ rowColumns) :
    existing rowColumns (src :: rest) = existing rowColumns rest :=
  countP_cons_of_neg fun present => absent (of_decide_eq_true present)

lemma fresh_cons_present (present : src.column ∈ rowColumns) :
    fresh rowColumns (src :: rest) = fresh rowColumns rest :=
  countP_cons_of_neg fun absent => (of_decide_eq_true absent : _ ∉ _) present

lemma fresh_cons_absent (absent : src.column ∉ rowColumns) :
    fresh rowColumns (src :: rest) = fresh rowColumns rest + 1 :=
  countP_cons_of_pos (decide_eq_true absent)

lemma existing_add_fresh (rowColumns : List Nat) (cells : List (MorkCell Atom)) :
    existing rowColumns cells + fresh rowColumns cells = cells.length := by
  induction cells with
  | nil => rfl
  | cons src rest ih =>
    by_cases present : src.column ∈ rowColumns
    · rw [existing_cons_present present, fresh_cons_present present, length_cons]
      omega
    · rw [existing_cons_absent present, fresh_cons_absent present, length_cons]
      omega

end Counting

lemma mergeLoop_keeps_twice (twice : ¬ ((columns cells).take newCells).Nodup)
    (merged : mergeLoop newEnd srcCells cells newCells inOverlap = some final) :
    ¬ (columns final).Nodup := by
  induction srcCells generalizing cells newCells inOverlap with
  | nil =>
    cases merged
    exact fun distinct => twice (distinct.sublist (take_sublist _ _))
  | cons src rest ih =>
    rw [mergeLoop] at merged
    split at merged
    · exact ih twice merged
    · split at merged
      · rename_i pos found
        have isPos : getCellPos cells src.column = some pos := by
          split at found
          · exact found
          · exact absurd found.symm (Option.some_ne_none _)
        exact ih ((columns_set isPos).symm ▸ twice) merged
      · split at merged
        · obtain ⟨after, stored, merged⟩ := Option.bind_eq_some_iff.mp merged
          refine ih ?_ merged
          intro distinct
          rw [(columns_store stored).2] at distinct
          have earlier := distinct.sublist
            (take_sublist_take_left (Nat.le_succ newCells))
          rw [take_set_of_le (Nat.le_refl _)] at earlier
          exact twice earlier
        · exact absurd merged.symm (Option.some_ne_none _)

/-- With fewer cells to look up than there are columns in common, a column is added again. -/
theorem mergeLoop_twice {srcCells cells final : List (MorkCell Atom)}
    (adds : ∀ src ∈ srcCells, src.change ≠ .dup) (start : rowColumns <+: columns cells)
    (behind : rowColumns.length ≤ newCells) (few : inOverlap < existing rowColumns srcCells)
    (merged : mergeLoop newEnd srcCells cells newCells inOverlap = some final) :
    ¬ (columns final).Nodup := by
  induction srcCells generalizing cells newCells inOverlap with
  | nil => exact absurd few (Nat.not_lt_zero _)
  | cons src rest ih =>
    obtain ⟨notDup, restAdds⟩ := forall_mem_cons.mp adds
    rw [mergeLoop, if_neg notDup] at merged
    split at merged
    · rename_i pos found
      have looked : inOverlap ≠ 0 ∧ getCellPos cells src.column = some pos := by
        split at found
        · rename_i some
          exact ⟨some, found⟩
        · exact absurd found.symm (Option.some_ne_none _)
      refine ih restAdds ((columns_set looked.2).symm ▸ start) behind ?_ merged
      by_cases present : src.column ∈ rowColumns
      · rw [existing_cons_present present] at few
        have notZero := looked.1
        omega
      · rw [existing_cons_absent present] at few
        omega
    · rename_i notFound
      split at merged
      · obtain ⟨after, stored, merged⟩ := Option.bind_eq_some_iff.mp merged
        obtain ⟨inside, stores⟩ := columns_store stored
        obtain ⟨others, split⟩ := start
        by_cases present : src.column ∈ rowColumns
        · -- the column stands in the row already
          refine mergeLoop_keeps_twice ?_ merged
          intro distinct
          rw [stores, ← split, set_append_right _ _ behind, take_append] at distinct
          have within : newCells - rowColumns.length < others.length := by
            have length := congrArg List.length split
            rw [length_append, columns, length_map] at length
            omega
          refine (nodup_append.mp distinct).2.2 src.column ?_ src.column ?_ rfl
          · rw [take_of_length_le (Nat.le_succ_of_le behind)]
            exact present
          · refine mem_iff_getElem.mpr ⟨newCells - rowColumns.length, ?_, ?_⟩
            · rw [length_take, length_set]
              omega
            · rw [getElem_take, getElem_set_self]
        · refine ih restAdds ?_ (Nat.le_succ_of_le behind) ?_ merged
          · rw [stores, ← split, set_append_right _ _ behind]
            exact prefix_append _ _
          · rw [existing_cons_absent present] at few
            exact few
      · exact absurd merged.symm (Option.some_ne_none _)

/-- The merge under way: `filled` are the cells of the row so far. -/
structure Merging (newEnd : Nat) (rowColumns : List Nat) (filled srcCells : List (MorkCell Atom)) :
    Prop where
  known : ∀ src ∈ srcCells, src.column ∈ columns filled ↔ src.column ∈ rowColumns
  distinct : (columns srcCells).Nodup
  adds : ∀ src ∈ srcCells, src.change ≠ .dup
  room : filled.length + fresh rowColumns srcCells ≤ newEnd

/-- The merge of the cells that are left, with zero cells in the slots that are left. -/
def mergeRest (newEnd : Nat) (rowColumns : List Nat) (filled srcCells : List (MorkCell Atom)) :
    Option (List (MorkCell Atom)) :=
  mergeLoop newEnd srcCells (filled ++ List.replicate (fresh rowColumns srcCells) zeroCell)
    filled.length (existing rowColumns srcCells)

lemma length_columns (cells : List (MorkCell Atom)) : (columns cells).length = cells.length :=
  length_map _

lemma columns_putItem (filled : List (MorkCell Atom)) (src : MorkCell Atom) :
    columns (putItem MorkCell.column filled src) =
      if src.column ∈ columns filled then columns filled else columns filled ++ [src.column] :=
  map_putItem filled src

section Steps

variable {rest : List (MorkCell Atom)}

lemma Merging.next (state : Merging newEnd rowColumns filled (src :: rest)) :
    Merging newEnd rowColumns (putItem MorkCell.column filled src) rest := by
  obtain ⟨srcKnown, restKnown⟩ := forall_mem_cons.mp state.known
  obtain ⟨absent, distinct⟩ := nodup_cons.mp state.distinct
  have room := state.room
  constructor
  · intro cell mem
    have different : cell.column ≠ src.column := fun same => absent (same ▸ mem_map_of_mem mem)
    rw [← restKnown cell mem, columns_putItem]
    split
    · exact Iff.rfl
    · rw [mem_append, mem_singleton]
      exact ⟨fun either => either.resolve_right different, .inl⟩
  · exact distinct
  · exact (forall_mem_cons.mp state.adds).2
  · have length := congrArg List.length (columns_putItem filled src)
    rw [length_columns] at length
    by_cases present : src.column ∈ rowColumns
    · rw [if_pos (srcKnown.mpr present), length_columns] at length
      rw [fresh_cons_present present] at room
      omega
    · rw [if_neg (fun inFilled => present (srcKnown.mp inFilled)), length_append,
        length_columns, length_singleton] at length
      rw [fresh_cons_absent present] at room
      omega

lemma column_replicate {count : Nat} (notZero : column ≠ 0) :
    column ∉ columns (List.replicate count (zeroCell : MorkCell Atom)) := by
  rw [columns, map_replicate]
  exact fun mem => notZero (eq_of_mem_replicate mem)

lemma mergeRest_cons (state : Merging newEnd rowColumns filled (src :: rest))
    (safe : src.column = 0 → src.column ∉ rowColumns → existing rowColumns rest = 0) :
    mergeRest newEnd rowColumns filled (src :: rest) =
      mergeRest newEnd rowColumns (putItem MorkCell.column filled src) rest := by
  obtain ⟨srcKnown, _⟩ := forall_mem_cons.mp state.known
  have room := state.room
  rw [mergeRest, mergeLoop, if_neg (state.adds src mem_cons_self)]
  by_cases present : src.column ∈ rowColumns
  · obtain ⟨before, old, after, split, isColumn, absent⟩ := exists_split (srcKnown.mpr present)
    have position : getCellPos (before ++ old ::
        (after ++ List.replicate (fresh rowColumns rest) zeroCell)) src.column =
          some before.length := getCellPos_split absent isColumn
    rw [existing_cons_present present, fresh_cons_present present, if_pos (Nat.succ_ne_zero _), split,
      append_assoc, cons_append, position, putItem_present absent isColumn, mergeRest,
      append_assoc, cons_append]
    dsimp only
    rw [set_append_right _ _ (Nat.le_refl _), Nat.sub_self, set_cons_zero,
      Nat.add_sub_cancel, length_append, length_append, length_cons,
      length_cons]
  · have notFilled : src.column ∉ columns filled := fun inFilled => present (srcKnown.mp inFilled)
    have notFound : (if existing rowColumns rest ≠ 0 then
        getCellPos (filled ++ List.replicate (fresh rowColumns rest + 1) zeroCell) src.column
        else none) = none := by
      split
      · rename_i some
        apply getCellPos_none
        rw [columns, map_append]
        have notZero : src.column ≠ 0 := fun zero => some (safe zero present)
        exact not_mem_append notFilled (column_replicate notZero)
      · rfl
    rw [fresh_cons_absent present] at room
    rw [existing_cons_absent present, fresh_cons_absent present, notFound]
    dsimp only
    rw [if_pos (by omega), replicate_succ, store_middle, Option.bind_some,
      putItem_absent notFilled, mergeRest, append_assoc, length_append]
    rfl

lemma mergeRest_eq (state : Merging newEnd rowColumns filled rest)
    (safe : rest.Pairwise fun cell later =>
      cell.column = 0 → cell.column ∉ rowColumns → later.column ∉ rowColumns) :
    mergeRest newEnd rowColumns filled rest = some (rest.foldl (putItem MorkCell.column) filled) := by
  induction rest generalizing filled with
  | nil =>
    rw [mergeRest, mergeLoop, fresh, countP_nil, replicate_zero, append_nil]
    rfl
  | cons src rest ih =>
    obtain ⟨srcSafe, restSafe⟩ := pairwise_cons.mp safe
    rw [mergeRest_cons state, ih state.next restSafe, foldl_cons]
    intro zero absent
    refine countP_eq_zero.mpr fun later mem => ?_
    exact fun present => srcSafe later mem zero absent (of_decide_eq_true present)

lemma mergeRest_twice (state : Merging newEnd rowColumns filled rest)
    (start : rowColumns <+: columns filled) (unsafe_ : ¬ rest.Pairwise fun cell later => cell.column
      = 0 → cell.column ∉ rowColumns → later.column ∉ rowColumns)
    (merged : mergeRest newEnd rowColumns filled rest = some final) : ¬ (columns final).Nodup := by
  induction rest generalizing filled with
  | nil => exact absurd List.Pairwise.nil unsafe_
  | cons src rest ih =>
    by_cases bad : src.column = 0 ∧ src.column ∉ rowColumns ∧ existing rowColumns rest ≠ 0
    · obtain ⟨zero, absent, more⟩ := bad
      obtain ⟨srcKnown, _⟩ := forall_mem_cons.mp state.known
      obtain ⟨notDup, adds⟩ := forall_mem_cons.mp state.adds
      have notFilled : src.column ∉ columns filled := fun inFilled => absent (srcKnown.mp inFilled)
      have isZero : (zeroCell : MorkCell Atom).column = src.column := zero.symm
      have position : getCellPos (filled ++ zeroCell ::
          List.replicate (fresh rowColumns rest) zeroCell) src.column = some filled.length :=
        getCellPos_split notFilled isZero
      rw [mergeRest, mergeLoop, if_neg notDup, existing_cons_absent absent, fresh_cons_absent absent,
        if_pos more, replicate_succ, position] at merged
      refine mergeLoop_twice adds ?_ ?_ (Nat.sub_one_lt more) merged
      · rw [columns_set position, columns, map_append]
        exact prefix_append_of_prefix start
      · have length := start.length_le
        rw [columns, length_map] at length
        exact length
    · have safe : src.column = 0 → src.column ∉ rowColumns → existing rowColumns rest = 0 := by
        intro zero absent
        by_contra some
        exact bad ⟨zero, absent, some⟩
      rw [mergeRest_cons state safe] at merged
      refine ih state.next ?_ ?_ merged
      · rw [columns_putItem]
        split
        · exact start
        · exact prefix_append_of_prefix start
      · intro restSafe
        apply unsafe_
        refine pairwise_cons.mpr ⟨?_, restSafe⟩
        intro later mem zero absent present
        have none := countP_eq_zero.mp (safe zero absent) later mem
        exact none (decide_eq_true present)

end Steps

/-- The row has the atoms of the vector, and its own for the other columns. -/
structure Updates (row ioVector after : List (MorkCell Atom)) : Prop where
  distinct : (columns after).Nodup
  atoms : ∀ column, (getCell after column).map MorkCell.atom =
    ((getCell ioVector column).or (getCell row column)).map MorkCell.atom

/-- No cell of the vector has the atom that the row has in its column already. -/
def RepeatsNone (row ioVector : List (MorkCell Atom)) : Prop :=
  ∀ cell ∈ ioVector, ∀ old ∈ row, old.column = cell.column → old.atom ≠ cell.atom

/-- A cell of column 0 that is new to the row stands behind all those that are not. -/
def ZeroIsLate (row ioVector : List (MorkCell Atom)) : Prop :=
  ioVector.Pairwise fun cell later =>
    cell.column = 0 → cell.column ∉ columns row → later.column ∉ columns row

variable {row : List (MorkCell Atom)}

lemma getCell_of_mem (distinct : (columns row).Nodup) (mem : old ∈ row) :
    getCell row old.column = some old := by
  have isSome : (getCell row old.column).isSome := itemAt_isSome_iff.mpr (mem_map_of_mem mem)
  obtain ⟨other, found⟩ := Option.isSome_iff_exists.mp isSome
  obtain ⟨otherMember, same⟩ := itemAt_key found
  rw [found, inj_on_of_nodup_map distinct otherMember mem same]

lemma addRowCells_eq (short : row.length ≤ 0xFFFF) (growth : Nat) :
    (if growth ≠ 0 then addRowCells row (row.length + growth) else some row) =
      if row.length + growth ≤ 0xFFFF then some (row ++ List.replicate growth zeroCell) else none := by
  by_cases grows : growth = 0
  · subst grows
    rw [if_neg (not_not_intro rfl), Nat.add_zero, if_pos short, replicate_zero,
      append_nil]
  · have longer : row.length < row.length + growth := by omega
    rw [if_pos grows, addRowCells, if_pos longer, Nat.add_sub_cancel_left]
    by_cases fits : row.length + growth ≤ 0xFFFF
    · rw [if_pos fits, if_pos (by omega)]
    · rw [if_neg fits, if_neg (by omega)]

variable [DecidableEq Atom]

def replaces (row : List (MorkCell Atom)) (cell : MorkCell Atom) : Bool :=
  (getCell row cell.column).any fun old => cell.atom ≠ old.atom

lemma countOverlap_adds (adds : ∀ cell ∈ ioVector, cell.change = .add) :
    countOverlap row ioVector = (ioVector.countP (replaces row), ioVector) := by
  induction ioVector with
  | nil => rfl
  | cons cell rest ih =>
    obtain ⟨isAdd, restAdds⟩ := forall_mem_cons.mp adds
    rw [countOverlap, ih restAdds]
    dsimp only
    cases found : getCell row cell.column with
    | none =>
      have notReplaces : ¬ replaces row cell = true := by
        rw [replaces, found]
        exact Bool.false_ne_true
      rw [countP_cons_of_neg notReplaces]
    | some old =>
      have notCut : cell.change ≠ .cut ∨ old.change ≠ cell.change := .inl (by rw [isAdd]; decide)
      dsimp only
      rw [if_pos notCut]
      by_cases same : cell.atom = old.atom
      · have notReplaces : ¬ replaces row cell = true := by
          rw [replaces, found, Option.any_some, decide_eq_true_iff]
          exact not_not_intro same
        rw [countP_cons_of_neg notReplaces, if_neg (not_not_intro same)]
      · have isReplaced : replaces row cell = true := by
          rw [replaces, found, Option.any_some, decide_eq_true_iff]
          exact same
        rw [countP_cons_of_pos isReplaced, if_pos same]

lemma existing_of_replaces (isReplaced : replaces row cell = true) :
    cell.column ∈ columns row := by
  apply itemAt_isSome_iff.mp
  change (getCell row cell.column).isSome
  cases found : getCell row cell.column with
  | none =>
    rw [replaces, found] at isReplaced
    exact absurd isReplaced Bool.false_ne_true
  | some old => rfl

lemma overlap_eq (none_ : RepeatsNone row ioVector) :
    ioVector.countP (replaces row) = existing (columns row) ioVector := by
  apply countP_congr
  intro cell mem
  rw [decide_eq_true_iff]
  constructor
  · exact existing_of_replaces
  · intro present
    obtain ⟨old, found⟩ := Option.isSome_iff_exists.mp (itemAt_isSome_iff.mpr present)
    obtain ⟨oldMember, isColumn⟩ := itemAt_key found
    rw [replaces, getCell, found, Option.any_some, decide_eq_true_iff]
    exact Ne.symm (none_ cell mem old oldMember isColumn)

lemma overlap_lt (distinct : (columns row).Nodup) (repeats : ¬ RepeatsNone row ioVector) :
    ioVector.countP (replaces row) < existing (columns row) ioVector := by
  simp only [RepeatsNone, not_forall, not_not] at repeats
  obtain ⟨cell, mem, old, oldMember, isColumn, same⟩ := repeats
  obtain ⟨before, after, split⟩ := append_of_mem mem
  have le : ∀ cells : List (MorkCell Atom),
      cells.countP (replaces row) ≤ existing (columns row) cells := by
    intro cells
    apply countP_mono_left
    intro other _ isReplaced
    exact decide_eq_true (existing_of_replaces isReplaced)
  have notReplaced : ¬ replaces row cell = true := by
    rw [replaces, ← isColumn, getCell_of_mem distinct oldMember, Option.any_some,
      decide_eq_true_iff]
    exact not_not_intro same.symm
  have present : cell.column ∈ columns row := isColumn ▸ mem_map_of_mem oldMember
  have split' : existing (columns row) ioVector =
      existing (columns row) before + existing (columns row) (cell :: after) := by
    rw [split, existing, countP_append]
    rfl
  rw [split', existing_cons_present present, split, countP_append,
    countP_cons_of_neg notReplaced]
  have first := le before
  have second := le after
  omega

lemma takeCells_eq (short : row.length ≤ 0xFFFF) (some_ : ioVector ≠ [])
    (adds : ∀ cell ∈ ioVector, cell.change = .add)
    (grows : ioVector.length - ioVector.countP (replaces row) = growth) :
    takeCells row ioVector =
      if row.length + growth ≤ 0xFFFF then
        mergeLoop (row.length + (row.length + growth)) ioVector
          (row ++ List.replicate growth zeroCell) row.length (ioVector.countP (replaces row))
      else none := by
  rw [takeCells, if_neg some_, countOverlap_adds adds]
  dsimp only
  rw [grows, addRowCells_eq short]
  split
  · have length : (row ++ List.replicate growth (zeroCell : MorkCell Atom)).length =
        row.length + growth := by
      rw [length_append, length_replicate]
    rw [Option.bind_some, if_pos (Nat.le_of_eq length.symm), mergeCells, length]
  · rfl

/-- A row takes cells as an update if and only if none of them repeats an atom of the row, a new
column 0 comes late enough, and the row does not get too long. -/
theorem takeCells_updates_iff (short : row.length ≤ 0xFFFF) (distinct : (columns row).Nodup)
    (vectorDistinct : (columns ioVector).Nodup) (adds : ∀ cell ∈ ioVector, cell.change = .add) :
    (∃ after, takeCells row ioVector = some after ∧ Updates row ioVector after) ↔
      RepeatsNone row ioVector ∧ ZeroIsLate row ioVector ∧
        row.length + fresh (columns row) ioVector ≤ 0xFFFF := by
  by_cases empty : ioVector = []
  · subst empty
    constructor
    · exact fun _ => ⟨nofun, .nil, short⟩
    · exact fun _ => ⟨row, rfl, distinct, fun _ => rfl⟩
  have changes : ∀ cell ∈ ioVector, cell.change ≠ .dup := by
    intro cell mem
    rw [adds cell mem]
    decide
  by_cases repeats : RepeatsNone row ioVector
  · have growth : ioVector.length - ioVector.countP (replaces row) =
        fresh (columns row) ioVector := by
      have total := existing_add_fresh (columns row) ioVector
      rw [overlap_eq repeats]
      omega
    have start : Merging (row.length + (row.length + fresh (columns row) ioVector)) (columns row) row
        ioVector :=
      ⟨fun _ _ => Iff.rfl, vectorDistinct, changes, by omega⟩
    rw [takeCells_eq short empty adds growth, overlap_eq repeats]
    by_cases fits : row.length + fresh (columns row) ioVector ≤ 0xFFFF
    · rw [if_pos fits]
      change (∃ after, mergeRest _ (columns row) row ioVector = some after ∧ _) ↔ _
      constructor
      · rintro ⟨after, merged, updates⟩
        refine ⟨repeats, ?_, fits⟩
        by_contra early
        exact mergeRest_twice start prefix_rfl early merged updates.distinct
      · rintro ⟨_, late, _⟩
        refine ⟨_, mergeRest_eq start late, nodup_putAll distinct ioVector, ?_⟩
        intro column
        rw [getCell, itemAt_putAll vectorDistinct]
        rfl
    · rw [if_neg fits]
      constructor
      · rintro ⟨after, nothing, _⟩
        exact absurd nothing.symm (Option.some_ne_none _)
      · exact fun condition => absurd condition.2.2 fits
  · have few := overlap_lt distinct repeats
    rw [takeCells_eq short empty adds rfl]
    constructor
    · rintro ⟨after, merged, updates⟩
      split at merged
      · refine absurd updates.distinct (mergeLoop_twice changes ?_ ?_ few merged)
        · rw [columns, columns, map_append]
          exact prefix_append _ _
        · exact Nat.le_of_eq (length_columns row)
      · exact absurd merged.symm (Option.some_ne_none _)
    · exact fun condition => absurd condition.1 repeats

/-- A row of two cells takes another atom for its second column and a new column. -/
theorem takeCells_twoCells :
    ∃ after, takeCells [⟨1, .nil, some 10⟩, ⟨2, .nil, some 20⟩]
        [⟨2, .add, some 21⟩, ⟨3, .add, some 30⟩] = some after ∧
      Updates [⟨1, .nil, some 10⟩, ⟨2, .nil, some 20⟩] [⟨2, .add, some 21⟩, ⟨3, .add, some 30⟩]
        after := by
  refine (takeCells_updates_iff (by decide) (by decide) (by decide) (by decide)).mpr
    ⟨?_, ?_, by decide⟩
  · unfold RepeatsNone
    decide
  · unfold ZeroIsLate
    decide

/-- A row takes the atom that it has in the first column and another one for the second: the second
column is added again, and the old atom is found. -/
theorem takeCells_repeatedAtom :
    takeCells [⟨1, .nil, some 10⟩, ⟨2, .nil, some 20⟩] [⟨1, .add, some 10⟩, ⟨2, .add, some 21⟩] =
        some [⟨1, .add, some 10⟩, ⟨2, .nil, some 20⟩, ⟨2, .add, some 21⟩] ∧
      ¬ ∃ after, takeCells [⟨1, .nil, some 10⟩, ⟨2, .nil, some 20⟩]
          [⟨1, .add, some 10⟩, ⟨2, .add, some 21⟩] = some after ∧
        Updates [⟨1, .nil, some 10⟩, ⟨2, .nil, some 20⟩] [⟨1, .add, some 10⟩, ⟨2, .add, some 21⟩]
          after := by
  have taken : takeCells [⟨1, .nil, some 10⟩, ⟨2, .nil, some 20⟩]
      [⟨1, .add, some 10⟩, ⟨2, .add, some 21⟩] =
        some [⟨1, .add, some 10⟩, ⟨2, .nil, some 20⟩, ⟨2, .add, some 21⟩] := by decide
  refine ⟨taken, ?_⟩
  rintro ⟨after, ran, updates⟩
  cases taken.symm.trans ran
  exact absurd updates.distinct (by decide)

end CommCentral.Mork
