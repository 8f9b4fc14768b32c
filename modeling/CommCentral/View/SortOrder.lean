import CommCentral.View.SortEntry

/-! When the comparators of the message list order the messages of a folder
totally: exactly when the secondary column decides between any two messages that
the primary column ties. -/

namespace CommCentral.View

open Lib Option

/-- The secondary column tells the two messages apart. By id it does so in
ascending order only. -/
def SecondaryDecides (collation : Collation) (view : DBView) (folder : MsgFolder)
    (first second : UInt32) : Prop :=
  if view.secondarySort = .byId then view.secondarySortOrder = .ascending
  else
    ∃ hdr1 hdr2, folder.getMessageHeader first = some hdr1 ∧
      folder.getMessageHeader second = some hdr2 ∧
      match getFieldTypeAndLenForSort view.secondarySort view.secondaryHandler with
      | none => False
      | some (.kCollationKey, _) =>
        collation.compareCollationKeys
          (getCollationKey collation hdr1 view.secondarySort view.secondaryHandler)
          (getCollationKey collation hdr2 view.secondarySort view.secondaryHandler) ≠ 0
      | some (.kU32, _) =>
        ∃ value1 value2,
          getLongField view hdr1 view.secondarySort view.secondaryHandler = some value1 ∧
          getLongField view hdr2 view.secondarySort view.secondaryHandler = some value2 ∧
          value1 ≠ value2

/-- A message as the comparators see it in the secondary column. -/
def secondaryRow (info : ViewSortInfo) (folder : MsgFolder) (fieldType : FieldType)
    (id : UInt32) : IdKey :=
  ((folder.getMessageHeader id).map (secondaryEntry info fieldType)).getD
    { id, dword := none, folder := none, key := [] }

lemma secondaryRow_found {id : UInt32} (found : folder.getMessageHeader id = some hdr) :
    secondaryRow info folder fieldType id = secondaryEntry info fieldType hdr := by
  rw [secondaryRow, found]
  rfl

/-- The order in which ties are broken where the secondary column decides. -/
def tieOrder (info : ViewSortInfo) (folder : MsgFolder) : UInt32 → UInt32 → Int :=
  if info.view.secondarySort = .byId then fieldCmp UInt32.toNat
  else
    match getFieldTypeAndLenForSort info.view.secondarySort info.view.secondaryHandler with
    | none => fun _ _ => 0
    | some (fieldType, _) =>
      directed info.secondary.ascendingSort
        (onKey (secondaryRow info folder fieldType) (fieldType.valueCmp info.collation))

lemma tieOrder_preorder (collates : PreorderCmp info.collation.compareCollationKeys) (folder) :
    PreorderCmp (tieOrder info folder) := by
  unfold tieOrder
  split
  · exact fieldCmp_preorder _
  · split
    · exact ⟨fun _ _ => Iff.rfl, fun _ _ _ _ _ => le_refl _⟩
    · rename_i fieldType _ _
      exact ((fieldType.valueCmp_preorder collates).comap _).directed _

section
variable {info : ViewSortInfo} {p1 p2 : IdKey}

lemma secondaryCompare_eq (outer : info.isSecondarySort = false)
    (found1 : folder.getMessageHeader p1.id = some hdr1)
    (found2 : folder.getMessageHeader p2.id = some hdr2) :
    secondaryCompare info p1.id (some folder) p2.id (some folder) =
      match getFieldTypeAndLenForSort info.view.secondarySort info.view.secondaryHandler with
      | none => some 0
      | some (fieldType, _) =>
        fieldType.comparator info.secondary (secondaryEntry info fieldType hdr1)
          (secondaryEntry info fieldType hdr2) := by
  rw [secondaryCompare]
  simp only [outer, Bool.false_eq_true, dite_false, found1, found2]
  split
  · rename_i missing
    simp only [missing]
  · rename_i found
    simp only [found, FieldType.comparator]
  · rename_i found
    simp only [found, FieldType.comparator]

/-- A tie in the secondary column is left to the keys, one way only. -/
theorem tieBreak_secondary (notById : info.view.secondarySort ≠ .byId) :
    tieBreak info.secondary p1 p2 = some (if p1.id > p2.id then 1 else 0) := by
  have view : info.secondary.view = info.view := rfl
  have nested : info.secondary.isSecondarySort = true := rfl
  rw [tieBreak, view, if_neg notById]
  unfold secondaryCompare
  simp only [nested, dite_true]

/-- The comparison of the secondary entries has the values it needs and finds a
difference. -/
def FieldType.Decides (info : ViewSortInfo) (fieldType : FieldType) (hdr1 hdr2 : MsgHdr) : Prop :=
  fieldType.IsSet (secondaryEntry info fieldType hdr1) ∧
    fieldType.IsSet (secondaryEntry info fieldType hdr2) ∧
    fieldType.valueCmp info.collation (secondaryEntry info fieldType hdr1)
      (secondaryEntry info fieldType hdr2) ≠ 0

lemma decides_collationKey (hdr1 hdr2) :
    FieldType.kCollationKey.Decides info hdr1 hdr2 ↔
      info.collation.compareCollationKeys
        (getCollationKey info.collation hdr1 info.view.secondarySort info.view.secondaryHandler)
        (getCollationKey info.collation hdr2 info.view.secondarySort
          info.view.secondaryHandler) ≠ 0 := by
  simp only [FieldType.Decides, FieldType.IsSet, FieldType.valueCmp, secondaryEntry, true_and]

lemma decides_u32 (notById : info.view.secondarySort ≠ .byId) (hdr1 hdr2) :
    FieldType.kU32.Decides info hdr1 hdr2 ↔
      ∃ value1 value2,
        getLongField info.view hdr1 info.view.secondarySort info.view.secondaryHandler =
          some value1 ∧
        getLongField info.view hdr2 info.view.secondarySort info.view.secondaryHandler =
          some value2 ∧
        value1 ≠ value2 := by
  simp only [FieldType.Decides, FieldType.IsSet, FieldType.valueCmp, secondaryEntry,
    if_neg notById, ne_eq, fieldCmp_eq_zero]
  constructor
  · rintro ⟨set1, set2, different⟩
    obtain ⟨value1, eq1⟩ := isSome_iff_exists.mp set1
    obtain ⟨value2, eq2⟩ := isSome_iff_exists.mp set2
    refine ⟨value1, value2, eq1, eq2, ?_⟩
    intro same
    exact different (by rw [eq1, eq2, same])
  · rintro ⟨value1, value2, eq1, eq2, different⟩
    refine ⟨by rw [eq1]; rfl, by rw [eq2]; rfl, ?_⟩
    rw [eq1, eq2, getD_some, getD_some]
    exact fun same => different (UInt32.toNat_inj.mp same)

lemma secondaryDecides_iff (notById : info.view.secondarySort ≠ .byId)
    (found1 : folder.getMessageHeader p1.id = some hdr1)
    (found2 : folder.getMessageHeader p2.id = some hdr2) :
    SecondaryDecides info.collation info.view folder p1.id p2.id ↔
      ∃ fieldType len,
        getFieldTypeAndLenForSort info.view.secondarySort info.view.secondaryHandler =
          some (fieldType, len) ∧
        fieldType.Decides info hdr1 hdr2 := by
  rw [SecondaryDecides, if_neg notById]
  cases field : getFieldTypeAndLenForSort info.view.secondarySort info.view.secondaryHandler with
  | none => simp
  | some column =>
    obtain ⟨fieldType, len⟩ := column
    cases fieldType with
    | kCollationKey => simp [found1, found2, decides_collationKey]
    | kU32 => simp [found1, found2, decides_u32 notById]

lemma tieBreak_decided (outer : info.isSecondarySort = false)
    (in1 : p1.folder = some folder) (in2 : p2.folder = some folder)
    (found1 : folder.getMessageHeader p1.id = some hdr1)
    (found2 : folder.getMessageHeader p2.id = some hdr2) (distinct : p1.id ≠ p2.id)
    (decides : SecondaryDecides info.collation info.view folder p1.id p2.id) :
    tieBreak info p1 p2 = some (tieOrder info folder p1.id p2.id) ∧
      tieOrder info folder p1.id p2.id ≠ 0 := by
  by_cases byId : info.view.secondarySort = .byId
  · rw [SecondaryDecides, if_pos byId] at decides
    have different : p1.id.toNat ≠ p2.id.toNat := fun same => distinct (UInt32.toNat_inj.mp same)
    have compared : info.compareIds p1.id p2.id = fieldCmp UInt32.toNat p1.id p2.id := by
      simp only [ViewSortInfo.compareIds, decides, true_and, fieldCmp, ge_iff_le,
        UInt32.le_iff_toNat_le]
      split <;> split <;> omega
    rw [tieBreak, if_pos byId, tieOrder, if_pos byId, compared]
    exact ⟨rfl, fun same => different ((fieldCmp_eq_zero _ _ _).mp same)⟩
  · obtain ⟨fieldType, len, column, set1, set2, different⟩ :=
      (secondaryDecides_iff byId found1 found2).mp decides
    have compared := fieldType.comparator_eq info.secondary set1 set2
    have collation : info.secondary.collation = info.collation := rfl
    rw [collation, if_pos different] at compared
    rw [tieBreak, if_neg byId, in1, in2, secondaryCompare_eq outer found1 found2]
    have onRows : onKey (secondaryRow info folder fieldType) (fieldType.valueCmp info.collation)
        p1.id p2.id = fieldType.valueCmp info.collation (secondaryEntry info fieldType hdr1)
          (secondaryEntry info fieldType hdr2) := by
      rw [onKey, secondaryRow_found found1, secondaryRow_found found2]
    simp only [tieOrder, if_neg byId, column, compared]
    constructor
    · rw [directed, directed, onRows]
    · intro same
      exact different (onRows ▸ (directed_eq_zero _).mp same)

/-- Where it does not, the two comparisons of the pair contradict each other. -/
theorem tieBreak_undecided (collates : PreorderCmp info.collation.compareCollationKeys)
    (outer : info.isSecondarySort = false) (in1 : p1.folder = some folder)
    (in2 : p2.folder = some folder) (found1 : folder.getMessageHeader p1.id = some hdr1)
    (found2 : folder.getMessageHeader p2.id = some hdr2)
    (undecided : ¬ SecondaryDecides info.collation info.view folder p1.id p2.id)
    (forward : tieBreak info p1 p2 = some here) (backward : tieBreak info p2 p1 = some there)
    (swapped : here.sign = -there.sign) : here = 0 := by
  by_cases byId : info.view.secondarySort = .byId
  · rw [SecondaryDecides, if_pos byId] at undecided
    rw [tieBreak, if_pos byId, ViewSortInfo.compareIds,
      if_neg (fun ascending => undecided ascending.1)] at forward backward
    cases forward
    cases backward
    simp at swapped
  · have decides : SecondaryDecides info.collation info.view folder p1.id p2.id ↔ _ :=
      secondaryDecides_iff byId found1 found2
    rw [tieBreak, if_neg byId, in1, in2, secondaryCompare_eq outer found1 found2] at forward
    rw [tieBreak, if_neg byId, in1, in2, secondaryCompare_eq outer found2 found1] at backward
    cases column : getFieldTypeAndLenForSort info.view.secondarySort
        info.view.secondaryHandler with
    | none =>
      rw [column] at forward
      exact (Option.some.inj forward).symm
    | some found =>
      obtain ⟨fieldType, len⟩ := found
      simp only [column] at forward backward
      by_cases set : fieldType.IsSet (secondaryEntry info fieldType hdr1) ∧
          fieldType.IsSet (secondaryEntry info fieldType hdr2)
      · have tied : fieldType.valueCmp info.collation (secondaryEntry info fieldType hdr1)
            (secondaryEntry info fieldType hdr2) = 0 := by
          by_contra different
          exact undecided (decides.mpr ⟨fieldType, len, column, set.1, set.2, different⟩)
        have tiedBack : fieldType.valueCmp info.collation (secondaryEntry info fieldType hdr2)
            (secondaryEntry info fieldType hdr1) = 0 :=
          ((fieldType.valueCmp_preorder collates).zero_swap _ _).mp tied
        have collation : info.secondary.collation = info.collation := rfl
        rw [fieldType.comparator_eq info.secondary set.1 set.2, collation,
          if_neg (fun different => different tied), tieBreak_secondary byId] at forward
        rw [fieldType.comparator_eq info.secondary set.2 set.1, collation,
          if_neg (fun different => different tiedBack), tieBreak_secondary byId] at backward
        have forward' := Option.some.inj forward
        have backward' := Option.some.inj backward
        rw [← forward', ← backward'] at swapped
        rw [← forward']
        -- Both results are zero or one, and their signs cancel.
        split at swapped
        · split at swapped <;> simp at swapped
        · rename_i notGreater
          rw [if_neg notGreater]
      · rw [fieldType.comparator_unset info.secondary set] at forward
        cases forward

end

section
variable (collation : Collation) (view : DBView) (folder : MsgFolder)
  (sortType : SortType) (colHandler : Option CustomColumnHandler)

/-- The messages of the folder that have a value in the primary column. -/
def rows : Set UInt32 :=
  { id | (folder.getMessageHeader id).isSome = true ∧
    (sortEntry collation view folder sortType colHandler id).isSome = true }

/-- The context that `Sort` passes to the comparators. -/
def sortInfo (sortOrder : SortOrder) : ViewSortInfo :=
  { view, collation, isSecondarySort := false, ascendingSort := decide (sortOrder = .ascending) }

/-- The comparison of two rows, as `Sort` calls it on their entries. -/
def compareRows (sortOrder : SortOrder) (first second : UInt32) : Option Int :=
  match getFieldTypeAndLenForSort sortType colHandler,
    sortEntry collation view folder sortType colHandler first,
    sortEntry collation view folder sortType colHandler second with
  | some (.kCollationKey, _), some p1, some p2 =>
    fnSortIdKey (sortInfo collation view sortOrder) p1 p2
  | some (.kU32, _), some p1, some p2 => fnSortIdUint32 (sortInfo collation view sortOrder) p1 p2
  | _, _, _ => none

/-- The primary column finds no difference between the two rows. -/
def PrimaryTied (first second : UInt32) : Prop :=
  ∃ p1 p2, sortEntry collation view folder sortType colHandler first = some p1 ∧
    sortEntry collation view folder sortType colHandler second = some p2 ∧
    match getFieldTypeAndLenForSort sortType colHandler with
    | some (.kCollationKey, _) => collation.compareCollationKeys p1.key p2.key = 0
    | some (.kU32, _) => p1.dword = p2.dword
    | none => False

end

section

lemma compareRows_eq (sortOrder)
    (column : getFieldTypeAndLenForSort sortType colHandler = some (fieldType, len))
    (made1 : sortEntry collation view folder sortType colHandler first = some p1)
    (made2 : sortEntry collation view folder sortType colHandler second = some p2) :
    compareRows collation view folder sortType colHandler sortOrder first second =
      if fieldType.valueCmp collation p1 p2 ≠ 0 then
        some (directed (decide (sortOrder = .ascending)) (fieldType.valueCmp collation) p1 p2)
      else tieBreak (sortInfo collation view sortOrder) p1 p2 := by
  obtain ⟨dword1, key1, rfl⟩ := sortEntry_spec made1
  obtain ⟨dword2, key2, rfl⟩ := sortEntry_spec made2
  cases fieldType with
  | kCollationKey =>
    simp only [compareRows, column, made1, made2]
    exact FieldType.kCollationKey.comparator_eq _ trivial trivial
  | kU32 =>
    simp only [compareRows, column, made1, made2]
    exact FieldType.kU32.comparator_eq _ rfl rfl

lemma primaryTied_iff
    (column : getFieldTypeAndLenForSort sortType colHandler = some (fieldType, len))
    (made1 : sortEntry collation view folder sortType colHandler first = some p1)
    (made2 : sortEntry collation view folder sortType colHandler second = some p2) :
    PrimaryTied collation view folder sortType colHandler first second ↔
      fieldType.valueCmp collation p1 p2 = 0 := by
  cases fieldType with
  | kCollationKey => simp [PrimaryTied, column, made1, made2, FieldType.valueCmp]
  | kU32 =>
    obtain ⟨dword1, key1, rfl⟩ := sortEntry_spec made1
    obtain ⟨dword2, key2, rfl⟩ := sortEntry_spec made2
    simp [PrimaryTied, column, made1, made2, FieldType.valueCmp, fieldCmp_eq_zero,
      UInt32.toNat_inj]

/-- The entry of a row; rows have one. -/
def rowEntry (collation : Collation) (view : DBView) (folder : MsgFolder)
    (sortType : SortType) (colHandler : Option CustomColumnHandler) (id : UInt32) : IdKey :=
  (sortEntry collation view folder sortType colHandler id).getD
    { id, dword := none, folder := none, key := [] }

section

variable {id : UInt32} (mem : id ∈ rows collation view folder sortType colHandler)
include mem

lemma rows_spec :
    ∃ hdr, folder.getMessageHeader id = some hdr ∧
      sortEntry collation view folder sortType colHandler id =
        some (rowEntry collation view folder sortType colHandler id) ∧
      (rowEntry collation view folder sortType colHandler id).id = id ∧
      (rowEntry collation view folder sortType colHandler id).folder = some folder := by
  obtain ⟨hdr, found⟩ := isSome_iff_exists.mp mem.1
  obtain ⟨entry, made⟩ := isSome_iff_exists.mp mem.2
  have same : rowEntry collation view folder sortType colHandler id = entry := by
    rw [rowEntry, made]
    rfl
  obtain ⟨dword, key, shape⟩ := sortEntry_spec made
  exact ⟨hdr, found, by rw [same, made], by rw [same, shape], by rw [same, shape]⟩

lemma rows_column :
    ∃ fieldType len, getFieldTypeAndLenForSort sortType colHandler = some (fieldType, len) := by
  have made := mem.2
  unfold sortEntry at made
  split at made
  · cases made
  · split at made
    · cases made
    · rename_i column
      exact ⟨_, _, column⟩
    · rename_i column
      exact ⟨_, _, column⟩

end

section
variable (sortOrder : SortOrder)

lemma compareRows_decided
    (column : getFieldTypeAndLenForSort sortType colHandler = some (fieldType, len))
    (firstIn : first ∈ rows collation view folder sortType colHandler)
    (secondIn : second ∈ rows collation view folder sortType colHandler)
    (distinct : first ≠ second)
    (decides : PrimaryTied collation view folder sortType colHandler first second →
      SecondaryDecides collation view folder first second) :
    ∃ result, compareRows collation view folder sortType colHandler sortOrder first second =
        some result ∧ result ≠ 0 ∧
      result =
        lexCmp
          (directed (decide (sortOrder = .ascending))
            (onKey (rowEntry collation view folder sortType colHandler)
              (fieldType.valueCmp collation)))
          (tieOrder (sortInfo collation view sortOrder) folder) first second := by
  obtain ⟨hdr1, found1, made1, id1, in1⟩ := rows_spec firstIn
  obtain ⟨hdr2, found2, made2, id2, in2⟩ := rows_spec secondIn
  have compared := compareRows_eq sortOrder column made1 made2
  have tiedIff := primaryTied_iff column made1 made2
  by_cases tie : onKey (rowEntry collation view folder sortType colHandler)
      (fieldType.valueCmp collation) first second = 0
  · have decided := decides (tiedIff.mpr tie)
    rw [← id1] at found1
    rw [← id2] at found2
    have outer : (sortInfo collation view sortOrder).isSecondarySort = false := rfl
    obtain ⟨broken, nonzero⟩ :=
      tieBreak_decided outer in1 in2 found1 found2 (by rwa [id1, id2]) (by rwa [id1, id2])
    rw [if_neg (fun different => different tie), broken, id1, id2] at compared
    rw [id1, id2] at nonzero
    exact ⟨_, compared, nonzero, (lexCmp_of_tie ((directed_eq_zero _).mpr tie)).symm⟩
  · have nonzero : directed (decide (sortOrder = .ascending))
        (onKey (rowEntry collation view folder sortType colHandler)
          (fieldType.valueCmp collation)) first second ≠ 0 :=
      fun same => tie ((directed_eq_zero _).mp same)
    exact ⟨_, compared.trans (if_pos tie), nonzero, (lexCmp_of_ne nonzero).symm⟩

/-- Two rows that neither column tells apart are compared the same both ways. -/
theorem compareRows_undecided (collates : PreorderCmp collation.compareCollationKeys)
    (firstIn : first ∈ rows collation view folder sortType colHandler)
    (secondIn : second ∈ rows collation view folder sortType colHandler)
    (tied : PrimaryTied collation view folder sortType colHandler first second)
    (undecided : ¬ SecondaryDecides collation view folder first second) (forward : compareRows
      collation view folder sortType colHandler sortOrder first second = some here) (backward :
      compareRows collation view folder sortType colHandler sortOrder second first = some there)
    (swapped : here.sign = -there.sign) : here = 0 := by
  obtain ⟨fieldType, len, column⟩ := rows_column firstIn
  obtain ⟨hdr1, found1, made1, id1, in1⟩ := rows_spec firstIn
  obtain ⟨hdr2, found2, made2, id2, in2⟩ := rows_spec secondIn
  have same := (primaryTied_iff column made1 made2).mp tied
  have sameBack := ((fieldType.valueCmp_preorder collates).zero_swap _ _).mp same
  rw [compareRows_eq sortOrder column made1 made2, if_neg (fun different => different same)]
    at forward
  rw [compareRows_eq sortOrder column made2 made1, if_neg (fun different => different sameBack)]
    at backward
  rw [← id1] at found1 undecided
  rw [← id2] at found2 undecided
  have outer : (sortInfo collation view sortOrder).isSecondarySort = false := rfl
  exact tieBreak_undecided collates outer in1 in2 found1 found2 undecided forward backward swapped

end

/-- The comparators order the messages of a folder totally exactly when the
secondary column decides between any two that the primary one ties. -/
theorem compareRows_totalOrderOn_iff
    (collates : PreorderCmp collation.compareCollationKeys) (sortOrder : SortOrder) :
    TotalOrderOn (rows collation view folder sortType colHandler)
        (compareRows collation view folder sortType colHandler sortOrder) ↔
      ∀ first ∈ rows collation view folder sortType colHandler,
        ∀ second ∈ rows collation view folder sortType colHandler, first ≠ second →
          PrimaryTied collation view folder sortType colHandler first second →
          SecondaryDecides collation view folder first second := by
  constructor
  · intro laws first firstIn second secondIn distinct tied
    by_contra undecided
    obtain ⟨here, there, forward, backward, swapped⟩ :=
      laws.sign_swap first firstIn second secondIn distinct
    have zero := compareRows_undecided sortOrder collates firstIn secondIn tied undecided
      forward backward swapped
    rw [zero] at forward
    exact laws.nonzero first firstIn second secondIn distinct forward
  · intro decides
    by_cases empty : ∃ id, id ∈ rows collation view folder sortType colHandler
    · obtain ⟨id, mem⟩ := empty
      obtain ⟨fieldType, len, column⟩ := rows_column mem
      have decided := fun first firstIn second secondIn distinct =>
        compareRows_decided sortOrder column firstIn secondIn distinct
          (decides first firstIn second secondIn distinct)
      have ties : ∀ folder, PreorderCmp (tieOrder (sortInfo collation view sortOrder) folder) :=
        tieOrder_preorder collates
      have preorder :=
        (((fieldType.valueCmp_preorder collates).comap
          (rowEntry collation view folder sortType colHandler)).directed
            (decide (sortOrder = .ascending))).lex
          (ties folder)
      apply TotalOrderOn.of_preorder preorder
      · intro first firstIn second secondIn distinct
        obtain ⟨result, compared, -, rfl⟩ := decided first firstIn second secondIn distinct
        exact compared
      · intro first firstIn second secondIn distinct
        obtain ⟨result, -, nonzero, rfl⟩ := decided first firstIn second secondIn distinct
        exact nonzero
    · have none : ∀ id, id ∉ rows collation view folder sortType colHandler :=
        fun id mem => empty ⟨id, mem⟩
      constructor
      · intro first firstIn
        exact absurd firstIn (none first)
      · intro first firstIn
        exact absurd firstIn (none first)
      · intro first firstIn
        exact absurd firstIn (none first)

end

def sameSizeFolder : MsgFolder where
  getMessageHeader id :=
    if id = 1 ∨ id = 2 then
      some
        { messageKey := id, flags := 0, lineCount := 3, messageSize := 40, priority := 1,
          junkscore := "", dateInSeconds := 1000, dateReceived := 0,
          threadNewestMsgDate := none, subjectCollationKey := none, locationName := none,
          recipients := none, author := none, account := none, tags := none,
          isOutgoingMsg := false }
    else none

/-- A view with the order received as its secondary column. -/
def byIdView (secondarySortOrder : SortOrder) : DBView where
  secondarySort := .byId
  secondarySortOrder := secondarySortOrder
  sortColumns := []
  showSizeInLines := false
  threadedDisplay := false
  groupBySort := false
  sortThreadsByRoot := false

def byteCollation : Collation where
  createCollationKey text := some text.toUTF8.toList
  compareCollationKeys := ordCmp

theorem compareRows_totalOrderOn_iff_bySize :
    TotalOrderOn (rows byteCollation (byIdView .ascending) sameSizeFolder .bySize none)
      (compareRows byteCollation (byIdView .ascending) sameSizeFolder .bySize none .descending) :=
  (compareRows_totalOrderOn_iff ordCmp_preorder .descending).mpr fun _ _ _ _ _ _ => by
    have byId : (byIdView .ascending).secondarySort = .byId := rfl
    rw [SecondaryDecides, if_pos byId]
    rfl

/-- By size, then by order received downwards: each of the two messages of one
size is put before the other. -/
theorem bySize_byId_descending_not_ordered :
    ¬ ∀ (collation : Collation), PreorderCmp collation.compareCollationKeys →
      ∀ (view : DBView) (folder : MsgFolder) (sortType : SortType)
        (colHandler : Option CustomColumnHandler) (sortOrder : SortOrder),
        TotalOrderOn (rows collation view folder sortType colHandler)
          (compareRows collation view folder sortType colHandler sortOrder) := by
  intro claim
  have laws := claim byteCollation ordCmp_preorder (byIdView .descending) sameSizeFolder
    .bySize none .ascending
  have forward : compareRows byteCollation (byIdView .descending) sameSizeFolder .bySize none
      .ascending 1 2 = some (-1) := by
    simp [compareRows, getFieldTypeAndLenForSort, sortEntry, sameSizeFolder, getLongField,
      byIdView, fnSortIdUint32, sortInfo, ViewSortInfo.compareIds]
  have backward : compareRows byteCollation (byIdView .descending) sameSizeFolder .bySize none
      .ascending 2 1 = some (-1) := by
    simp [compareRows, getFieldTypeAndLenForSort, sortEntry, sameSizeFolder, getLongField,
      byIdView, fnSortIdUint32, sortInfo, ViewSortInfo.compareIds]
  have inRows : ∀ id : UInt32, id = 1 ∨ id = 2 →
      id ∈ rows byteCollation (byIdView .descending) sameSizeFolder .bySize none := by
    intro id cases
    simp [rows, sameSizeFolder, cases, sortEntry, getFieldTypeAndLenForSort, getLongField]
  obtain ⟨here, there, hereEq, thereEq, swapped⟩ :=
    laws.sign_swap 1 (inRows 1 (.inl rfl)) 2 (inRows 2 (.inr rfl)) (by decide)
  rw [forward] at hereEq
  rw [backward] at thereEq
  cases hereEq
  cases thereEq
  exact absurd swapped (by decide)

end CommCentral.View
