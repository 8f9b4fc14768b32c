import CommCentral.Lib.Comparator
import Mathlib.Data.List.Basic

/-! Sorted insertion of the calendar: `binarySearch`, and the insertion of an item into an array or
of a node under a parent. -/
namespace CommCentral.Calendar

open Lib List Option

variable {Item Node : Type}

/-- The two bounds have met. No comparison is made with an item that is not there. -/
def lastPlace (itemArray : List Item) (newItem : Item) (comptor : Item → Item → Int) (low : Nat) :
    Option Nat := do
  let item ← itemArray[low]?
  return low + if comptor newItem item < 0 then 0 else 1

def binarySearchInternal (itemArray : List Item) (newItem : Item) (comptor : Item → Item → Int) :
    (steps low high : Nat) → Option Nat
  | 0, low, high => if low = high then lastPlace itemArray newItem comptor low else none
  | steps + 1, low, high =>
    if low = high then lastPlace itemArray newItem comptor low
    else do
      let mid := low + (high - low) / 2
      let item ← itemArray[mid]?
      let cmp := comptor newItem item
      if cmp > 0 then binarySearchInternal itemArray newItem comptor steps (mid + 1) high
      else if cmp < 0 then binarySearchInternal itemArray newItem comptor steps low mid
      else return mid

def binarySearch (itemArray : List Item) (newItem : Item) (comptor : Item → Item → Int) :
    Option Int :=
  if itemArray.length < 1 then some (-1)
  else
    (binarySearchInternal itemArray newItem comptor itemArray.length 0 (itemArray.length - 1)).map
      Int.ofNat

/-- `splice` of one item, and `insertBefore`, which appends where there is no node. -/
def insertAt (items : List Item) (index : Nat) (item : Item) : List Item :=
  items.take index ++ item :: items.drop index

/-- The array afterwards and the index. -/
def binaryInsert (itemArray : List Item) (item : Item) (comptor : Item → Item → Int)
    (discardDuplicates : Bool) : Option (List Item × Int) := do
  let newIndex ← binarySearch itemArray item comptor
  if newIndex < 0 then
    return (itemArray ++ [item], 0)
  let neighbour ← itemArray[min newIndex.toNat (itemArray.length - 1)]?
  if !discardDuplicates || comptor neighbour item ≠ 0 then
    return (insertAt itemArray newIndex.toNat item, newIndex)
  return (itemArray, newIndex)

/-- The children afterwards and the index. -/
def binaryInsertNode (children : List Node) (insertNode : Node) (aItem : Item)
    (comptor : Item → Item → Int) (discardDuplicates : Bool) (accessor : Node → Item) :
    Option (List Node × Int) := do
  let newIndex ← binarySearch (children.map accessor) aItem comptor
  if newIndex < 0 then
    return (children ++ [insertNode], 0)
  let neighbour ← children[min newIndex.toNat (children.length - 1)]?
  if !discardDuplicates || comptor (accessor neighbour) aItem ≥ 0 then
    return (insertAt children newIndex.toNat insertNode, newIndex)
  return (children, newIndex)

/-- Where an item may be put among sorted ones. The item at the place, or the last one where the
place is behind all of them, is an equal one if there is any. -/
structure Place (comptor : Item → Item → Int) (items : List Item) (item : Item) (index : Nat) :
    Prop where
  inside : index ≤ items.length
  below : ∀ position < index, ∀ other, items[position]? = some other → comptor other item ≤ 0
  above : ∀ position ≥ index, ∀ other, items[position]? = some other → comptor item other ≤ 0
  neighbour : ∃ other, items[min index (items.length - 1)]? = some other ∧
    ((∃ equal ∈ items, comptor equal item = 0) ↔ comptor other item = 0)

def Sorted (comptor : Item → Item → Int) (items : List Item) : Prop :=
  items.Pairwise fun first second => comptor first second ≤ 0

section Search

variable {comptor : Item → Item → Int} (laws : PreorderCmp comptor) {items : List Item}
  (sorted : Sorted comptor items)
include laws sorted

lemma before_le {low high : Nat} (atLow : items[low]? = some lower)
    (atHigh : items[high]? = some upper) (order : low ≤ high) : comptor lower upper ≤ 0 := by
  obtain ⟨lowInside, isLower⟩ := List.getElem?_eq_some_iff.mp atLow
  obtain ⟨highInside, isUpper⟩ := List.getElem?_eq_some_iff.mp atHigh
  rcases Nat.lt_or_eq_of_le order with less | same
  · have ordered := pairwise_iff_getElem.mp sorted low high lowInside highInside less
    rw [isLower, isUpper] at ordered
    exact ordered
  · subst same
    rw [isLower] at isUpper
    subst isUpper
    have swap := laws.neg_swap lower lower
    omega

lemma Place.of_equal (atIndex : items[index]? = some other) (equal : comptor other item = 0) :
    Place comptor items item index := by
  have inside := (List.getElem?_eq_some_iff.mp atIndex).1
  have flipped := (laws.zero_swap other item).mp equal
  constructor
  · exact Nat.le_of_lt inside
  · intro position less earlier atPosition
    have ordered := before_le laws sorted atPosition atIndex (Nat.le_of_lt less)
    exact laws.trans earlier other item ordered (le_of_eq equal)
  · intro position notLess later atPosition
    have ordered := before_le laws sorted atIndex atPosition notLess
    exact laws.trans item other later (le_of_eq flipped) ordered
  · refine ⟨other, ?_, ?_⟩
    · rw [Nat.min_eq_left (Nat.le_sub_one_of_lt inside)]
      exact atIndex
    · exact ⟨fun _ => equal, fun _ => ⟨other, mem_of_getElem? atIndex, equal⟩⟩

omit sorted in
lemma Place.of_gap (nonempty : items ≠ []) (inside : index ≤ items.length)
    (below : ∀ position < index, ∀ other, items[position]? = some other → comptor other item < 0)
    (above : ∀ position ≥ index, ∀ other, items[position]? = some other → comptor item other < 0) :
    Place comptor items item index := by
  have different : ∀ (position : Nat) (other : Item), items[position]? = some other →
      comptor other item ≠ 0 := by
    intro position other atPosition equal
    rcases Nat.lt_or_ge position index with less | notLess
    · exact absurd equal (ne_of_lt (below position less other atPosition))
    · have flipped := (laws.zero_swap other item).mp equal
      exact absurd flipped (ne_of_lt (above position notLess other atPosition))
  constructor
  · exact inside
  · exact fun position less other atPosition => le_of_lt (below position less other atPosition)
  · exact fun position notLess other atPosition =>
      le_of_lt (above position notLess other atPosition)
  · have length := length_pos_of_ne_nil nonempty
    have within : min index (items.length - 1) < items.length := by omega
    have atNeighbour := getElem?_eq_getElem within
    refine ⟨_, atNeighbour, ?_, ?_⟩
    · rintro ⟨equal, mem, isEqual⟩
      obtain ⟨position, atPosition⟩ := mem_iff_getElem?.mp mem
      exact absurd isEqual (different position equal atPosition)
    · intro isEqual
      exact absurd isEqual (different _ _ atNeighbour)

lemma Place.of_end {last : Item} (atLast : items[items.length - 1]? = some last)
    (notAbove : comptor last item ≤ 0) : Place comptor items item items.length := by
  have before : ∀ (position : Nat) (other : Item), items[position]? = some other →
      comptor other last ≤ 0 := by
    intro position other atPosition
    have inside := (List.getElem?_eq_some_iff.mp atPosition).1
    exact before_le laws sorted atPosition atLast (Nat.le_sub_one_of_lt inside)
  constructor
  · exact Nat.le_refl _
  · intro position _ other atPosition
    exact laws.trans other last item (before position other atPosition) notAbove
  · intro position notLess other atPosition
    have inside := (List.getElem?_eq_some_iff.mp atPosition).1
    exact absurd inside (Nat.not_lt.mpr notLess)
  · refine ⟨last, ?_, ?_, ?_⟩
    · rw [Nat.min_eq_right (Nat.sub_le _ _)]
      exact atLast
    · rintro ⟨equal, mem, isEqual⟩
      obtain ⟨position, atPosition⟩ := mem_iff_getElem?.mp mem
      have flipped := (laws.zero_swap equal item).mp isEqual
      have back := laws.trans item equal last (le_of_eq flipped) (before position equal atPosition)
      have swap := laws.neg_swap last item
      omega
    · exact fun isEqual => ⟨last, mem_of_getElem? atLast, isEqual⟩

/-- The bounds that have met, between smaller items and a greater one or the end. -/
theorem lastPlace_spec (inside : low < items.length)
    (below : ∀ position < low, ∀ other, items[position]? = some other → comptor other item < 0)
    (above : low + 1 = items.length ∨ ∀ other, items[low]? = some other → comptor item other < 0) :
    ∃ index, lastPlace items item comptor low = some index ∧ Place comptor items item index := by
  have atLow := getElem?_eq_getElem inside
  have nonempty : items ≠ [] := ne_nil_of_length_pos (Nat.zero_lt_of_lt inside)
  rw [lastPlace, atLow]
  by_cases less : comptor item items[low] < 0
  · refine ⟨low, ?_, ?_⟩
    · rw [bind_eq_bind, bind_some, if_pos less]
      rfl
    · apply Place.of_gap laws nonempty (Nat.le_of_lt inside) below
      intro position notLess other atPosition
      exact laws.neg_trans less (before_le laws sorted atLow atPosition notLess)
  · refine ⟨low + 1, ?_, ?_⟩
    · rw [bind_eq_bind, bind_some, if_neg less]
      rfl
    · rcases above with isLast | above
      · have swap := laws.neg_swap items[low] item
        have swap' := laws.neg_swap item items[low]
        rw [isLast]
        have atLast : items[items.length - 1]? = some items[low] := by
          rw [← isLast]
          exact atLow
        exact Place.of_end laws sorted atLast (by omega)
      · exact absurd (above _ atLow) less

lemma binarySearchInternal_spec (enough : high - low ≤ steps)
    (order : low ≤ high) (inside : high < items.length)
    (below : ∀ position < low, ∀ other, items[position]? = some other → comptor other item < 0)
    (above : high + 1 = items.length ∨
      ∀ other, items[high]? = some other → comptor item other < 0) :
    ∃ index, binarySearchInternal items item comptor steps low high = some index ∧
      Place comptor items item index := by
  induction steps generalizing low high with
  | zero =>
    have notLess := Nat.sub_eq_zero_iff_le.mp (Nat.le_zero.mp enough)
    have met : low = high := Nat.le_antisymm order notLess
    subst met
    rw [binarySearchInternal, if_pos rfl]
    exact lastPlace_spec laws sorted inside below above
  | succ steps ih =>
    rw [binarySearchInternal]
    by_cases met : low = high
    · subst met
      rw [if_pos rfl]
      exact lastPlace_spec laws sorted inside below above
    · rw [if_neg met]
      dsimp only
      generalize middle : low + (high - low) / 2 = mid
      have less : mid < high := by omega
      have notLess : low ≤ mid := by omega
      have midInside := Nat.lt_trans less inside
      have atMid := getElem?_eq_getElem midInside
      rw [atMid, bind_eq_bind, bind_some]
      rcases lt_trichotomy (comptor item items[mid]) 0 with smaller | equal | greater
      · rw [if_neg (not_lt_of_gt smaller), if_pos smaller]
        apply ih (by omega) notLess midInside below
        right
        intro other isOther
        rw [atMid] at isOther
        exact Option.some.inj isOther ▸ smaller
      · rw [if_neg (by omega), if_neg (by omega)]
        exact ⟨mid, rfl, Place.of_equal laws sorted atMid ((laws.zero_swap _ _).mp equal)⟩
      · rw [if_pos greater]
        apply ih (by omega) (by omega) inside _ above
        intro position before other atPosition
        have ordered := before_le laws sorted atPosition atMid (Nat.le_of_lt_succ before)
        exact laws.trans_neg ordered ((laws.neg_swap _ _).mpr greater)

lemma binarySearch_spec (item : Item) (nonempty : items ≠ []) :
    ∃ index : Nat, binarySearch items item comptor = some (index : Int) ∧
      Place comptor items item index := by
  have length := length_pos_of_ne_nil nonempty
  have enough : items.length - 1 - 0 ≤ items.length := by omega
  have inside : items.length - 1 < items.length := Nat.sub_one_lt_of_lt length
  have below : ∀ position < 0, ∀ other, items[position]? = some other → comptor other item < 0 :=
    fun position less => absurd less (Nat.not_lt_zero _)
  obtain ⟨index, found, place⟩ := binarySearchInternal_spec laws sorted enough (Nat.zero_le _)
    inside below (.inl (Nat.sub_add_cancel length))
  refine ⟨index, ?_, place⟩
  rw [binarySearch, if_neg (by omega), found]
  rfl

end Search

lemma map_insertAt (accessor : Node → Item) (children) (index : Nat) (node : Node) :
    (insertAt children index node).map accessor =
      insertAt (children.map accessor) index (accessor node) := by
  rw [insertAt, insertAt, map_append, map_cons, map_take, map_drop]

lemma length_insertAt (items) (index : Nat) (item : Item) :
    (insertAt items index item).length = items.length + 1 := by
  conv_rhs => rw [← take_append_drop index items]
  rw [insertAt, length_append, length_cons, length_append, Nat.add_assoc]

lemma insertAt_ne (items) (index : Nat) (item : Item) : insertAt items index item ≠ items := by
  intro same
  have length := length_insertAt items index item
  rw [same] at length
  exact absurd length (Nat.ne_add_one _)

/-- What is left of sorted items and one more, which is at the index or equal to the one there. -/
structure SortedInsertion (comptor : Item → Item → Int) (itemArray : List Item) (item : Item)
    (discardDuplicates : Bool) (result : List Item) (newIndex : Int) : Prop where
  sorted : Sorted comptor result
  content :
    if discardDuplicates = true ∧ ∃ equal ∈ itemArray, comptor equal item = 0 then
      result = itemArray
    else ∃ before after, itemArray = before ++ after ∧ result = before ++ item :: after
  index : 0 ≤ newIndex ∧ ∃ other, result[newIndex.toNat]? = some other ∧ comptor other item = 0

/-- Both insertions succeed, leave the same items, and these are sorted. -/
def SameInsertion (comptor : Item → Item → Int) (children : List Node) (accessor : Node → Item)
    (insertNode : Node) (discardDuplicates : Bool) : Prop :=
  ∃ result newIndex nodes nodeIndex,
    binaryInsert (children.map accessor) (accessor insertNode) comptor discardDuplicates =
      some (result, newIndex) ∧
    binaryInsertNode children insertNode (accessor insertNode) comptor discardDuplicates accessor =
      some (nodes, nodeIndex) ∧
    nodes.map accessor = result ∧
    SortedInsertion comptor (children.map accessor) (accessor insertNode) discardDuplicates result
      newIndex ∧
    SortedInsertion comptor (children.map accessor) (accessor insertNode) discardDuplicates
      (nodes.map accessor) nodeIndex

section Insertions

variable {comptor : Item → Item → Int} (laws : PreorderCmp comptor) {items : List Item}
  (sorted : Sorted comptor items)

include laws in
lemma equal_self (item : Item) : comptor item item = 0 := by
  have swap := laws.neg_swap item item
  omega

include laws sorted in
lemma Place.sortedInsertion (place : Place comptor items item index)
    (kept : ¬ (discardDuplicates = true ∧ ∃ equal ∈ items, comptor equal item = 0)) :
    SortedInsertion comptor items item discardDuplicates (insertAt items index item) index := by
  have split := take_append_drop index items
  constructor
  · rw [← split, Sorted, pairwise_append] at sorted
    obtain ⟨front, back, across⟩ := sorted
    rw [insertAt, Sorted, pairwise_append]
    refine ⟨front, ?_, ?_⟩
    · refine pairwise_cons.mpr ⟨?_, back⟩
      intro other mem
      obtain ⟨position, atPosition⟩ := mem_iff_getElem?.mp mem
      rw [getElem?_drop] at atPosition
      exact place.above _ (Nat.le_add_right _ _) other atPosition
    · intro earlier isEarlier later isLater
      obtain ⟨position, atPosition⟩ := mem_iff_getElem?.mp isEarlier
      rcases mem_cons.mp isLater with rfl | isLater
      · rw [getElem?_take] at atPosition
        split at atPosition
        · rename_i less
          exact place.below position less earlier atPosition
        · cases atPosition
      · exact across earlier isEarlier later isLater
  · rw [if_neg kept]
    exact ⟨items.take index, items.drop index, split.symm, rfl⟩
  · refine ⟨Int.natCast_nonneg index, item, ?_, equal_self laws item⟩
    have length : (items.take index).length = index := by
      rw [length_take, Nat.min_eq_left place.inside]
    rw [Int.toNat_natCast, insertAt, getElem?_append_right (Nat.le_of_eq length), length,
      Nat.sub_self]
    rfl

/-- The whole of `binaryInsert` in an array that is not empty. -/
theorem binaryInsert_eq {index : Nat} (found : binarySearch items item comptor = some (index : Int))
    (neighbour : items[min index (items.length - 1)]? = some other) :
    binaryInsert items item comptor discardDuplicates =
      if discardDuplicates = true ∧ comptor other item = 0 then some (items, (index : Int))
      else some (insertAt items index item, (index : Int)) := by
  have notNegative : ¬ (index : Int) < 0 := by omega
  rw [binaryInsert, found]
  simp only [bind_eq_bind, bind_some, if_neg notNegative, Int.toNat_natCast,
    neighbour]
  cases discardDuplicates with
  | false => rfl
  | true =>
    by_cases equal : comptor other item = 0
    · simp [equal]
    · simp [equal]

lemma binaryInsertNode_eq {children : List Node} {accessor : Node → Item} {index : Nat}
    (found : binarySearch (children.map accessor) item comptor = some (index : Int))
    (neighbour : (children.map accessor)[min index (children.length - 1)]? = some other) :
    binaryInsertNode children insertNode item comptor discardDuplicates accessor =
      if discardDuplicates = true ∧ comptor other item < 0 then some (children, (index : Int))
      else some (insertAt children index insertNode, (index : Int)) := by
  have notNegative : ¬ (index : Int) < 0 := by omega
  rw [getElem?_map] at neighbour
  obtain ⟨node, isNode, rfl⟩ := map_eq_some_iff.mp neighbour
  rw [binaryInsertNode, found]
  simp only [bind_eq_bind, bind_some, if_neg notNegative, Int.toNat_natCast, isNode]
  cases discardDuplicates with
  | false => rfl
  | true =>
    by_cases less : comptor (accessor node) item < 0
    · simp [less, Int.not_le.mpr less]
    · simp [less, Int.not_lt.mp less]

include laws in
lemma Place.exists_greater_iff (place : Place comptor items item index)
    (different : ∀ other ∈ items, comptor other item ≠ 0) {neighbour : Item}
    (isNeighbour : items[min index (items.length - 1)]? = some neighbour) :
    (∃ other ∈ items, 0 < comptor other item) ↔ 0 < comptor neighbour item := by
  have notEqual := different neighbour (mem_of_getElem? isNeighbour)
  constructor
  · rintro ⟨other, mem, greater⟩
    obtain ⟨position, atPosition⟩ := mem_iff_getElem?.mp mem
    have inside := (List.getElem?_eq_some_iff.mp atPosition).1
    have notLess : index ≤ position := by
      by_contra less
      have below := place.below position (Nat.lt_of_not_le less) other atPosition
      exact absurd greater (Int.not_lt.mpr below)
    rw [Nat.min_eq_left (by omega)] at isNeighbour
    have above := place.above index (Nat.le_refl _) neighbour isNeighbour
    have swap := laws.neg_swap neighbour item
    omega
  · exact fun greater => ⟨neighbour, mem_of_getElem? isNeighbour, greater⟩

end Insertions

lemma sortedInsertion_nil {comptor : Item → Item → Int} (laws : PreorderCmp comptor) (item : Item)
    (discardDuplicates : Bool) :
    SortedInsertion comptor [] item discardDuplicates [item] 0 where
  sorted := pairwise_singleton _ item
  content := by
    rw [if_neg (by simp)]
    exact ⟨[], [], rfl, rfl⟩
  index := ⟨Int.le_refl 0, item, rfl, equal_self laws item⟩

/-- The two insertions do the same exactly if duplicates are not discarded, or if none is there and
the item does not belong behind all that are. -/
theorem sameInsertion_iff {comptor : Item → Item → Int} (laws : PreorderCmp comptor)
    (children : List Node) (accessor : Node → Item)
    (sorted : Sorted comptor (children.map accessor)) (insertNode : Node)
    (discardDuplicates : Bool) :
    SameInsertion comptor children accessor insertNode discardDuplicates ↔
      (discardDuplicates = true →
        (∀ other ∈ children.map accessor, comptor other (accessor insertNode) ≠ 0) ∧
          (children = [] ∨
            ∃ other ∈ children.map accessor, 0 < comptor other (accessor insertNode))) := by
  by_cases empty : children = []
  · subst empty
    constructor
    · exact fun _ _ => ⟨nofun, .inl rfl⟩
    · intro _
      have inserted := sortedInsertion_nil laws (accessor insertNode) discardDuplicates
      exact ⟨_, _, _, _, rfl, rfl, rfl, inserted, inserted⟩
  · have nonempty : children.map accessor ≠ [] := fun isNil => empty (map_eq_nil_iff.mp isNil)
    obtain ⟨index, found, place⟩ := binarySearch_spec laws sorted (accessor insertNode) nonempty
    obtain ⟨neighbour, isNeighbour, equal_iff⟩ := place.neighbour
    have member := mem_of_getElem? isNeighbour
    have isNeighbour' := isNeighbour
    rw [length_map] at isNeighbour'
    rw [SameInsertion, binaryInsert_eq found isNeighbour, binaryInsertNode_eq found isNeighbour']
    constructor
    · rintro ⟨result, newIndex, nodes, nodeIndex, array, parent, same, -, -⟩ discards
      have different : ∀ other ∈ children.map accessor,
          comptor other (accessor insertNode) ≠ 0 := by
        intro other isOther equal
        have isEqual := equal_iff.mp ⟨other, isOther, equal⟩
        rw [if_pos ⟨discards, isEqual⟩] at array
        rw [if_neg fun less => absurd less.2 (Int.not_lt.mpr (le_of_eq isEqual.symm))] at parent
        cases array
        cases parent
        rw [map_insertAt] at same
        exact insertAt_ne _ _ _ same
      refine ⟨different, .inr ?_⟩
      rw [place.exists_greater_iff laws different isNeighbour]
      by_contra notGreater
      have notEqual := different neighbour member
      have less : comptor neighbour (accessor insertNode) < 0 := by omega
      rw [if_neg fun equal => notEqual equal.2] at array
      rw [if_pos ⟨discards, less⟩] at parent
      cases array
      cases parent
      exact insertAt_ne _ _ _ same.symm
    · intro condition
      have kept : ¬ (discardDuplicates = true ∧
          ∃ equal ∈ children.map accessor, comptor equal (accessor insertNode) = 0) := by
        rintro ⟨discards, equal, isEqual, same⟩
        exact (condition discards).1 equal isEqual same
      have notLess : ¬ (discardDuplicates = true ∧
          comptor neighbour (accessor insertNode) < 0) := by
        rintro ⟨discards, less⟩
        obtain ⟨different, greater⟩ := condition discards
        have exists_greater := greater.resolve_left empty
        rw [place.exists_greater_iff laws different isNeighbour] at exists_greater
        exact absurd exists_greater (Int.not_lt.mpr (le_of_lt less))
      have inserted := place.sortedInsertion laws sorted kept
      rw [if_neg fun equal => kept ⟨equal.1, neighbour, member, equal.2⟩, if_neg notLess]
      refine ⟨_, _, _, _, rfl, rfl, map_insertAt accessor children index insertNode, inserted, ?_⟩
      rw [map_insertAt]
      exact inserted

lemma preorderCmp_sub : PreorderCmp fun first second : Int => first - second := by
  constructor
  · intro first second
    omega
  · intro first second third left right
    omega

/-- Numbers are compared, and each node is its own item. -/
theorem sameInsertion_between :
    SameInsertion (fun first second : Int => first - second) [1, 3] id 2 true := by
  have sorted : Sorted (fun first second : Int => first - second) ([1, 3].map id) := by
    unfold Sorted
    decide
  exact (sameInsertion_iff preorderCmp_sub [1, 3] id sorted 2 true).mpr fun _ => by decide

/-- An item that is there already, and one that is greater than all. -/
theorem sameInsertion_duplicate :
    PreorderCmp (fun first second : Int => first - second) ∧
      binaryInsert [1, 3] 1 (fun first second : Int => first - second) true = some ([1, 3], 0) ∧
      binaryInsertNode [1, 3] 1 1 (fun first second : Int => first - second) true id =
        some ([1, 1, 3], 0) ∧
      binaryInsert [1, 3] 4 (fun first second : Int => first - second) true =
        some ([1, 3, 4], 2) ∧
      binaryInsertNode [1, 3] 4 4 (fun first second : Int => first - second) true id =
        some ([1, 3], 2) ∧
      ¬ SameInsertion (fun first second : Int => first - second) [1, 3] id 1 true := by
  have array : binaryInsert ([1, 3].map id) 1 (fun first second : Int => first - second) true =
      some ([1, 3], 0) := by decide
  have parent : binaryInsertNode [1, 3] 1 1 (fun first second : Int => first - second) true id =
      some ([1, 1, 3], 0) := by decide
  refine ⟨preorderCmp_sub, array, parent, by decide, by decide, ?_⟩
  rintro ⟨result, newIndex, nodes, nodeIndex, isArray, isParent, same, -, -⟩
  have isArray := array.symm.trans isArray
  have isParent := parent.symm.trans isParent
  cases isArray
  cases isParent
  exact absurd same (by decide)

end CommCentral.Calendar
