import Mathlib.Data.List.Nodup

/-! Lists of items with keys as finite maps: the first item with a key counts. -/
namespace CommCentral.Lib
open List

universe u v

variable {Item : Type u} {Key : Type v} [DecidableEq Key] (key : Item → Key)

def itemAt (items : List Item) (wanted : Key) : Option Item :=
  items.find? fun item => key item = wanted

/-- The item takes the place of the first one with its key, or is put last. -/
def putItem : List Item → Item → List Item
  | [], item => [item]
  | first :: rest, item => if key first = key item then item :: rest else first :: putItem rest item

def removeItem (items : List Item) (unwanted : Key) : List Item :=
  items.filter fun item => key item ≠ unwanted

variable {key}

lemma itemAt_cons (first : Item) (rest) (wanted : Key) :
    itemAt key (first :: rest) wanted =
      if key first = wanted then some first else itemAt key rest wanted := by
  rw [itemAt, find?_cons]
  by_cases isKey : key first = wanted
  · rw [decide_eq_true isKey, if_pos isKey]
  · rw [decide_eq_false isKey, if_neg isKey]
    rfl

lemma itemAt_key (found : itemAt key items wanted = some item) :
    item ∈ items ∧ key item = wanted := by
  have isKey := find?_some found
  exact ⟨mem_of_find?_eq_some found, of_decide_eq_true isKey⟩

lemma itemAt_isSome_iff : (itemAt key items wanted).isSome ↔ wanted ∈ items.map key := by
  rw [itemAt, find?_isSome, mem_map]
  simp only [decide_eq_true_eq]

lemma itemAt_eq_none_iff : itemAt key items wanted = none ↔ wanted ∉ items.map key := by
  rw [← itemAt_isSome_iff, Option.not_isSome_iff_eq_none]

lemma itemAt_of_mem (distinct : (items.map key).Nodup) (mem : item ∈ items) :
    itemAt key items (key item) = some item := by
  have isSome := itemAt_isSome_iff.mpr (mem_map_of_mem (f := key) mem)
  obtain ⟨other, found⟩ := Option.isSome_iff_exists.mp isSome
  obtain ⟨isItem, isKey⟩ := itemAt_key found
  rw [found, inj_on_of_nodup_map distinct isItem mem isKey]

lemma putItem_absent (absent : key item ∉ items.map key) : putItem key items item = items ++ [item] := by
  induction items with
  | nil => rfl
  | cons first rest ih =>
    obtain ⟨different, later⟩ := not_or.mp (mem_cons.not.mp absent)
    rw [putItem, if_neg (Ne.symm different), ih later]
    rfl

lemma putItem_present {before after : List Item} (absent : key item ∉ before.map key)
    (isKey : key old = key item) :
    putItem key (before ++ old :: after) item = before ++ item :: after := by
  induction before with
  | nil => rw [nil_append, putItem, if_pos isKey, nil_append]
  | cons first rest ih =>
    obtain ⟨different, later⟩ := not_or.mp (mem_cons.not.mp absent)
    rw [cons_append, putItem, if_neg (Ne.symm different), ih later]
    rfl

lemma map_putItem (items) (item : Item) : (putItem key items item).map key =
    if key item ∈ items.map key then items.map key else items.map key ++ [key item] := by
  by_cases present : key item ∈ items.map key
  · rw [if_pos present]
    induction items with
    | nil => exact absurd present not_mem_nil
    | cons first rest ih =>
      rw [putItem]
      by_cases isKey : key first = key item
      · rw [if_pos isKey, map_cons, map_cons, isKey]
      · have later := (mem_cons.mp present).resolve_left (Ne.symm isKey)
        rw [if_neg isKey, map_cons, map_cons, ih later]
  · rw [if_neg present, putItem_absent present, map_append]
    rfl

lemma nodup_putItem (distinct : (items.map key).Nodup) (item : Item) :
    ((putItem key items item).map key).Nodup := by
  rw [map_putItem]
  split
  · exact distinct
  · rename_i absent
    exact concat_eq_append ▸ distinct.concat absent

lemma itemAt_putItem (items) (item : Item) (wanted : Key) :
    itemAt key (putItem key items item) wanted =
      if key item = wanted then some item else itemAt key items wanted := by
  induction items with
  | nil => rw [putItem, itemAt_cons]
  | cons first rest ih =>
    rw [putItem]
    by_cases isKey : key first = key item
    · rw [if_pos isKey, itemAt_cons, itemAt_cons, isKey]
      split
      · rfl
      · rfl
    · rw [if_neg isKey, itemAt_cons, itemAt_cons, ih]
      by_cases isFirst : key first = wanted
      · have notItem : ¬ key item = wanted := fun isItem => isKey (isFirst.trans isItem.symm)
        rw [if_pos isFirst, if_neg notItem, if_pos isFirst]
      · rw [if_neg isFirst, if_neg isFirst]

lemma itemAt_removeItem (items) (unwanted wanted : Key) :
    itemAt key (removeItem key items unwanted) wanted =
      if unwanted = wanted then none else itemAt key items wanted := by
  induction items with
  | nil =>
    split
    · rfl
    · rfl
  | cons first rest ih =>
    rw [removeItem, filter_cons]
    by_cases isUnwanted : key first = unwanted
    · rw [if_neg (by simpa using isUnwanted), itemAt_cons]
      refine Eq.trans ih ?_
      split
      · rfl
      · rename_i different
        rw [if_neg fun isFirst => different (isUnwanted.symm.trans isFirst)]
    · rw [if_pos (by simpa using isUnwanted), itemAt_cons, itemAt_cons]
      by_cases isFirst : key first = wanted
      · have notUnwanted : ¬ unwanted = wanted := fun same => isUnwanted (isFirst.trans same.symm)
        rw [if_pos isFirst, if_neg notUnwanted, if_pos isFirst]
      · rw [if_neg isFirst, if_neg isFirst]
        exact ih

lemma removeItem_absent (absent : unwanted ∉ items.map key) :
    removeItem key items unwanted = items := by
  apply filter_eq_self.mpr
  intro item mem
  apply decide_eq_true
  rintro rfl
  exact absent (mem_map_of_mem mem)

lemma removeItem_present {before after : List Item}
    (distinct : ((before ++ item :: after).map key).Nodup) :
    removeItem key (before ++ item :: after) (key item) = before ++ after := by
  rw [map_append, map_cons] at distinct
  have apart := nodup_middle.mp distinct
  obtain ⟨absent, -⟩ := nodup_cons.mp apart
  rw [mem_append, not_or] at absent
  have start := removeItem_absent absent.1
  have rest := removeItem_absent absent.2
  rw [removeItem] at start rest ⊢
  rw [filter_append, filter_cons, if_neg (by simp), start, rest]

lemma itemAt_putAll (distinct : (updates.map key).Nodup) (items) (wanted : Key) :
    itemAt key (updates.foldl (putItem key) items) wanted =
      (itemAt key updates wanted).or (itemAt key items wanted) := by
  induction updates generalizing items with
  | nil => rfl
  | cons first rest ih =>
    obtain ⟨absent, later⟩ := nodup_cons.mp distinct
    rw [foldl_cons, ih later, itemAt_putItem, itemAt_cons]
    by_cases isFirst : key first = wanted
    · rw [if_pos isFirst, if_pos isFirst, itemAt_eq_none_iff.mpr (isFirst ▸ absent), Option.none_or,
        Option.some_or]
    · rw [if_neg isFirst, if_neg isFirst]

lemma nodup_putAll (distinct : (items.map key).Nodup) (updates : List Item) :
    ((updates.foldl (putItem key) items).map key).Nodup := by
  induction updates generalizing items with
  | nil => exact distinct
  | cons first rest ih =>
    rw [foldl_cons]
    exact ih (nodup_putItem distinct first)

end CommCentral.Lib
