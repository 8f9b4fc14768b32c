import CommCentral.Lib.KeyedList

/-! Finite maps that count how often each of their keys was put in, with a value that stays what it
was when the key was put in first. -/
namespace CommCentral.Lib
open List

universe u v

structure Counted (Key : Type u) (Value : Type v) where
  key : Key
  value : Value
  count : Nat
deriving Repr, DecidableEq

variable {Key : Type u} {Value : Type v} [DecidableEq Key]

def increment (entries : List (Counted Key Value)) (key : Key) (value : Value) :
    List (Counted Key Value) :=
  match itemAt Counted.key entries key with
  | none => putItem Counted.key entries ⟨key, value, 1⟩
  | some entry => putItem Counted.key entries { entry with count := entry.count + 1 }

/-- The entry is removed when its count gets to 0. -/
def decrement (entries : List (Counted Key Value)) (key : Key) : List (Counted Key Value) :=
  match itemAt Counted.key entries key with
  | none => entries
  | some entry =>
    if entry.count - 1 = 0 then removeItem Counted.key entries key
    else putItem Counted.key entries { entry with count := entry.count - 1 }

def countOf (entries : List (Counted Key Value)) (key : Key) : Option Nat :=
  (itemAt Counted.key entries key).map Counted.count

/-- How often a key is in a list. -/
def timesIn (keys : List Key) (key : Key) : Nat := keys.count key

@[simp] lemma timesIn_nil (key : Key) : timesIn [] key = 0 := rfl

lemma timesIn_cons (first : Key) (rest) (key : Key) :
    timesIn (first :: rest) key = timesIn rest key + if first = key then 1 else 0 := by
  simp only [timesIn, count_cons, beq_iff_eq]

lemma timesIn_append (keys others) (key : Key) :
    timesIn (keys ++ others) key = timesIn keys key + timesIn others key := count_append

lemma timesIn_eq_zero_iff {keys : List Key} : timesIn keys key = 0 ↔ key ∉ keys := count_eq_zero

/-- The count of a key that occurs so often. -/
def countedAs : Nat → Option Nat
  | 0 => none
  | times + 1 => some (times + 1)

/-- The keys that occur are those with an entry, and it counts how often. -/
def Counts (entries : List (Counted Key Value)) (occurrences : Key → Nat) : Prop :=
  ∀ key, countOf entries key = countedAs (occurrences key)

variable {entries : List (Counted Key Value)} {occurrences : Key → Nat}

lemma counts_nil : Counts ([] : List (Counted Key Value)) fun _ => 0 := fun _ => rfl

lemma countOf_putItem (entries : List (Counted Key Value)) (entry : Counted Key Value)
    (wanted : Key) :
    countOf (putItem Counted.key entries entry) wanted =
      if entry.key = wanted then some entry.count else countOf entries wanted := by
  rw [countOf, itemAt_putItem]
  split
  · rfl
  · rfl

lemma countOf_removeItem (entries : List (Counted Key Value)) (unwanted wanted : Key) :
    countOf (removeItem Counted.key entries unwanted) wanted =
      if unwanted = wanted then none else countOf entries wanted := by
  rw [countOf, itemAt_removeItem]
  split
  · rfl
  · rfl

lemma countOf_increment (entries : List (Counted Key Value)) (key : Key) (value : Value)
    (wanted : Key) :
    countOf (increment entries key value) wanted =
      if key = wanted then some ((countOf entries wanted).getD 0 + 1) else countOf entries wanted := by
  rw [increment]
  cases found : itemAt Counted.key entries key with
  | none =>
    rw [countOf_putItem]
    by_cases isKey : key = wanted
    · subst isKey
      rw [if_pos rfl, if_pos rfl, countOf, found]
      rfl
    · rw [if_neg isKey, if_neg isKey]
  | some entry =>
    rw [countOf_putItem]
    have same := (itemAt_key found).2
    by_cases isKey : key = wanted
    · subst isKey
      rw [if_pos same, if_pos rfl, countOf, found]
      rfl
    · rw [if_neg (same.symm ▸ isKey), if_neg isKey]

lemma countOf_decrement (entries : List (Counted Key Value)) (key wanted : Key) :
    countOf (decrement entries key) wanted =
      if key = wanted then
        (countOf entries wanted).bind fun count => if count - 1 = 0 then none else some (count - 1)
      else countOf entries wanted := by
  rw [decrement]
  cases found : itemAt Counted.key entries key with
  | none =>
    by_cases isKey : key = wanted
    · subst isKey
      rw [if_pos rfl, countOf, found]
      rfl
    · rw [if_neg isKey]
  | some entry =>
    have same := (itemAt_key found).2
    have count : countOf entries key = some entry.count := by
      rw [countOf, found]
      rfl
    by_cases last : entry.count - 1 = 0
    · dsimp only
      rw [if_pos last, countOf_removeItem]
      by_cases isKey : key = wanted
      · subst isKey
        rw [if_pos rfl, if_pos rfl, count, Option.bind_some, if_pos last]
      · rw [if_neg isKey, if_neg isKey]
    · dsimp only
      rw [if_neg last, countOf_putItem]
      by_cases isKey : key = wanted
      · subst isKey
        rw [if_pos same, if_pos rfl, count, Option.bind_some, if_neg last]
      · rw [if_neg (same.symm ▸ isKey), if_neg isKey]

def valueOf (entries : List (Counted Key Value)) (key : Key) : Option Value :=
  (itemAt Counted.key entries key).map Counted.value

lemma valueOf_increment (entries) (key : Key) (value : Value) (wanted : Key) :
    valueOf (increment entries key value) wanted =
      if key = wanted then some ((valueOf entries wanted).getD value)
      else valueOf entries wanted := by
  rw [increment]
  cases found : itemAt Counted.key entries key with
  | none =>
    rw [valueOf, itemAt_putItem]
    by_cases isKey : key = wanted
    · subst isKey
      rw [if_pos rfl, if_pos rfl, valueOf, found]
      rfl
    · rw [if_neg isKey, if_neg isKey]
      rfl
  | some entry =>
    rw [valueOf, itemAt_putItem]
    have same := (itemAt_key found).2
    by_cases isKey : key = wanted
    · subst isKey
      rw [if_pos same, if_pos rfl, valueOf, found]
      rfl
    · rw [if_neg (same.symm ▸ isKey), if_neg isKey]
      rfl

/-- Keys that are put in one after another, all with one value. -/
theorem valueOf_incrementAll (entries : List (Counted Key Value)) (keys : List Key) (value : Value)
    (wanted : Key) :
    valueOf (keys.foldl (fun entries key => increment entries key value) entries) wanted =
      if wanted ∈ keys then some ((valueOf entries wanted).getD value)
      else valueOf entries wanted := by
  induction keys generalizing entries with
  | nil => rfl
  | cons key keys ih =>
    rw [foldl_cons, ih, valueOf_increment]
    by_cases isKey : key = wanted
    · subst isKey
      rw [if_pos rfl, if_pos mem_cons_self]
      split
      · rfl
      · rfl
    · have later : wanted ∈ key :: keys ↔ wanted ∈ keys :=
        mem_cons.trans (or_iff_right (Ne.symm isKey))
      rw [if_neg isKey]
      simp only [later]

section

variable (counts : Counts entries occurrences)
include counts

lemma Counts.increment (key : Key) (value : Value) :
    Counts (increment entries key value) fun wanted =>
      occurrences wanted + if key = wanted then 1 else 0 := by
  intro wanted
  dsimp only
  rw [countOf_increment, counts wanted]
  by_cases isKey : key = wanted
  · rw [if_pos isKey, if_pos isKey]
    cases occurrences wanted with
    | zero => rfl
    | succ times => rfl
  · rw [if_neg isKey, if_neg isKey, Nat.add_zero]

lemma Counts.decrement (key : Key) :
    Counts (decrement entries key) fun wanted =>
      occurrences wanted - if key = wanted then 1 else 0 := by
  intro wanted
  dsimp only
  rw [countOf_decrement, counts wanted]
  by_cases isKey : key = wanted
  · rw [if_pos isKey, if_pos isKey]
    rcases occurrences wanted with _ | _ | times
    · rfl
    · rfl
    · rfl
  · rw [if_neg isKey, if_neg isKey, Nat.sub_zero]

/-- Keys that are put in one after another. -/
theorem Counts.incrementAll (keys : List Key) (value : Value) :
    Counts (keys.foldl (fun entries key => Lib.increment entries key value) entries) fun wanted =>
      occurrences wanted + timesIn keys wanted := by
  induction keys generalizing entries occurrences with
  | nil => exact counts
  | cons key keys ih =>
    intro wanted
    rw [foldl_cons, ih (counts.increment key value) wanted]
    simp only [timesIn_cons, Nat.add_assoc,
      Nat.add_comm (if key = wanted then 1 else 0)]

/-- Keys that are taken out one after another. -/
theorem Counts.decrementAll (keys : List Key) :
    Counts (keys.foldl Lib.decrement entries) fun wanted =>
      occurrences wanted - timesIn keys wanted := by
  induction keys generalizing entries occurrences with
  | nil => exact counts
  | cons key keys ih =>
    intro wanted
    rw [foldl_cons, ih (counts.decrement key) wanted]
    simp only [timesIn_cons, Nat.sub_sub,
      Nat.add_comm (if key = wanted then 1 else 0)]

end

end CommCentral.Lib
