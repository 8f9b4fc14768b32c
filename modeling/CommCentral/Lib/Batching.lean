import Mathlib.Data.List.Nodup
import Mathlib.Data.List.Count
import Mathlib.Tactic.Common

/-! Items handed out in batches: an item that is due starts a batch with its argument and
takes along every later item that joins a batch of this argument. -/
namespace CommCentral.Lib
open List

universe u v

/-- An item with the argument it asks for. -/
structure Entry (κ : Type u) (α : Type v) where
  key : κ
  due : Bool
  joins : Bool
  argument : α

variable {κ : Type u} {α : Type v} [DecidableEq α]

/-- The item starts a batch unless a batch of its argument has taken it along. -/
def Entry.starts (started : List α) (entry : Entry κ α) : Bool :=
  entry.due && !(entry.joins && decide (entry.argument ∈ started))

def Entry.follows (argument : α) (entry : Entry κ α) : Bool :=
  entry.joins && decide (entry.argument = argument)

lemma Entry.starts_iff {started : List α} {entry : Entry κ α} :
    entry.starts started = true ↔
      entry.due = true ∧ ¬ (entry.joins = true ∧ entry.argument ∈ started) := by
  rw [Entry.starts, Bool.and_eq_true, Bool.not_eq_true', ← Bool.not_eq_true, Bool.and_eq_true,
    decide_eq_true_iff]

/-- The batches of the items, after batches of the `started` arguments. -/
def batches : List α → List (Entry κ α) → List (List κ × α)
  | _, [] => []
  | started, entry :: rest =>
    if entry.starts started then
      (entry.key :: (rest.filter (Entry.follows entry.argument)).map Entry.key, entry.argument) ::
        batches (entry.argument :: started) rest
    else
      batches started rest

/-- Each item of each batch with the argument of the batch. -/
def handed (all : List (List κ × α)) : List (κ × α) :=
  all.flatMap fun batch => batch.1.map fun key => (key, batch.2)

/-- Three items of one argument, the second of which starts a batch of its own although the
first has started one, so that the third is taken along twice. -/
def Repeats (entries : List (Entry κ α)) : Prop :=
  ∃ first second third, [first, second, third].Sublist entries ∧ first.due ∧ second.due ∧
    second.joins = false ∧ third.joins ∧ first.argument = second.argument ∧
    second.argument = third.argument

section Arguments

variable {started : List α} {entry : Entry κ α}

lemma batches_cons_of_starts (starts : entry.starts started = true) :
    batches started (entry :: rest) =
      (entry.key :: (rest.filter (Entry.follows entry.argument)).map Entry.key, entry.argument) ::
        batches (entry.argument :: started) rest := by
  simp [batches, starts]

lemma batches_cons_of_not_starts (starts : entry.starts started = false) :
    batches started (entry :: rest) = batches started rest := by
  simp [batches, starts]

omit [DecidableEq α] in
lemma handed_cons (batch : List κ × α) (all : List (List κ × α)) :
    handed (batch :: all) = batch.1.map (fun key => (key, batch.2)) ++ handed all := rfl

lemma batches_eq_nil {entries : List (Entry κ α)} (idle : ∀ entry ∈ entries, entry.due = false) :
    batches started entries = [] := by
  induction entries with
  | nil => rfl
  | cons entry rest ih =>
    have starts : entry.starts started = false := by
      simp [Entry.starts, idle entry mem_cons_self]
    rw [batches_cons_of_not_starts starts]
    exact ih fun later mem => idle later (mem_cons_of_mem entry mem)

/-- What is handed out are items with their own argument. -/
theorem exists_entry_of_mem_handed {entries : List (Entry κ α)}
    (mem : (key, argument) ∈ handed (batches started entries)) :
    ∃ entry ∈ entries, entry.key = key ∧ entry.argument = argument := by
  induction entries generalizing started with
  | nil => simp [batches, handed] at mem
  | cons entry rest ih =>
    cases starts : entry.starts started with
    | false =>
      rw [batches_cons_of_not_starts starts] at mem
      obtain ⟨found, inRest, same⟩ := ih mem
      exact ⟨found, mem_cons_of_mem entry inRest, same⟩
    | true =>
      rw [batches_cons_of_starts starts, handed_cons, mem_append] at mem
      cases mem with
      | inl own =>
        simp only [map_cons, mem_cons, map_map, mem_map] at own
        obtain same | ⟨follower, inFilter, same⟩ := own
        · simp only [Prod.mk.injEq] at same
          exact ⟨entry, mem_cons_self, same.1.symm, same.2.symm⟩
        · obtain ⟨inRest, follows⟩ := mem_filter.mp inFilter
          simp only [Function.comp_apply, Prod.mk.injEq] at same
          simp only [Entry.follows, Bool.and_eq_true, decide_eq_true_eq] at follows
          exact ⟨follower, mem_cons_of_mem entry inRest, same.1, follows.2.trans same.2⟩
      | inr later =>
        obtain ⟨found, inRest, same⟩ := ih later
        exact ⟨found, mem_cons_of_mem entry inRest, same⟩

end Arguments

/-- How many of the items start a batch of the argument. -/
def starters (argument : α) (started : List α) (entries : List (Entry κ α)) : Nat :=
  (batches started entries).countP fun batch => decide (batch.2 = argument)

section Starters

variable {started : List α}

lemma starters_cons (entry : Entry κ α) (rest : List (Entry κ α)) :
    starters argument started (entry :: rest) =
      if entry.starts started then
        starters argument (entry.argument :: started) rest +
          (if entry.argument = argument then 1 else 0)
      else starters argument started rest := by
  cases starts : entry.starts started with
  | false => simp [starters, batches_cons_of_not_starts starts]
  | true => simp [starters, batches_cons_of_starts starts, countP_cons]

variable (entries : List (Entry κ α))

/-- Once the argument has a batch, only items that do not join start another. -/
theorem starters_of_mem (mem : argument ∈ started) :
    starters argument started entries =
      entries.countP fun entry =>
        entry.due && !entry.joins && decide (entry.argument = argument) := by
  induction entries generalizing started with
  | nil => rfl
  | cons entry rest ih =>
    have mono : argument ∈ entry.argument :: started := mem_cons_of_mem _ mem
    rw [starters_cons, ih mem, ih mono, countP_cons]
    by_cases same : entry.argument = argument
    · subst same
      cases due : entry.due <;> cases joins : entry.joins <;> simp [Entry.starts, due, joins, mem]
    · simp [same]

lemma two_le_starters_iff (fresh : argument ∉ started) :
    2 ≤ starters argument started entries ↔
      ∃ first second, [first, second].Sublist entries ∧ first.due ∧ second.due ∧
        second.joins = false ∧ first.argument = argument ∧ second.argument = argument := by
  induction entries generalizing started with
  | nil => simp [starters, batches]
  | cons entry rest ih =>
    rw [starters_cons]
    by_cases opens : entry.due = true ∧ entry.argument = argument
    · obtain ⟨due, rfl⟩ := opens
      have starts : entry.starts started = true := by simp [Entry.starts, due, fresh]
      rw [if_pos starts, if_pos rfl, starters_of_mem rest mem_cons_self]
      constructor
      · intro two
        have positive : 0 < rest.countP fun later =>
            later.due && !later.joins && decide (later.argument = entry.argument) := by omega
        obtain ⟨second, inRest, test⟩ := countP_pos_iff.mp positive
        simp only [Bool.and_eq_true, Bool.not_eq_true', decide_eq_true_eq] at test
        refine ⟨entry, second, ?_, due, test.1.1, test.1.2, rfl, test.2⟩
        exact (singleton_sublist.mpr inRest).cons_cons entry
      · rintro ⟨first, second, sublist, -, secondDue, joins, -, same⟩
        have inRest : second ∈ rest := by
          cases sublist with
          | cons _ later => exact later.subset (by simp)
          | cons_cons _ later => exact singleton_sublist.mp later
        have positive : 0 < rest.countP fun later =>
            later.due && !later.joins && decide (later.argument = entry.argument) :=
          countP_pos_iff.mpr ⟨second, inRest, by simp [secondDue, joins, same]⟩
        omega
    · have skip : (if entry.starts started = true then
          starters argument (entry.argument :: started) rest +
            (if entry.argument = argument then 1 else 0)
          else starters argument started rest) = starters argument
            (if entry.starts started = true then entry.argument :: started else started) rest := by
        cases starts : entry.starts started with
        | false => rfl
        | true =>
          have due : entry.due = true := by
            simp only [Entry.starts, Bool.and_eq_true] at starts
            exact starts.1
          have other : entry.argument ≠ argument := fun same => opens ⟨due, same⟩
          simp [other]
      have stillFresh : argument ∉
          (if entry.starts started = true then entry.argument :: started else started) := by
        split
        · rename_i starts
          have due : entry.due = true := by
            simp only [Entry.starts, Bool.and_eq_true] at starts
            exact starts.1
          have other : entry.argument ≠ argument := fun same => opens ⟨due, same⟩
          simp [fresh, other.symm]
        · exact fresh
      rw [skip, ih stillFresh]
      constructor
      · rintro ⟨first, second, sublist, facts⟩
        exact ⟨first, second, sublist.cons entry, facts⟩
      · rintro ⟨first, second, sublist, firstDue, secondDue, joins, firstSame, secondSame⟩
        cases sublist with
        | cons _ later =>
          exact ⟨first, second, later, firstDue, secondDue, joins, firstSame, secondSame⟩
        | cons_cons _ later => exact absurd ⟨firstDue, firstSame⟩ opens

end Starters

section Occurrences

variable [DecidableEq κ]

/-- How often one batch hands out a key with an argument. -/
theorem count_batch (keys : List κ) (own argument : α) (key : κ) :
    (keys.map fun each => (each, own)).count (key, argument) =
      if own = argument then keys.count key else 0 := by
  by_cases same : own = argument
  · subst same
    have injective : Function.Injective fun each : κ => (each, own) := by
      intro left right equal
      exact congrArg Prod.fst equal
    rw [if_pos rfl]
    exact count_map_of_injective keys (fun each => (each, own)) injective key
  · rw [if_neg same, count_eq_zero]
    intro mem
    obtain ⟨each, -, equal⟩ := mem_map.mp mem
    exact same (congrArg Prod.snd equal)

omit [DecidableEq α] in
/-- Among items with distinct keys a key stands for one item. -/
theorem count_keys_filter {entries : List (Entry κ α)} {entry : Entry κ α}
    (test : Entry κ α → Bool) (distinct : (entries.map Entry.key).Nodup)
    (mem : entry ∈ entries) :
    ((entries.filter test).map Entry.key).count entry.key = if test entry then 1 else 0 := by
  have sublist : ((entries.filter test).map Entry.key).Sublist (entries.map Entry.key) :=
    filter_sublist.map Entry.key
  rw [(distinct.sublist sublist).count]
  have present : entry.key ∈ (entries.filter test).map Entry.key ↔ test entry = true := by
    constructor
    · intro inKeys
      obtain ⟨found, inFilter, same⟩ := mem_map.mp inKeys
      obtain ⟨inEntries, passes⟩ := mem_filter.mp inFilter
      rw [inj_on_of_nodup_map distinct inEntries mem same] at passes
      exact passes
    · intro passes
      exact mem_map.mpr ⟨entry, mem_filter.mpr ⟨mem, passes⟩, rfl⟩
  simp only [present]

lemma count_handed_eq_zero {started : List α} {entries : List (Entry κ α)} (argument : α)
    (missing : key ∉ entries.map Entry.key) :
    (handed (batches started entries)).count (key, argument) = 0 := by
  apply count_eq_zero.mpr
  intro mem
  obtain ⟨found, inEntries, same, -⟩ := exists_entry_of_mem_handed mem
  exact missing (mem_map.mpr ⟨found, inEntries, same⟩)

/-- How often an item is handed out: once for every batch of its argument that is started
before it and once for its own. -/
theorem count_handed {started : List α} (front back : List (Entry κ α)) (entry : Entry κ α)
    (distinct : ((front ++ entry :: back).map Entry.key).Nodup) :
    (handed (batches started (front ++ entry :: back))).count (entry.key, entry.argument) =
      (if entry.joins then starters entry.argument started front else 0) +
        (if entry.due && !(entry.joins && (decide (entry.argument ∈ started) ||
          decide (0 < starters entry.argument started front))) then 1 else 0) := by
  induction front generalizing started with
  | nil =>
    rw [nil_append, map_cons, nodup_cons] at distinct
    have missing := distinct.1
    have none : starters entry.argument started ([] : List (Entry κ α)) = 0 := rfl
    simp only [nil_append, none, ite_self, Nat.zero_add, Nat.lt_irrefl, decide_false,
      Bool.or_false]
    cases starts : entry.starts started with
    | false =>
      rw [batches_cons_of_not_starts starts, count_handed_eq_zero _ missing]
      rw [Entry.starts] at starts
      rw [starts, if_neg Bool.false_ne_true]
    | true =>
      have others : ((back.filter (Entry.follows entry.argument)).map Entry.key).count
          entry.key = 0 := by
        apply count_eq_zero.mpr
        intro mem
        obtain ⟨found, inFilter, same⟩ := mem_map.mp mem
        exact missing (mem_map.mpr ⟨found, (mem_filter.mp inFilter).1, same⟩)
      rw [batches_cons_of_starts starts, handed_cons, count_append, count_batch, if_pos rfl,
        count_handed_eq_zero _ missing, count_cons_self, others]
      rw [Entry.starts] at starts
      rw [starts, if_pos rfl]
  | cons head front ih =>
    rw [cons_append, map_cons, nodup_cons] at distinct
    obtain ⟨headFresh, distinct⟩ := distinct
    have differs : head.key ≠ entry.key := by
      intro same
      exact headFresh (by simp [same])
    rw [cons_append, starters_cons]
    cases starts : head.starts started with
    | false => simp [batches_cons_of_not_starts starts, ih distinct]
    | true =>
      have inTail : entry ∈ front ++ entry :: back := by simp
      rw [batches_cons_of_starts starts, handed_cons, count_append, ih distinct, count_batch,
        count_cons_of_ne differs, count_keys_filter _ distinct inTail]
      by_cases same : head.argument = entry.argument
      · cases joins : entry.joins <;> simp [Entry.follows, joins, same, Nat.add_comm]
      · simp [same, Ne.symm same]

lemma handed_once_iff {entries : List (Entry κ α)}
    (distinct : (entries.map Entry.key).Nodup)
    (joinsDue : ∀ entry ∈ entries, entry.joins → entry.due) :
    (∀ entry ∈ entries, ∀ argument,
      (handed (batches [] entries)).count (entry.key, argument) =
        if entry.due ∧ argument = entry.argument then 1 else 0) ↔ ¬ Repeats entries := by
  have other : ∀ entry ∈ entries, ∀ argument, argument ≠ entry.argument →
      (handed (batches [] entries)).count (entry.key, argument) = 0 := by
    intro entry mem argument differs
    apply count_eq_zero.mpr
    intro handedOut
    obtain ⟨found, inEntries, sameKey, sameArgument⟩ := exists_entry_of_mem_handed handedOut
    rw [inj_on_of_nodup_map distinct inEntries mem sameKey] at sameArgument
    exact differs sameArgument.symm
  constructor
  · intro once
    rintro ⟨first, second, third, sublist, firstDue, secondDue, secondAlone, thirdJoins, same12,
      same23⟩
    have split : ([first, second] ++ [third]).Sublist entries := sublist
    obtain ⟨front, later, rfl, before, last⟩ := append_sublist_iff.mp split
    obtain ⟨middle, back, rfl⟩ := append_of_mem (singleton_sublist.mp last)
    rw [← append_assoc] at once distinct joinsDue
    have two : 2 ≤ starters third.argument [] (front ++ middle) := by
      apply (two_le_starters_iff _ not_mem_nil).mpr
      exact ⟨first, second, before.trans (sublist_append_left front middle), firstDue,
        secondDue, secondAlone, same12.trans same23, same23⟩
    have inEntries : third ∈ (front ++ middle) ++ third :: back := by simp
    have count := once third inEntries third.argument
    have due := joinsDue third inEntries thirdJoins
    rw [count_handed _ _ _ distinct] at count
    simp only [thirdJoins, due, if_true, and_self] at count
    omega
  · intro noRepeats entry mem argument
    by_cases same : argument = entry.argument
    · subst same
      obtain ⟨front, back, rfl⟩ := append_of_mem mem
      rw [count_handed _ _ _ distinct]
      cases joins : entry.joins with
      | false => simp
      | true =>
        have due := joinsDue entry mem joins
        have small : starters entry.argument [] front < 2 := by
          apply Nat.lt_of_not_le
          intro two
          obtain ⟨first, second, sublist, firstDue, secondDue, secondAlone, firstSame,
            secondSame⟩ := (two_le_starters_iff front not_mem_nil).mp two
          apply noRepeats
          refine ⟨first, second, entry, ?_, firstDue, secondDue, secondAlone, joins,
            firstSame.trans secondSame.symm, secondSame⟩
          exact List.Sublist.append sublist (singleton_sublist.mpr mem_cons_self)
        by_cases positive : 0 < starters entry.argument [] front
        · simp [due, positive]
          omega
        · simp [due, positive]
          omega
    · rw [other entry mem argument same, if_neg fun both => same both.2]

end Occurrences

end CommCentral.Lib
