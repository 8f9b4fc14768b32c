import CommCentral.Calendar.BinaryInsert
import Mathlib.Data.List.Induction

/-! The dates of a recurring item in a range: those of its exceptions, its own and those of its
positive rules, less the ones that its negative rules remove. -/
namespace CommCentral.Calendar

open Lib List

/-- What is added to UTC at a time, and the time at which the wall clock shows something, in
seconds. Floating times are those of a timezone that adds nothing. -/
structure Timezone where
  utcOffset : Int → Int
  toUtc : Int → Int

namespace Timezone

variable (zone : Timezone)

def wallClock (time : Int) : Int := time + zone.utcOffset time

def day (time : Int) : Int := zone.wallClock time / 86400

def addDuration (time duration : Int) : Int := zone.toUtc (zone.wallClock time + duration)

end Timezone

/-- An end of a range, after `ensureDateTime`. -/
structure RangeDate where
  time : Int
  zone : Timezone

def RangeDate.day (date : RangeDate) : Int := date.zone.day date.time

/-- A `calIDateTime` that may be a date only, the number of its day. -/
inductive CalDate where
  | date (day : Int)
  | dateTime (time : Int)
  deriving DecidableEq

/-- `CalRecurrenceRule`: the dates that come from a start date, and those of a range. -/
structure CalRecurrenceRule where
  occursAt : (startDate date : Int) → Bool
  getOccurrences : (startDate rangeStart rangeEnd : Int) → List Int
  mem_getOccurrences : ∀ startDate rangeStart rangeEnd date,
    date ∈ getOccurrences startDate rangeStart rangeEnd ↔
      occursAt startDate date = true ∧ rangeStart ≤ date ∧ date < rangeEnd

/-- `mPositiveRules` holds rules and the `CalRecurrenceDate`s of RDATE. -/
inductive PositiveItem where
  | rule (rule : CalRecurrenceRule)
  | date (mDate : Option Int)

/-- `mNegativeRules` holds rules and the `CalRecurrenceDate`s of EXDATE. -/
inductive NegativeItem where
  | rule (rule : CalRecurrenceRule)
  | date (mDate : Option CalDate)

def PositiveItem.getOccurrences (startDate : Int) (rangeStart rangeEnd : RangeDate) :
    PositiveItem → List Int
  | .rule ritem => ritem.getOccurrences startDate rangeStart.time rangeEnd.time
  | .date none => []
  | .date (some time) => if rangeStart.time ≤ time ∧ time < rangeEnd.time then [time] else []

/-- A date is compared with the days of the range. -/
def NegativeItem.getOccurrences (startDate : Int) (rangeStart rangeEnd : RangeDate) :
    NegativeItem → List CalDate
  | .rule ritem => (ritem.getOccurrences startDate rangeStart.time rangeEnd.time).map .dateTime
  | .date none => []
  | .date (some (.dateTime time)) =>
    if rangeStart.time ≤ time ∧ time < rangeEnd.time then [.dateTime time] else []
  | .date (some (.date day)) =>
    if rangeStart.day ≤ day ∧ day < rangeEnd.day then [.date day] else []

/-- What `calculateDates` reads of a `calIEvent` or a `calITodo`. -/
inductive CalItem where
  | event (startDate endDate : Option Int)
  | todo (entryDate dueDate : Option Int) (durationProperty : Option Int)

namespace CalItem

def duration : CalItem → Option Int
  | .event (some startDate) (some endDate) => some (endDate - startDate)
  | .event _ _ => some 0
  | .todo _ _ (some duration) => some duration
  | .todo (some entryDate) (some dueDate) none => some (dueDate - entryDate)
  | .todo _ _ none => none

def recurrenceStartDate : CalItem → Option Int
  | .event startDate _ => startDate
  | .todo entryDate dueDate _ => entryDate <|> dueDate

end CalItem

/-- A time without a length is in the range if it is not the end of it. -/
def meetsRange (start finish queryStart queryEnd : Int) : Bool :=
  if start = finish then queryStart ≤ start && start < queryEnd
  else start < queryEnd && finish > queryStart

/-- `checkIfInRange`, where the start or due date is asked for. -/
def checkIfInRange (item : CalItem) (rangeStart rangeEnd : Int) : Option Int :=
  match item with
  | .event none _ => none
  | .event (some startDate) endDate =>
    if meetsRange startDate (endDate.getD startDate) rangeStart rangeEnd then some startDate
    else none
  | .todo none _ _ => none
  | .todo (some entryDate) dueDate _ =>
    if meetsRange entryDate (dueDate.getD entryDate) rangeStart rangeEnd then some entryDate
    else none

structure ExceptionItem where
  recurrenceId : Int
  item : CalItem

/-- `CalRecurrenceInfo`, whose dates are times in one timezone. The keys of the exceptions are made
of their recurrence ids. -/
structure CalRecurrenceInfo where
  zone : Timezone
  mBaseItem : CalItem
  mPositiveRules : List PositiveItem
  mNegativeRules : List NegativeItem
  mExceptionMap : List ExceptionItem
  distinct : (mExceptionMap.map ExceptionItem.recurrenceId).Nodup

/-- An entry of `dates`. -/
structure OccDate where
  id : Int
  rstart : Int
  deriving DecidableEq

def ridDateSortComptor (a b : OccDate) : Int := (a.rstart - b.rstart).sign

/-- `dates`, and the keys of `occurrenceMap`. The key of a time is its icalString in UTC. -/
structure Expansion where
  dates : List OccDate := []
  occurrenceMap : List Int := []

/-- The day that the first eight characters of a key are. -/
def keyDay (key : Int) : Int := key / 86400

def insertDate (dates : List OccDate) (date : OccDate) : Option (List OccDate) :=
  (binaryInsert dates date ridDateSortComptor false).map Prod.fst

namespace CalRecurrenceInfo

variable (info : CalRecurrenceInfo) (rangeStart rangeEnd : RangeDate)

/-- `rangeStart` moved back by the length of the item. -/
def searchStart : RangeDate :=
  match info.mBaseItem.duration with
  | none => rangeStart
  | some duration =>
    { rangeStart with time := rangeStart.zone.addDuration rangeStart.time (-duration.natAbs) }

def addException (state : Expansion) (ex : ExceptionItem) : Option Expansion :=
  match checkIfInRange ex.item rangeStart.time rangeEnd.time with
  | none => some { state with occurrenceMap := ex.recurrenceId :: state.occurrenceMap }
  | some occDate => do
    let dates ← insertDate state.dates ⟨ex.recurrenceId, occDate⟩
    return ⟨dates, ex.recurrenceId :: state.occurrenceMap⟩

def addDate (state : Expansion) (date : Int) : Option Expansion :=
  if date ∈ state.occurrenceMap then some state
  else do
    let dates ← insertDate state.dates ⟨date, date⟩
    return ⟨dates, date :: state.occurrenceMap⟩

def addBaseDate (state : Expansion) : Option Expansion :=
  match checkIfInRange info.mBaseItem rangeStart.time rangeEnd.time with
  | none => some state
  | some baseOccDate => addDate state baseOccDate

/-- The dates of a rule but for the first ones that end before the range. -/
def windowDates (startDate : Int) (ritem : PositiveItem) : List Int :=
  let cur_dates := ritem.getOccurrences startDate (info.searchStart rangeStart) rangeEnd
  match info.mBaseItem.duration with
  | none => cur_dates
  | some duration =>
    cur_dates.dropWhile fun date => !decide (rangeStart.time < info.zone.addDuration date duration)

def removeDate (state : Expansion) : CalDate → Expansion
  | .date day =>
    if state.occurrenceMap.any (keyDay · = day) then
      { dates := state.dates.filter fun date => info.zone.day date.id ≠ day
        occurrenceMap := state.occurrenceMap.filter (keyDay · ≠ day) }
    else state
  | .dateTime time =>
    if time ∈ state.occurrenceMap then
      { dates := state.dates.filter fun date => date.id ≠ time
        occurrenceMap := state.occurrenceMap.filter (· ≠ time) }
    else state

def datesToRemove (startDate : Int) : List CalDate :=
  info.mNegativeRules.flatMap
    (·.getOccurrences startDate (info.searchStart rangeStart) rangeEnd)

/-- `calculateDates` without a limit. -/
def calculateDates : Option (List OccDate) :=
  match info.mBaseItem.recurrenceStartDate with
  | none => some []
  | some startDate => do
    let state ← info.mExceptionMap.foldlM (addException rangeStart rangeEnd) {}
    let state ← info.addBaseDate rangeStart rangeEnd state
    let state ← (info.mPositiveRules.flatMap
      (info.windowDates rangeStart rangeEnd startDate)).foldlM addDate state
    return ((info.datesToRemove rangeStart rangeEnd startDate).foldl info.removeDate state).dates

end CalRecurrenceInfo

/-- The item occurs at the date, whatever the range. -/
def PositiveItem.occursAt (startDate date : Int) : PositiveItem → Prop
  | .rule ritem => ritem.occursAt startDate date = true
  | .date mDate => mDate = some date

/-- The item excludes the date: it is the same time, or on the same day. -/
def NegativeItem.excludes (zone : Timezone) (startDate date : Int) : NegativeItem → Prop
  | .rule ritem => ritem.occursAt startDate date = true
  | .date none => False
  | .date (some (.dateTime time)) => time = date
  | .date (some (.date day)) => day = zone.day date

namespace CalRecurrenceInfo

variable (info : CalRecurrenceInfo) (rangeStart rangeEnd : RangeDate) (startDate : Int)

def HasException (id : Int) : Prop := id ∈ info.mExceptionMap.map ExceptionItem.recurrenceId

def Excluded (date : Int) : Prop :=
  ∃ ritem ∈ info.mNegativeRules, ritem.excludes info.zone startDate date

/-- An exception is in the range by its own time. -/
def ExceptionDate (date : OccDate) : Prop :=
  ∃ ex ∈ info.mExceptionMap, date.id = ex.recurrenceId ∧
    checkIfInRange ex.item rangeStart.time rangeEnd.time = some date.rstart

def BaseDate (date : Int) : Prop :=
  checkIfInRange info.mBaseItem rangeStart.time rangeEnd.time = some date

/-- An occurrence of the length of the base item would be in the range. -/
def MeetsByDuration (date : Int) : Prop :=
  meetsRange date (match info.mBaseItem.duration with
    | none => date
    | some duration => info.zone.addDuration date duration) rangeStart.time rangeEnd.time = true

/-- A rule has an occurrence there that is in the range by the length of the base item. -/
def RuleDate (date : Int) : Prop :=
  (∃ ritem ∈ info.mPositiveRules, ritem.occursAt startDate date) ∧
    info.MeetsByDuration rangeStart rangeEnd date

/-- A rule has an occurrence there that is searched for. -/
def WindowDate (date : Int) : Prop :=
  ∃ ritem ∈ info.mPositiveRules, date ∈ info.windowDates rangeStart rangeEnd startDate ritem

/-- The dates with the ids that are not those of exceptions. -/
def Plain (dates : Int → Prop) (date : OccDate) : Prop :=
  date.rstart = date.id ∧ ¬ info.HasException date.id ∧ dates date.id

/-- The recurrence set in the range. -/
structure Expands (dates : List OccDate) : Prop where
  sorted : dates.Pairwise fun first second => first.rstart ≤ second.rstart
  once : (dates.map OccDate.id).Nodup
  content : ∀ date, date ∈ dates ↔
    (info.ExceptionDate rangeStart rangeEnd date ∨
      info.Plain (fun id => info.BaseDate rangeStart rangeEnd id ∨
        info.RuleDate rangeStart rangeEnd startDate id) date) ∧
    ¬ info.Excluded startDate date.id

/-- The ids that `occurrenceMap` knows before dates are removed. -/
def KnownId (id : Int) : Prop :=
  info.HasException id ∨ info.BaseDate rangeStart rangeEnd id ∨
    info.WindowDate rangeStart rangeEnd startDate id

/-- The removal takes the date out after the earlier ones. A time does unless a date has deleted its
key before, and a date does if there is still a key on its day, both of the days in UTC. -/
def TakesOut (known : Int → Prop) (earlier : List CalDate) (date : Int) : CalDate → Prop
  | .dateTime time => time = date ∧ .date (keyDay date) ∉ earlier
  | .date day => day = info.zone.day date ∧
      ∃ key, known key ∧ keyDay key = day ∧ .date day ∉ earlier ∧ .dateTime key ∉ earlier

/-- One of the removals takes the date out. -/
def Removes (known : Int → Prop) (removals : List CalDate) (date : Int) : Prop :=
  ∃ earlier removal later, removals = earlier ++ removal :: later ∧
    info.TakesOut known earlier date removal

/-- The searches of the rules find what is in the range, and what is excluded is removed from what
they find. -/
structure DatesReach : Prop where
  window : ∀ id, ¬ info.HasException id → ¬ info.BaseDate rangeStart rangeEnd id →
    ¬ info.Excluded startDate id →
    (info.WindowDate rangeStart rangeEnd startDate id ↔
      info.RuleDate rangeStart rangeEnd startDate id)
  removed : ∀ date, info.ExceptionDate rangeStart rangeEnd date ∨
      info.Plain (fun id => info.BaseDate rangeStart rangeEnd id ∨
        info.WindowDate rangeStart rangeEnd startDate id) date →
    info.Excluded startDate date.id →
    info.Removes (info.KnownId rangeStart rangeEnd startDate)
      (info.datesToRemove rangeStart rangeEnd startDate) date.id

end CalRecurrenceInfo

lemma ridDateSortComptor_preorder : PreorderCmp ridDateSortComptor where
  neg_swap first second := by
    rw [ridDateSortComptor, ridDateSortComptor, Int.sign_neg_iff, Int.sign_pos_iff]
    omega
  trans first second third left right := by
    rw [ridDateSortComptor, Int.sign_nonpos_iff] at left right ⊢
    omega

lemma insertDate_spec (sorted : Sorted ridDateSortComptor dates) (date) :
    ∃ later, insertDate dates date = some later ∧ Sorted ridDateSortComptor later ∧
      later.Perm (date :: dates) := by
  have laws := ridDateSortComptor_preorder
  have kept : ¬ (false = true ∧ ∃ equal ∈ dates, ridDateSortComptor equal date = 0) :=
    fun both => Bool.false_ne_true both.1
  by_cases nonempty : dates = []
  · subst nonempty
    exact ⟨[date], rfl, pairwise_singleton _ date, List.Perm.refl _⟩
  · obtain ⟨index, found, place⟩ := binarySearch_spec laws sorted date nonempty
    obtain ⟨other, neighbour, -⟩ := place.neighbour
    have insertion := place.sortedInsertion laws sorted kept
    refine ⟨insertAt dates index date, ?_, insertion.sorted, ?_⟩
    · rw [insertDate, binaryInsert_eq found neighbour, if_neg (by simp)]
      rfl
    · have content := insertion.content
      rw [if_neg kept] at content
      obtain ⟨before, after, isDates, isResult⟩ := content
      rw [isResult, isDates]
      exact perm_middle

/-- The dates are sorted and those of `occs`, with different ids, and the keys are those of
`known`, which all ids are. -/
structure Expansion.Holds (state : Expansion) (occs : OccDate → Prop) (known : Int → Prop) :
    Prop where
  sorted : Sorted ridDateSortComptor state.dates
  once : (state.dates.map OccDate.id).Nodup
  content : ∀ date, date ∈ state.dates ↔ occs date
  keys : ∀ key, key ∈ state.occurrenceMap ↔ known key
  mapped : ∀ date, occs date → known date.id

namespace Expansion.Holds

variable {state : Expansion} {occs : OccDate → Prop} {known : Int → Prop}
  (holds : state.Holds occs known)
include holds

lemma insert (date) (new : ¬ known date.id) :
    ∃ dates, insertDate state.dates date = some dates ∧
      (⟨dates, date.id :: state.occurrenceMap⟩ : Expansion).Holds
        (fun other => other = date ∨ occs other) (fun key => key = date.id ∨ known key) := by
  obtain ⟨dates, inserted, sorted, perm⟩ := insertDate_spec holds.sorted date
  refine ⟨dates, inserted, sorted, ?_, ?_, ?_, ?_⟩
  · rw [(perm.map OccDate.id).nodup_iff, map_cons, nodup_cons]
    refine ⟨?_, holds.once⟩
    intro mem
    obtain ⟨other, isOther, same⟩ := mem_map.mp mem
    exact new (same ▸ holds.mapped other ((holds.content other).mp isOther))
  · intro other
    rw [perm.mem_iff, mem_cons, holds.content]
  · intro key
    rw [mem_cons, holds.keys]
  · rintro other (rfl | isOther)
    · exact .inl rfl
    · exact .inr (holds.mapped other isOther)

lemma know (id : Int) :
    ({ state with occurrenceMap := id :: state.occurrenceMap } : Expansion).Holds occs
      (fun key => key = id ∨ known key) where
  sorted := holds.sorted
  once := holds.once
  content := holds.content
  keys key := by rw [mem_cons, holds.keys]
  mapped date isDate := .inr (holds.mapped date isDate)

lemma congr {occs' : OccDate → Prop} {known' : Int → Prop}
    (sameOccs : ∀ date, occs date ↔ occs' date) (sameKnown : ∀ key, known key ↔ known' key) :
    state.Holds occs' known' where
  sorted := holds.sorted
  once := holds.once
  content date := (holds.content date).trans (sameOccs date)
  keys key := (holds.keys key).trans (sameKnown key)
  mapped date isDate := (sameKnown date.id).mp (holds.mapped date ((sameOccs date).mpr isDate))

end Expansion.Holds

namespace CalRecurrenceInfo

variable (rangeStart rangeEnd : RangeDate)

/-- Exceptions in the range by their own time. -/
def InRangeOf (exceptions : List ExceptionItem) (date : OccDate) :
    Prop :=
  ∃ ex ∈ exceptions, date.id = ex.recurrenceId ∧
    checkIfInRange ex.item rangeStart.time rangeEnd.time = some date.rstart

lemma inRangeOf_cons (ex) (rest) (date) :
    InRangeOf rangeStart rangeEnd (ex :: rest) date ↔
      InRangeOf rangeStart rangeEnd [ex] date ∨ InRangeOf rangeStart rangeEnd rest date := by
  simp only [InRangeOf, mem_cons, not_mem_nil, or_false, exists_eq_or_imp,
    exists_eq_left]

lemma addException_holds {occs : OccDate → Prop} {known : Int → Prop}
    (holds : state.Holds occs known) (new : ¬ known ex.recurrenceId) :
    ∃ later, addException rangeStart rangeEnd state ex = some later ∧
      later.Holds (fun date => InRangeOf rangeStart rangeEnd [ex] date ∨ occs date)
        (fun key => key = ex.recurrenceId ∨ known key) := by
  rw [addException]
  cases inRange : checkIfInRange ex.item rangeStart.time rangeEnd.time with
  | none =>
    refine ⟨_, rfl, (holds.know ex.recurrenceId).congr ?_ fun _ => Iff.rfl⟩
    intro date
    simp [InRangeOf, inRange]
  | some occDate =>
    obtain ⟨dates, inserted, later⟩ := holds.insert ⟨ex.recurrenceId, occDate⟩ new
    refine ⟨_, ?_, later.congr ?_ fun _ => Iff.rfl⟩
    · dsimp only
      rw [inserted]
      rfl
    · intro date
      have same : date = ⟨ex.recurrenceId, occDate⟩ ↔
          date.id = ex.recurrenceId ∧ occDate = date.rstart := by
        cases date
        simp [eq_comm]
      simp [InRangeOf, inRange, same]

lemma addExceptions_holds (exceptions : List ExceptionItem)
    (distinct : (exceptions.map ExceptionItem.recurrenceId).Nodup) {occs : OccDate → Prop}
    {known : Int → Prop} (holds : state.Holds occs known)
    (new : ∀ ex ∈ exceptions, ¬ known ex.recurrenceId) :
    ∃ later, exceptions.foldlM (addException rangeStart rangeEnd) state = some later ∧
      later.Holds (fun date => InRangeOf rangeStart rangeEnd exceptions date ∨ occs date)
        (fun key => key ∈ exceptions.map ExceptionItem.recurrenceId ∨ known key) := by
  induction exceptions generalizing state occs known with
  | nil => exact ⟨state, rfl, holds.congr (by simp [InRangeOf]) (by simp)⟩
  | cons ex rest ih =>
    rw [map_cons, nodup_cons] at distinct
    obtain ⟨middle, isMiddle, middleHolds⟩ :=
      addException_holds rangeStart rangeEnd holds (new ex mem_cons_self)
    obtain ⟨later, isLater, laterHolds⟩ := ih distinct.2 middleHolds (by
      rintro other mem (same | isKnown)
      · exact distinct.1 (same ▸ mem_map_of_mem mem)
      · exact new other (mem_cons_of_mem _ mem) isKnown)
    refine ⟨later, ?_, laterHolds.congr ?_ ?_⟩
    · rw [foldlM_cons, isMiddle]
      exact isLater
    · intro date
      rw [inRangeOf_cons rangeStart rangeEnd ex rest date]
      tauto
    · intro key
      rw [map_cons, mem_cons]
      tauto

lemma addDate_holds {occs : OccDate → Prop} {known : Int → Prop} (holds : state.Holds occs known)
    (date : Int) :
    ∃ later, addDate state date = some later ∧
      later.Holds (fun other => occs other ∨
          other.rstart = other.id ∧ ¬ known other.id ∧ other.id = date)
        (fun key => known key ∨ key = date) := by
  rw [addDate]
  by_cases isKnown : date ∈ state.occurrenceMap
  · rw [if_pos isKnown]
    rw [holds.keys] at isKnown
    refine ⟨state, rfl, holds.congr ?_ ?_⟩
    · intro other
      refine ⟨.inl, fun either => either.resolve_right ?_⟩
      rintro ⟨-, new, rfl⟩
      exact new isKnown
    · intro key
      refine ⟨.inl, fun either => either.elim id ?_⟩
      rintro rfl
      exact isKnown
  · rw [if_neg isKnown]
    rw [holds.keys] at isKnown
    obtain ⟨dates, inserted, later⟩ := holds.insert ⟨date, date⟩ isKnown
    refine ⟨_, ?_, later.congr ?_ ?_⟩
    · rw [inserted]
      rfl
    · intro other
      have same : other = ⟨date, date⟩ ↔
          other.rstart = other.id ∧ ¬ known other.id ∧ other.id = date := by
        cases other
        constructor
        · rintro ⟨⟩
          exact ⟨rfl, isKnown, rfl⟩
        · rintro ⟨start, -, id⟩
          exact congrArg₂ OccDate.mk id (start.trans id)
      rw [same, or_comm]
    · intro key
      rw [or_comm]

lemma addDates_holds (dates : List Int) {occs : OccDate → Prop} {known : Int → Prop}
    (holds : state.Holds occs known) :
    ∃ later, dates.foldlM addDate state = some later ∧
      later.Holds (fun other => occs other ∨
          other.rstart = other.id ∧ ¬ known other.id ∧ other.id ∈ dates)
        (fun key => known key ∨ key ∈ dates) := by
  induction dates generalizing state occs known with
  | nil => exact ⟨state, rfl, holds.congr (by simp) (by simp)⟩
  | cons date rest ih =>
    obtain ⟨middle, isMiddle, middleHolds⟩ := addDate_holds holds date
    obtain ⟨later, isLater, laterHolds⟩ := ih middleHolds
    refine ⟨later, ?_, laterHolds.congr ?_ ?_⟩
    · rw [foldlM_cons, isMiddle]
      exact isLater
    · intro other
      rw [mem_cons]
      by_cases here : other.id = date
      · simp only [here]
        tauto
      · simp only [here]
        tauto
    · intro key
      rw [mem_cons]
      tauto

def KeyStays (removals : List CalDate) (key : Int) : Prop :=
  .dateTime key ∉ removals ∧ .date (keyDay key) ∉ removals

variable (info : CalRecurrenceInfo)

lemma removes_concat (known : Int → Prop) (earlier) (removal) (date : Int) :
    info.Removes known (earlier ++ [removal]) date ↔
      info.Removes known earlier date ∨ info.TakesOut known earlier date removal := by
  constructor
  · rintro ⟨before, here, later, split, takesOut⟩
    rcases eq_nil_or_concat later with rfl | ⟨middle, last, rfl⟩
    · obtain ⟨rfl, same⟩ := append_inj' split rfl
      cases same
      exact .inr takesOut
    · have split' : earlier ++ [removal] = (before ++ here :: middle) ++ [last] := by
        rw [split]
        simp
      obtain ⟨rfl, -⟩ := append_inj' split' rfl
      exact .inl ⟨before, here, middle, rfl, takesOut⟩
  · rintro (⟨before, here, later, split, takesOut⟩ | takesOut)
    · exact ⟨before, here, later ++ [removal], by rw [split]; simp, takesOut⟩
    · exact ⟨earlier, removal, [], rfl, takesOut⟩

/-- The dates and keys that the removals have left. -/
structure Leaves (occs : OccDate → Prop) (known : Int → Prop) (removals : List CalDate)
    (state : Expansion) : Prop where
  sorted : Sorted ridDateSortComptor state.dates
  once : (state.dates.map OccDate.id).Nodup
  content : ∀ date, date ∈ state.dates ↔ occs date ∧ ¬ info.Removes known removals date.id
  keys : ∀ key, key ∈ state.occurrenceMap ↔ known key ∧ KeyStays removals key

lemma keyStays_concat (earlier) (removal) (key : Int) :
    KeyStays (earlier ++ [removal]) key ↔
      KeyStays earlier key ∧ removal ≠ .dateTime key ∧ removal ≠ .date (keyDay key) := by
  simp only [KeyStays, mem_append, mem_singleton, not_or]
  constructor
  · rintro ⟨⟨notTime, otherTime⟩, notDay, otherDay⟩
    exact ⟨⟨notTime, notDay⟩, Ne.symm otherTime, Ne.symm otherDay⟩
  · rintro ⟨⟨notTime, notDay⟩, otherTime, otherDay⟩
    exact ⟨⟨notTime, Ne.symm otherTime⟩, notDay, Ne.symm otherDay⟩

section

variable {info} {occs : OccDate → Prop} {known : Int → Prop}
  (leaves : info.Leaves occs known earlier state)
include leaves

lemma Leaves.skip (idle : ∀ date, occs date → info.TakesOut known earlier date.id removal →
      info.Removes known earlier date.id) (noKey : ∀ key, known key → KeyStays earlier key → removal
      ≠ .dateTime key ∧ removal ≠ .date (keyDay key)) :
    info.Leaves occs known (earlier ++ [removal]) state where
  sorted := leaves.sorted
  once := leaves.once
  content date := by
    rw [leaves.content, removes_concat]
    have effect := idle date
    tauto
  keys key := by
    rw [leaves.keys, keyStays_concat]
    have other := noKey key
    tauto

lemma Leaves.filter {keep : OccDate → Bool} {keepKey : Int → Bool}
    (kept : ∀ date, keep date = true ↔ ¬ info.TakesOut known earlier date.id removal)
    (keptKey : ∀ key, keepKey key = true ↔ removal ≠ .dateTime key ∧ removal ≠ .date (keyDay key)) :
    info.Leaves occs known (earlier ++ [removal])
      ⟨state.dates.filter keep, state.occurrenceMap.filter keepKey⟩ where
  sorted := leaves.sorted.sublist filter_sublist
  once := leaves.once.sublist (filter_sublist.map OccDate.id)
  content date := by
    rw [mem_filter, leaves.content, removes_concat, kept]
    tauto
  keys key := by
    rw [mem_filter, leaves.keys, keyStays_concat, keptKey]
    tauto

lemma Leaves.removeTime (mapped : ∀ date, occs date → known date.id) (time : Int) :
    info.Leaves occs known (earlier ++ [.dateTime time])
      (info.removeDate state (.dateTime time)) := by
  rw [CalRecurrenceInfo.removeDate]
  by_cases isKey : time ∈ state.occurrenceMap
  · rw [if_pos isKey]
    obtain ⟨isKnown, notTime, notDay⟩ := (leaves.keys time).mp isKey
    apply leaves.filter
    · intro date
      rw [decide_eq_true_iff, TakesOut]
      constructor
      · rintro different ⟨same, -⟩
        exact different same.symm
      · rintro stays rfl
        exact stays ⟨rfl, notDay⟩
    · intro key
      rw [decide_eq_true_iff]
      constructor
      · intro different
        exact ⟨fun same => different (CalDate.dateTime.inj same).symm, nofun⟩
      · rintro ⟨different, -⟩ rfl
        exact different rfl
  · rw [if_neg isKey]
    apply leaves.skip
    · rintro date isDate ⟨rfl, notDay⟩
      -- Its key was deleted by itself then.
      have isEarlier : CalDate.dateTime date.id ∈ earlier := by
        by_contra notTime
        exact isKey ((leaves.keys date.id).mpr ⟨mapped date isDate, notTime, notDay⟩)
      obtain ⟨before, after, rfl⟩ := append_of_mem isEarlier
      exact ⟨before, _, after, rfl, rfl, fun mem => notDay (mem_append_left _ mem)⟩
    · intro key isKnown stays
      refine ⟨?_, nofun⟩
      rintro ⟨⟩
      exact isKey ((leaves.keys time).mpr ⟨isKnown, stays⟩)

lemma Leaves.removeDay (day : Int) :
    info.Leaves occs known (earlier ++ [.date day]) (info.removeDate state (.date day)) := by
  rw [CalRecurrenceInfo.removeDate]
  have keyOfDay : state.occurrenceMap.any (keyDay · = day) = true ↔
      ∃ key, known key ∧ keyDay key = day ∧ .date day ∉ earlier ∧ .dateTime key ∉ earlier := by
    rw [any_eq_true]
    constructor
    · rintro ⟨key, isKey, sameDay⟩
      obtain ⟨isKnown, notTime, notDay⟩ := (leaves.keys key).mp isKey
      have sameDay := of_decide_eq_true sameDay
      exact ⟨key, isKnown, sameDay, sameDay ▸ notDay, notTime⟩
    · rintro ⟨key, isKnown, rfl, notDay, notTime⟩
      exact ⟨key, (leaves.keys key).mpr ⟨isKnown, notTime, notDay⟩, decide_eq_true rfl⟩
  by_cases isKey : state.occurrenceMap.any (keyDay · = day) = true
  · rw [if_pos isKey]
    apply leaves.filter
    · intro date
      rw [decide_eq_true_iff, TakesOut]
      constructor
      · rintro different ⟨same, -⟩
        exact different same.symm
      · rintro stays rfl
        exact stays ⟨rfl, keyOfDay.mp isKey⟩
    · intro key
      rw [decide_eq_true_iff]
      constructor
      · intro different
        exact ⟨nofun, fun same => different (CalDate.date.inj same).symm⟩
      · rintro ⟨-, different⟩ rfl
        exact different rfl
  · rw [if_neg isKey]
    apply leaves.skip
    · rintro date isDate ⟨-, key⟩
      exact absurd (keyOfDay.mpr key) isKey
    · intro key isKnown stays
      refine ⟨nofun, ?_⟩
      rintro ⟨⟩
      exact isKey (keyOfDay.mpr ⟨key, isKnown, rfl, stays.2, stays.1⟩)

end

lemma removeDates_leaves {occs : OccDate → Prop} {known : Int → Prop}
    (holds : state.Holds occs known) (removals) :
    info.Leaves occs known removals (removals.foldl info.removeDate state) := by
  induction removals using List.reverseRecOn with
  | nil =>
    have nothing (date : Int) : ¬ info.Removes known [] date := by
      rintro ⟨earlier, removal, later, split, -⟩
      exact absurd split (by simp)
    refine ⟨holds.sorted, holds.once, ?_, ?_⟩
    · intro date
      exact (holds.content date).trans (iff_self_and.mpr fun _ => nothing date.id)
    · intro key
      exact (holds.keys key).trans (iff_self_and.mpr fun _ => ⟨not_mem_nil, not_mem_nil⟩)
  | append_singleton earlier removal ih =>
    rw [foldl_concat]
    cases removal with
    | dateTime time => exact ih.removeTime holds.mapped time
    | date day => exact ih.removeDay day

/-- What is calculated are the dates that are found, less those that a removal takes out. -/
theorem calculateDates_spec (dated : info.mBaseItem.recurrenceStartDate = some startDate) :
    ∃ state, info.calculateDates rangeStart rangeEnd = some state.dates ∧
      info.Leaves (fun date => info.ExceptionDate rangeStart rangeEnd date ∨
          info.Plain (fun id => info.BaseDate rangeStart rangeEnd id ∨
            info.WindowDate rangeStart rangeEnd startDate id) date)
        (info.KnownId rangeStart rangeEnd startDate)
        (info.datesToRemove rangeStart rangeEnd startDate) state := by
  have nothing : ({} : Expansion).Holds (fun _ => False) (fun _ => False) :=
    ⟨List.Pairwise.nil, nodup_nil, fun _ => iff_of_false not_mem_nil id,
      fun _ => iff_of_false not_mem_nil id, fun _ => False.elim⟩
  obtain ⟨first, isFirst, firstHolds⟩ := addExceptions_holds rangeStart rangeEnd
    info.mExceptionMap info.distinct nothing fun _ _ => id
  obtain ⟨second, isSecond, secondHolds⟩ := addDates_holds
    (checkIfInRange info.mBaseItem rangeStart.time rangeEnd.time).toList firstHolds
  obtain ⟨third, isThird, thirdHolds⟩ := addDates_holds
    (info.mPositiveRules.flatMap (info.windowDates rangeStart rangeEnd startDate)) secondHolds
  have base : info.addBaseDate rangeStart rangeEnd first = some second := by
    rw [← isSecond, addBaseDate]
    cases checkIfInRange info.mBaseItem rangeStart.time rangeEnd.time with
    | none => rfl
    | some baseOccDate => exact (bind_pure _).symm
  have isBase (id : Int) :
      id ∈ (checkIfInRange info.mBaseItem rangeStart.time rangeEnd.time).toList ↔
        info.BaseDate rangeStart rangeEnd id := Option.mem_toList.trans Option.mem_def
  have isWindow (id : Int) :
      id ∈ info.mPositiveRules.flatMap (info.windowDates rangeStart rangeEnd startDate) ↔
        info.WindowDate rangeStart rangeEnd startDate id := mem_flatMap
  have isException (id : Int) :
      id ∈ info.mExceptionMap.map ExceptionItem.recurrenceId ↔ info.HasException id := Iff.rfl
  refine ⟨_, ?_, info.removeDates_leaves (thirdHolds.congr ?_ ?_)
    (info.datesToRemove rangeStart rangeEnd startDate)⟩
  · rw [calculateDates, dated]
    dsimp only
    rw [isFirst, Option.bind_eq_bind, Option.bind_some, base, Option.bind_some, isThird]
    rfl
  · intro date
    rw [isBase, isWindow, isException, Plain]
    have sameException : InRangeOf rangeStart rangeEnd info.mExceptionMap date ↔
        info.ExceptionDate rangeStart rangeEnd date := Iff.rfl
    rw [sameException]
    tauto
  · intro key
    rw [isBase, isWindow, isException, KnownId]
    tauto

variable {info rangeStart rangeEnd}

lemma Removes.excluded {known : Int → Prop}
    (removes : info.Removes known (info.datesToRemove rangeStart rangeEnd startDate) date) :
    info.Excluded startDate date := by
  obtain ⟨earlier, removal, later, split, takesOut⟩ := removes
  have mem : removal ∈ info.datesToRemove rangeStart rangeEnd startDate := by
    rw [split]
    exact mem_append_right _ mem_cons_self
  obtain ⟨ritem, isItem, mem⟩ := mem_flatMap.mp mem
  refine ⟨ritem, isItem, ?_⟩
  match ritem with
  | .rule ritem =>
    obtain ⟨time, isTime, rfl⟩ := mem_map.mp mem
    obtain ⟨rfl, -⟩ := takesOut
    exact ((ritem.mem_getOccurrences _ _ _ _).mp isTime).1
  | .date none => exact absurd mem not_mem_nil
  | .date (some (.dateTime time)) =>
    rw [NegativeItem.getOccurrences] at mem
    split at mem
    · cases mem_singleton.mp mem
      exact takesOut.1
    · exact absurd mem not_mem_nil
  | .date (some (.date day)) =>
    rw [NegativeItem.getOccurrences] at mem
    split at mem
    · cases mem_singleton.mp mem
      exact takesOut.1
    · exact absurd mem not_mem_nil

lemma ExceptionDate.hasException (isException : info.ExceptionDate rangeStart rangeEnd date) :
    info.HasException date.id := by
  obtain ⟨ex, mem, same, -⟩ := isException
  exact same ▸ mem_map_of_mem mem

lemma plain_iff {id : Int} {others : Int → Prop} (noException : ¬ info.HasException id)
    (notBase : ¬ info.BaseDate rangeStart rangeEnd id) :
    (info.ExceptionDate rangeStart rangeEnd ⟨id, id⟩ ∨
      info.Plain (fun id => info.BaseDate rangeStart rangeEnd id ∨ others id) ⟨id, id⟩) ↔
        others id := by
  constructor
  · rintro (isException | ⟨-, -, isBase | isOther⟩)
    · exact absurd isException.hasException noException
    · exact absurd isBase notBase
    · exact isOther
  · exact fun isOther => .inr ⟨rfl, noException, .inr isOther⟩

lemma plain_congr {others others' : Int → Prop} (same : ¬ info.HasException date.id → ¬
      info.BaseDate rangeStart rangeEnd date.id → (others date.id ↔ others' date.id)) :
    info.Plain (fun id => info.BaseDate rangeStart rangeEnd id ∨ others id) date ↔
      info.Plain (fun id => info.BaseDate rangeStart rangeEnd id ∨ others' id) date := by
  rw [Plain, Plain]
  by_cases isBase : info.BaseDate rangeStart rangeEnd date.id
  · simp only [isBase, true_or]
  · by_cases hasException : info.HasException date.id
    · simp only [hasException, not_true_eq_false, false_and]
    · simp only [isBase, false_or, same hasException isBase]

/-- Five hours behind UTC. -/
def behindUtc : Timezone := ⟨fun _ => -18000, fun clock => clock + 18000⟩

/-- An event from eight to nine in the evening, with these EXDATEs. -/
def eveningEvent (exdates : List NegativeItem) : CalRecurrenceInfo where
  zone := behindUtc
  mBaseItem := .event (some 90000) (some 93600)
  mPositiveRules := []
  mNegativeRules := exdates
  mExceptionMap := []
  distinct := nodup_nil

end CalRecurrenceInfo

end CommCentral.Calendar
