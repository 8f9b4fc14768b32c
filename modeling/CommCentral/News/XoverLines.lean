import CommCentral.News.NewsgroupList

/-! Between `InitXOVER` and `FinishXOVERLINE`: the articles that the server left out are
marked as read, and those up to the last line are known. -/
namespace CommCentral.News
open Base List Option

/-- The words of a set denote numbers below the largest `int32_t`. -/
def Stores (set : MsgKeySet) (numbers : Set Int) : Prop :=
  ∃ chunks, MsgKeySet.Represents set chunks numbers

namespace Stores

variable (junk : Junk) {set : MsgKeySet}

lemma members_eq (stores : Stores set numbers) : set.members = numbers := by
  obtain ⟨chunks, represents⟩ := stores
  exact represents.members_eq

lemma empty : Stores (MsgKeySet.empty junk) ∅ := ⟨[], MsgKeySet.empty_represents junk⟩

lemma add (stores : Stores set numbers) {number : Int} (nonnegative : 0 ≤ number)
    (small : number < 2 ^ 31 - 1) :
    ¬ (MsgKeySet.add junk set number).2 < 0 ∧
      Stores (MsgKeySet.add junk set number).1 (insert number numbers) := by
  obtain ⟨chunks, represents⟩ := stores
  obtain ⟨answer, others, represents'⟩ :=
    MsgKeySet.add_refines junk represents (by decide) nonnegative small
  refine ⟨?_, others, represents'⟩
  rcases answer with ⟨added, -⟩ | ⟨present, -⟩
  · omega
  · omega

/-- An interval the wrong way round is refused, and adds nothing. -/
theorem addRange (stores : Stores set numbers) {start finish : Int} (nonnegative : 0 ≤ start)
    (small : finish < 2 ^ 31 - 1) :
    Stores (MsgKeySet.addRange junk set start finish).1 (numbers ∪ Set.Icc start finish) := by
  obtain ⟨chunks, represents⟩ := stores
  by_cases order : start ≤ finish
  · exact MsgKeySet.addRange_refines junk represents (by decide) nonnegative order small
      fun _ => represents.bounded
  · have refused : MsgKeySet.addRange junk set start finish =
        ({ set with cachedValue := -1 }, -1) := by
      rw [MsgKeySet.addRange]
      exact if_pos (Int.not_le.mp order)
    rw [refused, Set.Icc_eq_empty order, Set.union_empty]
    exact ⟨chunks, represents.forget⟩

lemma isMember (stores : Stores set numbers) (number : Int) :
    Stores (MsgKeySet.isMember junk set number).1 numbers := by
  obtain ⟨chunks, represents⟩ := stores
  exact ⟨chunks, (MsgKeySet.isMember_spec junk represents number).2⟩

end Stores

namespace NewsgroupList

structure Holds (list : NewsgroupList) (read known : Set Int) : Prop where
  readSet : Stores list.set read
  knownSet : ∀ set ∈ list.knownSet, Stores set known
  nothing : list.knownSet = none → known = ∅

variable {list : NewsgroupList} {read known : Set Int}

lemma Holds.known_eq (holds : list.Holds read known) : list.known = known := by
  ext number
  change (∃ set ∈ list.knownSet, number ∈ set.members) ↔ number ∈ known
  cases stored : list.knownSet with
  | none =>
    rw [holds.nothing stored]
    simp
  | some set =>
    have same := (holds.knownSet set stored).members_eq
    simp [same]

variable (junk : Junk)

/-- A range of known articles, in a new set if there is none yet. -/
theorem addToKnownArticles_holds (holds : list.Holds read known) {first last : Int}
    (nonnegative : 0 ≤ first) (small : last < 2 ^ 31 - 1) :
    (list.addToKnownArticles junk first last).Holds read (known ∪ Set.Icc first last) := by
  refine ⟨holds.readSet, ?_, fun missing => by cases missing⟩
  intro set mem
  cases mem
  apply Stores.addRange junk _ nonnegative small
  cases stored : list.knownSet with
  | none =>
    rw [holds.nothing stored]
    exact Stores.empty junk
  | some set => exact holds.knownSet set stored

lemma addKnown_spec (holds : list.Holds read known) {number : Int} (nonnegative : 0 ≤ number)
    (small : number < 2 ^ 31 - 1) :
    ∃ knownSet, addKnown junk list.knownSet number = some knownSet ∧
      (knownSet = none ↔ list.knownSet = none) ∧
      ∀ set ∈ knownSet, Stores set (insert number known) := by
  cases stored : list.knownSet with
  | none => exact ⟨none, rfl, Iff.rfl, fun set mem => by cases mem⟩
  | some set =>
    obtain ⟨positive, stores⟩ := (holds.knownSet set stored).add junk nonnegative small
    refine ⟨some (MsgKeySet.add junk set number).1, if_neg positive, by simp, ?_⟩
    intro other mem
    cases mem
    exact stores

end NewsgroupList

/-- The number that counts as processed before the first line. -/
def startNumber (first : Int) : Int := if first > 1 then first - 1 else 1

/-- The state after some lines: the articles between them are read. The articles of the
lines are known only if there was a set for them. -/
structure Progress (first last : Int) (read known : Set Int) (received : List Int)
    (list : NewsgroupList) : Prop where
  holds : ∃ extra, extra ⊆ {number | number ∈ received} ∧
    list.Holds (read ∪ {number | startNumber first < number ∧
      number ≤ list.lastProcessedNumber ∧ number ∉ received}) (known ∪ extra)
  processed : list.lastProcessedNumber = received.getLast?.getD (startNumber first)
  firstMsg : list.firstMsgNumber = first
  lastMsg : list.lastMsgNumber = last

/-- The numbers of the lines: strictly increasing, in the interval asked for. -/
structure Lines (first last : Int) (received : List Int) : Prop where
  increasing : received.Pairwise (· < ·)
  inside : ∀ number ∈ received, first ≤ number ∧ number ≤ last

section
variable {first last : Int} {number : Int}

lemma Lines.front (lines : Lines first last (received ++ [number])) :
    Lines first last received :=
  ⟨(pairwise_append.mp lines.increasing).1,
    fun other mem => lines.inside other (mem_append_left _ mem)⟩

lemma startNumber_spec (positive : 1 ≤ first) :
    1 ≤ startNumber first ∧ startNumber first ≤ first ∧ first ≤ startNumber first + 1 := by
  unfold startNumber
  split <;> omega

lemma Lines.processed (lines : Lines first last received) (positive : 1 ≤ first) :
    startNumber first ≤ received.getLast?.getD (startNumber first) ∧
      ∀ other ∈ received, other ≤ received.getLast?.getD (startNumber first) := by
  obtain ⟨-, below, -⟩ := startNumber_spec positive
  rcases eq_nil_or_concat received with rfl | ⟨front, number, rfl⟩
  · exact ⟨Int.le_refl _, fun other mem => absurd mem not_mem_nil⟩
  · rw [concat_eq_append] at lines ⊢
    rw [getLast?_concat, getD_some]
    have inside := lines.inside number (mem_append_right _ (mem_singleton_self _))
    refine ⟨by omega, ?_⟩
    intro other mem
    rcases mem_append.mp mem with earlier | same
    · have less := (pairwise_append.mp lines.increasing).2.2 other earlier number
        (mem_singleton_self _)
      exact Int.le_of_lt less
    · rw [mem_singleton.mp same]

/-- Only the article 1 may come when it counts as processed already. -/
theorem Lines.next (lines : Lines first last (received ++ [number])) (positive : 1 ≤ first) :
    received.getLast?.getD (startNumber first) ≤ number ∧
      (received.getLast?.getD (startNumber first) = number →
        received.getLast?.getD (startNumber first) = startNumber first) := by
  obtain ⟨-, below, -⟩ := startNumber_spec positive
  have inside := lines.inside number (mem_append_right _ (mem_singleton_self _))
  rcases eq_nil_or_concat received with rfl | ⟨front, previous, rfl⟩
  · refine ⟨?_, fun _ => rfl⟩
    change startNumber first ≤ number
    omega
  · rw [concat_eq_append] at lines ⊢
    rw [getLast?_concat, getD_some]
    have less := (pairwise_append.mp lines.increasing).2.2 previous
      (mem_append_right _ (mem_singleton_self _)) number (mem_singleton_self _)
    exact ⟨Int.le_of_lt less, fun same => absurd same (Int.ne_of_lt less)⟩

end

/-- An interval above the articles that are accounted for is added to them. -/
theorem union_interval {read before after interval : Set Int} {start processed : Int}
    (grown : ∀ number, start < number → (number ∈ after ↔
      number ≤ processed ∧ number ∈ before ∨ number ∈ interval))
    (late : ∀ number ∈ interval, start < number) :
    (read ∪ {number | start < number ∧ number ≤ processed ∧ number ∈ before}) ∪ interval =
      read ∪ {number | start < number ∧ number ∈ after} := by
  rw [Set.union_assoc]
  congr 1
  ext number
  constructor
  · rintro (⟨above, below, mem⟩ | mem)
    · exact ⟨above, (grown number above).mpr (.inl ⟨below, mem⟩)⟩
    · exact ⟨late number mem, (grown number (late number mem)).mpr (.inr mem)⟩
  · rintro ⟨above, mem⟩
    cases (grown number above).mp mem with
    | inl old => exact .inl ⟨above, old.1, old.2⟩
    | inr new => exact .inr new

section
variable {first last : Int} {read known : Set Int}

lemma Progress.step (junk : Junk) (progress : Progress first last read known received list)
    {number : Int} (lines : Lines first last (received ++ [number])) (positive : 1 ≤ first)
    (small : last < 2 ^ 31 - 1) :
    ∃ list', list.processXOVERLINE junk number = some list' ∧
      Progress first last read known (received ++ [number]) list' := by
  obtain ⟨extra, within, holds⟩ := progress.holds
  obtain ⟨started, -, -⟩ := startNumber_spec positive
  obtain ⟨reached, below⟩ := lines.front.processed positive
  obtain ⟨order, atStart⟩ := lines.next positive
  obtain ⟨lower, upper⟩ := lines.inside number (mem_append_right _ (mem_singleton_self _))
  rw [← progress.processed] at reached below order atStart
  obtain ⟨knownSet, added, noneIff, stores⟩ :=
    NewsgroupList.addKnown_spec junk holds (by omega : 0 ≤ number) (by omega)
  have marked : Stores
      (if number > list.lastProcessedNumber + 1 then
        (MsgKeySet.addRange junk list.set (list.lastProcessedNumber + 1) (number - 1)).1
      else list.set)
      (read ∪ {other | startNumber first < other ∧ other ∈
        ({other | other ≤ number ∧ other ∉ received ++ [number]} : Set Int)}) := by
    have union : (read ∪ {other | startNumber first < other ∧
        other ≤ list.lastProcessedNumber ∧ other ∉ received}) ∪
          Set.Icc (list.lastProcessedNumber + 1) (number - 1) =
        read ∪ {other | startNumber first < other ∧ other ∈
          ({other | other ≤ number ∧ other ∉ received ++ [number]} : Set Int)} := by
      apply @union_interval read {other | other ∉ received}
      · intro other above
        change other ≤ number ∧ other ∉ received ++ [number] ↔
          other ≤ list.lastProcessedNumber ∧ other ∉ received ∨
            list.lastProcessedNumber + 1 ≤ other ∧ other ≤ number - 1
        rw [mem_append, mem_singleton, not_or]
        constructor
        · rintro ⟨upTo, absent, different⟩
          by_cases early : other ≤ list.lastProcessedNumber
          · exact .inl ⟨early, absent⟩
          · exact .inr (by omega)
        · rintro (⟨early, absent⟩ | ⟨late, before⟩)
          · refine ⟨by omega, absent, ?_⟩
            intro same
            have fresh := atStart (by omega)
            omega
          · refine ⟨by omega, ?_, by omega⟩
            intro mem
            have earlier := below other mem
            omega
      · rintro other ⟨late, -⟩
        omega
    rw [← union]
    split
    · exact holds.readSet.addRange junk (by omega) (by omega)
    · have empty : Set.Icc (list.lastProcessedNumber + 1) (number - 1) = ∅ :=
        Set.Icc_eq_empty (by omega)
      rw [empty, Set.union_empty]
      exact holds.readSet
  refine ⟨_, by rw [NewsgroupList.processXOVERLINE, added]; rfl, ?_, ?_, ?_, ?_⟩
  · by_cases none : knownSet = none
    · refine ⟨extra, ?_, marked.isMember junk number, ?_, fun _ => holds.nothing (noneIff.mp none)⟩
      · intro other mem
        exact mem_append_left _ (within mem)
      · intro set mem
        change set ∈ knownSet at mem
        rw [none] at mem
        cases mem
    · refine ⟨insert number extra, ?_, marked.isMember junk number, ?_,
        fun missing => absurd missing none⟩
      · rintro other (same | mem)
        · rw [same]
          exact mem_append_right _ (mem_singleton_self _)
        · exact mem_append_left _ (within mem)
      · intro set mem
        rw [Set.union_insert]
        exact stores set mem
  · change number = _
    rw [getLast?_concat]
    rfl
  · change (if number > list.lastMsgNumber then list.firstMsgNumber
      else if number < list.firstMsgNumber then number else list.firstMsgNumber) = first
    rw [progress.firstMsg, progress.lastMsg, if_neg (by omega), if_neg (by omega)]
  · change (if number > list.lastMsgNumber then number else list.lastMsgNumber) = last
    rw [progress.lastMsg, if_neg (by omega)]

lemma Progress.lines (progress : Progress first last read known received list)
    (lines : Lines first last (received ++ news.map Prod.fst)) (positive : 1 ≤ first)
    (small : last < 2 ^ 31 - 1) :
    ∃ list', list.processLines news = some list' ∧
      Progress first last read known (received ++ news.map Prod.fst) list' := by
  induction news generalizing received list with
  | nil =>
    refine ⟨list, rfl, ?_⟩
    rw [map_nil, append_nil]
    exact progress
  | cons line news ih =>
    obtain ⟨number, junk⟩ := line
    have split : received ++ (((number, junk) :: news).map Prod.fst) =
        (received ++ [number]) ++ news.map Prod.fst := by simp
    rw [split] at lines ⊢
    have front : Lines first last (received ++ [number]) :=
      ⟨(pairwise_append.mp lines.increasing).1,
        fun other mem => lines.inside other (mem_append_left _ mem)⟩
    obtain ⟨next, processed, progress'⟩ := progress.step junk front positive small
    obtain ⟨list', rest, final⟩ := ih progress' lines
    refine ⟨list', ?_, final⟩
    rw [NewsgroupList.processLines, processed]
    exact rest

lemma Progress.finish (junk : Junk) (progress : Progress first last read known received list)
    (lines : Lines first last received) (positive : 1 ≤ first) (order : first ≤ last)
    (small : last < 2 ^ 31 - 1) :
    (list.finishXOVERLINE junk 0).Holds
      (read ∪ {number | startNumber first < number ∧ number ∈
        ({number | number ≤ last ∧ number ∉ received} : Set Int)})
      (known ∪ Set.Icc first (received.getLast?.getD (startNumber first))) := by
  obtain ⟨extra, within, holds⟩ := progress.holds
  obtain ⟨started, beneath, -⟩ := startNumber_spec positive
  obtain ⟨reached, below⟩ := lines.processed positive
  rw [← progress.processed] at reached below ⊢
  have upTo : list.lastProcessedNumber ≤ last ∨ received = [] := by
    rcases eq_nil_or_concat received with nothing | ⟨front, number, rfl⟩
    · exact .inr nothing
    · left
      rw [concat_eq_append] at lines progress
      rw [progress.processed, getLast?_concat]
      exact (lines.inside number (mem_append_right _ (mem_singleton_self _))).2
  have marked : Stores
      (if (0 : Int) ≥ 0 ∧ list.lastProcessedNumber < list.lastMsgNumber then
        (MsgKeySet.addRange junk list.set (list.lastProcessedNumber + 1) list.lastMsgNumber).1
      else list.set)
      (read ∪ {number | startNumber first < number ∧ number ∈
        ({number | number ≤ last ∧ number ∉ received} : Set Int)}) := by
    have union : (read ∪ {other | startNumber first < other ∧
        other ≤ list.lastProcessedNumber ∧ other ∉ received}) ∪
          Set.Icc (list.lastProcessedNumber + 1) last =
        read ∪ {other | startNumber first < other ∧ other ∈
          ({other | other ≤ last ∧ other ∉ received} : Set Int)} := by
      apply @union_interval read {other | other ∉ received}
      · intro other above
        change other ≤ last ∧ other ∉ received ↔
          other ≤ list.lastProcessedNumber ∧ other ∉ received ∨
            list.lastProcessedNumber + 1 ≤ other ∧ other ≤ last
        constructor
        · rintro ⟨upper, absent⟩
          by_cases early : other ≤ list.lastProcessedNumber
          · exact .inl ⟨early, absent⟩
          · exact .inr (by omega)
        · rintro (⟨early, absent⟩ | ⟨late, upper⟩)
          · refine ⟨?_, absent⟩
            cases upTo with
            | inl inside => omega
            | inr nothing =>
              have fresh := progress.processed
              rw [nothing] at fresh
              change list.lastProcessedNumber = startNumber first at fresh
              omega
          · refine ⟨upper, ?_⟩
            intro mem
            have earlier := below other mem
            omega
      · rintro other ⟨late, -⟩
        omega
    rw [← union, progress.lastMsg]
    split
    · exact holds.readSet.addRange junk (by omega) small
    · have empty : Set.Icc (list.lastProcessedNumber + 1) last = ∅ := Set.Icc_eq_empty (by omega)
      rw [empty, Set.union_empty]
      exact holds.readSet
  have grown : known ∪ Set.Icc first list.lastProcessedNumber =
      (known ∪ extra) ∪ Set.Icc first list.lastProcessedNumber := by
    have inner : extra ⊆ Set.Icc first list.lastProcessedNumber := by
      intro number mem
      have inLines := within mem
      exact ⟨(lines.inside number inLines).1, below number inLines⟩
    rw [Set.union_assoc, Set.union_eq_self_of_subset_left inner]
  have nonzero : list.lastProcessedNumber ≠ 0 := by omega
  have bounded : list.lastProcessedNumber < 2 ^ 31 - 1 := by
    cases upTo with
    | inl inside => omega
    | inr nothing =>
      have fresh := progress.processed
      rw [nothing] at fresh
      change list.lastProcessedNumber = startNumber first at fresh
      omega
  rw [grown, NewsgroupList.finishXOVERLINE]
  dsimp only
  rw [if_pos nonzero, progress.firstMsg]
  apply NewsgroupList.addToKnownArticles_holds junk _ (by omega) bounded
  exact ⟨marked, holds.knownSet, holds.nothing⟩

end

/-- The read set grows by the articles that no line came for, and the known articles
by all those up to the greatest one that a line came for. -/
structure MarksVanished (before after : NewsgroupList) (first last : Int) (received : List Int) :
    Prop where
  read : after.set.members = before.set.members ∪
    {number | first ≤ number ∧ number ≤ last ∧ number ∉ received}
  known : after.known = before.known ∪
    {number | first ≤ number ∧ ∃ greatest ∈ received, number ≤ greatest}

/-- The article 1 is not forgotten when it is the first one asked for. -/
def FirstAccounted (before : NewsgroupList) (first : Int) (received : List Int) : Prop :=
  first ≠ 1 ∨ 1 ∈ received ∨
    1 ∈ before.set.members ∧ (received ≠ [] ∨ 1 ∈ before.known)

section
variable {first last : Int} {received : List Int}

/-- After article 1 as the first one, the number processed last starts one too high. -/
theorem vanished_eq (positive : 1 ≤ first) (order : first ≤ last) (read : Set Int) :
    read ∪ {number | startNumber first < number ∧ number ∈
        ({number | number ≤ last ∧ number ∉ received} : Set Int)} =
      read ∪ {number | first ≤ number ∧ number ≤ last ∧ number ∉ received} ↔
    first ≠ 1 ∨ 1 ∈ received ∨ 1 ∈ read := by
  have start : startNumber first = if first > 1 then first - 1 else 1 := rfl
  constructor
  · intro same
    by_contra missed
    obtain ⟨isOne, rest⟩ := not_or.mp missed
    obtain ⟨absent, unread⟩ := not_or.mp rest
    have one : first = 1 := not_not.mp isOne
    have mem : (1 : Int) ∈ read ∪ {number | first ≤ number ∧ number ≤ last ∧ number ∉ received} :=
      .inr ⟨by omega, by omega, absent⟩
    rw [← same] at mem
    rcases mem with old | ⟨above, -⟩
    · exact unread old
    · rw [start, one] at above
      exact absurd above (by decide)
  · intro accounted
    ext number
    constructor
    · rintro (old | ⟨above, upper, absent⟩)
      · exact .inl old
      · refine .inr ⟨?_, upper, absent⟩
        split at start <;> omega
    · rintro (old | ⟨lower, upper, absent⟩)
      · exact .inl old
      · by_cases above : startNumber first < number
        · exact .inr ⟨above, upper, absent⟩
        · have isOne : number = 1 ∧ first = 1 := by split at start <;> omega
          rw [isOne.1] at absent ⊢
          rcases accounted with notOne | came | isRead
          · exact absurd isOne.2 notOne
          · exact absurd came absent
          · exact .inl isRead

lemma known_eq (lines : Lines first last received) (positive : 1 ≤ first) (known : Set Int) :
    known ∪ Set.Icc first (received.getLast?.getD (startNumber first)) =
      known ∪ {number | first ≤ number ∧ ∃ greatest ∈ received, number ≤ greatest} ↔
    first ≠ 1 ∨ received ≠ [] ∨ 1 ∈ known := by
  obtain ⟨-, below⟩ := lines.processed positive
  rcases eq_nil_or_concat received with rfl | ⟨front, number, rfl⟩
  · have start : startNumber first = if first > 1 then first - 1 else 1 := rfl
    have nothing : {number : Int | first ≤ number ∧ ∃ greatest ∈ ([] : List Int),
        number ≤ greatest} = ∅ := by simp
    rw [nothing, Set.union_empty]
    change known ∪ Set.Icc first (startNumber first) = known ↔ _
    by_cases one : first = 1
    · rw [start, one]
      change known ∪ Set.Icc 1 1 = known ↔ _
      rw [Set.Icc_self, Set.union_eq_left, Set.singleton_subset_iff]
      simp
    · have empty : Set.Icc first (startNumber first) = ∅ := by
        apply Set.Icc_eq_empty
        split at start <;> omega
      rw [empty, Set.union_empty]
      simp [one]
  · rw [concat_eq_append] at below ⊢
    rw [getLast?_concat, getD_some] at below ⊢
    have same : Set.Icc first number =
        {other | first ≤ other ∧ ∃ greatest ∈ front ++ [number], other ≤ greatest} := by
      ext other
      constructor
      · rintro ⟨lower, upper⟩
        exact ⟨lower, number, mem_append_right _ (mem_singleton_self _), upper⟩
      · rintro ⟨lower, greatest, mem, upper⟩
        exact ⟨lower, Int.le_trans upper (below greatest mem)⟩
    rw [same]
    simp

end

namespace NewsgroupList
variable {list : NewsgroupList} {read known : Set Int}

/-- `InitXOVER` marks what failed to come in last time, and starts a new interval. -/
theorem initXOVER_progress (junk : Junk) (holds : list.Holds read known)
    (nonnegative : 0 ≤ list.lastProcessedNumber) (old : list.lastMsgNumber < 2 ^ 31 - 1)
    (first last : Int) :
    ∃ read', (list.initXOVER junk first last).Holds read' known ∧
      Progress first last read' known [] (list.initXOVER junk first last) := by
  obtain ⟨read', stores⟩ : ∃ read', Stores (list.initXOVER junk first last).set read' := by
    rw [initXOVER]
    dsimp only
    split
    · exact ⟨_, holds.readSet.addRange junk (by omega) old⟩
    · exact ⟨read, holds.readSet⟩
  have holds' : (list.initXOVER junk first last).Holds read' known :=
    ⟨stores, holds.knownSet, holds.nothing⟩
  refine ⟨read', holds', ⟨∅, Set.empty_subset _, ?_⟩, rfl, rfl, rfl⟩
  have nothing : {number | startNumber first < number ∧
      number ≤ (list.initXOVER junk first last).lastProcessedNumber ∧ number ∉ ([] : List Int)} =
      ∅ := by
    ext number
    have same : (list.initXOVER junk first last).lastProcessedNumber = startNumber first := rfl
    simp [same]
  rw [nothing, Set.union_empty, Set.union_empty]
  exact holds'

end NewsgroupList

def NewsgroupList.fresh : NewsgroupList where
  set := MsgKeySet.empty ⟨0, 0, 0⟩
  knownSet := some (MsgKeySet.empty ⟨0, 0, 0⟩)
  firstPossible := 0
  lastPossible := 0
  getOldMessages := false
  promptedAlready := false
  downloadAll := false
  maxArticles := 0
  firstMsgNumber := 0
  lastMsgNumber := 0
  lastProcessedNumber := 0
  firstMsgToDownload := 0
  lastMsgToDownload := 0

lemma NewsgroupList.fresh_holds : NewsgroupList.fresh.Holds ∅ ∅ where
  readSet := Stores.empty ⟨0, 0, 0⟩
  knownSet := by
    intro set mem
    cases mem
    exact Stores.empty ⟨0, 0, 0⟩
  nothing := fun missing => by cases missing

/-- The lines of a download mark exactly the vanished articles as read, and exactly the
articles up to the last line as known, unless article 1 is asked for and does not come:
`InitXOVER` counts it as processed already. -/
theorem download_marksVanished_iff {list : NewsgroupList} {read known : Set Int}
    (holds : list.Holds read known) (nonnegative : 0 ≤ list.lastProcessedNumber)
    (old : list.lastMsgNumber < 2 ^ 31 - 1) {first last : Int} (positive : 1 ≤ first)
    (order : first ≤ last) (small : last < 2 ^ 31 - 1) {received : List (Int × Junk)}
    (lines : Lines first last (received.map Prod.fst)) (junk junk' : Junk) :
    ∃ list', (list.initXOVER junk first last).processLines received = some list' ∧
      (MarksVanished (list.initXOVER junk first last) (list'.finishXOVERLINE junk' 0) first last
          (received.map Prod.fst) ↔
        FirstAccounted (list.initXOVER junk first last) first (received.map Prod.fst)) := by
  obtain ⟨read', before, progress⟩ :=
    NewsgroupList.initXOVER_progress junk holds nonnegative old first last
  obtain ⟨list', processed, progress'⟩ :=
    progress.lines (show Lines first last ([] ++ received.map Prod.fst) from lines) positive small
  rw [nil_append] at progress'
  have after := progress'.finish junk' lines positive order small
  refine ⟨list', processed, ?_⟩
  have readIff := @vanished_eq first last (received.map Prod.fst) positive order read'
  have knownIff := known_eq lines positive known
  have sets : MarksVanished (list.initXOVER junk first last) (list'.finishXOVERLINE junk' 0) first
      last (received.map Prod.fst) ↔
      (first ≠ 1 ∨ 1 ∈ received.map Prod.fst ∨ 1 ∈ read') ∧
        (first ≠ 1 ∨ received.map Prod.fst ≠ [] ∨ 1 ∈ known) := by
    rw [← readIff, ← knownIff, ← after.known_eq, ← after.readSet.members_eq]
    constructor
    · rintro ⟨marked, learned⟩
      rw [before.readSet.members_eq] at marked
      rw [before.known_eq] at learned
      exact ⟨marked, learned⟩
    · rintro ⟨marked, learned⟩
      refine ⟨?_, ?_⟩
      · rw [before.readSet.members_eq]
        exact marked
      · rw [before.known_eq]
        exact learned
  rw [sets, FirstAccounted, before.readSet.members_eq, before.known_eq]
  have nonempty : 1 ∈ received.map Prod.fst → received.map Prod.fst ≠ [] := by
    intro mem nothing
    rw [nothing] at mem
    exact absurd mem not_mem_nil
  constructor
  · rintro ⟨readCase, knownCase⟩
    rcases readCase with notOne | came | isRead
    · exact .inl notOne
    · exact .inr (.inl came)
    · rcases knownCase with notOne | rest
      · exact .inl notOne
      · exact .inr (.inr ⟨isRead, rest⟩)
  · rintro (notOne | came | ⟨isRead, rest⟩)
    · exact ⟨.inl notOne, .inl notOne⟩
    · exact ⟨.inr (.inl came), .inr (.inl (nonempty came))⟩
    · exact ⟨.inr (.inr isRead), .inr rest⟩

/-- Of the articles 1 to 3 only the last one comes: article 2 is read, article 1 is not. -/
theorem firstArticle_forgotten :
    ¬ ∀ (list : NewsgroupList) (read known : Set Int), list.Holds read known →
      0 ≤ list.lastProcessedNumber → list.lastMsgNumber < 2 ^ 31 - 1 →
      ∀ (first last : Int), 1 ≤ first → first ≤ last → last < 2 ^ 31 - 1 →
      ∀ (received : List (Int × Junk)), Lines first last (received.map Prod.fst) →
      ∀ (junk junk' : Junk) (list' : NewsgroupList),
        (list.initXOVER junk first last).processLines received = some list' →
        MarksVanished (list.initXOVER junk first last) (list'.finishXOVERLINE junk' 0) first last
          (received.map Prod.fst) := by
  intro claim
  have lines : Lines 1 3 ([((3 : Int), (⟨0, 0, 0⟩ : Junk))].map Prod.fst) :=
    ⟨pairwise_singleton _ _, by simp⟩
  obtain ⟨list', processed, ranges⟩ : ∃ list',
      (NewsgroupList.fresh.initXOVER ⟨0, 0, 0⟩ 1 3).processLines [(3, ⟨0, 0, 0⟩)] = some list' ∧
        (list'.finishXOVERLINE ⟨0, 0, 0⟩ 0).set.ranges = [(2, 2)] :=
    ⟨_, rfl, by decide⟩
  have marked := (claim _ ∅ ∅ NewsgroupList.fresh_holds (by decide) (by decide) 1 3 (by decide)
    (by decide) (by decide) _ lines ⟨0, 0, 0⟩ ⟨0, 0, 0⟩ list' processed).read
  have mem : (1 : Int) ∈ (list'.finishXOVERLINE ⟨0, 0, 0⟩ 0).set.members := by
    rw [marked]
    exact .inr (by simp)
  obtain ⟨range, inRanges, lower, upper⟩ := mem
  rw [ranges, mem_singleton] at inRanges
  rw [inRanges] at lower
  exact absurd lower (by decide)

theorem download_marksVanished_fromFive :
    ∃ list', (NewsgroupList.fresh.initXOVER ⟨0, 0, 0⟩ 5 7).processLines [(6, ⟨0, 0, 0⟩)] = some list' ∧
      (MarksVanished (NewsgroupList.fresh.initXOVER ⟨0, 0, 0⟩ 5 7)
          (list'.finishXOVERLINE ⟨0, 0, 0⟩ 0) 5 7 ([((6 : Int), (⟨0, 0, 0⟩ : Junk))].map Prod.fst) ↔
        FirstAccounted (NewsgroupList.fresh.initXOVER ⟨0, 0, 0⟩ 5 7) 5
          ([((6 : Int), (⟨0, 0, 0⟩ : Junk))].map Prod.fst)) :=
  download_marksVanished_iff NewsgroupList.fresh_holds (by decide) (by decide) (by decide) (by decide)
    (by decide) ⟨pairwise_singleton _ _, by simp⟩ ⟨0, 0, 0⟩ ⟨0, 0, 0⟩

end CommCentral.News
