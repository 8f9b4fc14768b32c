import CommCentral.News.XoverLines

/-! `GetRangeOfArtsToDownload` cuts the last missing range by a limit. The limit that is
tested is not always the limit that cuts. -/
namespace CommCentral.News
open Base

/-- The range is empty or consists of unknown articles, and what becomes read is in the
same unknown range, below it. -/
structure StaysUnknown (before : Set Int) (after : NewsgroupList) (known : Set Int)
    (firstPossible lastPossible first last : Int) : Prop where
  range : first = 0 ∧ last = 0 ∨ firstPossible ≤ first ∧ first ≤ last ∧ last ≤ lastPossible ∧
    ∀ number, first ≤ number → number ≤ last → number ∉ known
  read : ∀ number ∈ after.set.members, number ∉ before →
    number < first ∧ firstPossible ≤ number ∧
      ∀ other, number ≤ other → other ≤ last → other ∉ known

/-- Where the dialog comes up and its limit cuts the range, the limit is within the range;
where a limit is remembered, it is also positive. -/
def LimitFits (list : NewsgroupList) (answers : DownloadAnswers) (size : Int) : Prop :=
  if !list.getOldMessages && !list.promptedAlready && answers.notifyOn.getD true then
    (answers.window && answers.hitOK && !answers.downloadAll) = true → answers.maxArticles ≤ size
  else (list.promptedAlready && !list.downloadAll) = true →
    1 ≤ list.maxArticles ∧ list.maxArticles ≤ size

/-- The number of articles from which on a range is cut. -/
def testedLimit (list : NewsgroupList) (answers : DownloadAnswers) (maxextra : Int) : Int :=
  if !list.getOldMessages && !answers.notifyOn.getD true then 0x7FFFFFFF else maxextra

section
variable {known before : Set Int} {firstPossible lastPossible first last : Int}

section

variable (gap : LastGap known firstPossible lastPossible first last) {start : Int}
include gap

lemma stays_in_gap (lower : first ≤ start) (upper : start ≤ last)
    (read : ∀ number ∈ list.set.members, number ∈ before ∨ first ≤ number ∧ number < start) :
    StaysUnknown before list known firstPossible lastPossible start last := by
  have inside := gap.lower
  constructor
  · exact .inr ⟨by omega, upper, gap.upper, fun number after =>
      gap.missing number (by omega)⟩
  · intro number mem fresh
    rcases read number mem with old | ⟨after, below⟩
    · exact absurd old fresh
    · exact ⟨below, by omega, fun other later => gap.missing other (by omega)⟩

lemma strays_from_gap (outside : start < first ∨ last < start) (positive : 1 ≤ firstPossible) :
    ¬ StaysUnknown before list known firstPossible lastPossible start last := by
  intro stays
  have lower := gap.lower
  have order := gap.order
  rcases stays.range with ⟨-, zero⟩ | ⟨above, within, -, unknown⟩
  · omega
  · rcases outside with early | late
    · rcases gap.left with atMin | held
      · omega
      · exact unknown (first - 1) (by omega) (by omega) held
    · omega

end

end

namespace NewsgroupList

variable {known before : Set Int} {firstPossible lastPossible first last maxextra : Int}
variable {list : NewsgroupList} {answers : DownloadAnswers}

section

variable (junk : Junk) (gap : LastGap known firstPossible lastPossible first last)
  (positive : 1 ≤ firstPossible) (small : lastPossible < 2 ^ 31) (chosen : 0 < answers.maxArticles)
include junk gap positive small chosen

/-- The dialog: its limit cuts the gap, or it has no effect. -/
theorem askForArticles_stays_iff
    (stores : ∃ numbers, numbers ⊆ before ∧ Stores { list.set with cachedValue := -1 } numbers) :
    StaysUnknown before (list.askForArticles junk answers first last).1 known firstPossible
        lastPossible (list.askForArticles junk answers first last).2.1
        (list.askForArticles junk answers first last).2.2 ↔
      ((answers.window && answers.hitOK && !answers.downloadAll) = true →
        answers.maxArticles ≤ last - first + 1) := by
  obtain ⟨numbers, within, stores⟩ := stores
  have lower := gap.lower
  have upper := gap.upper
  have order := gap.order
  have unchanged : list.set.members = numbers := stores.members_eq
  unfold askForArticles
  by_cases accepted : (answers.window && answers.hitOK) = true
  · rw [if_pos accepted]
    by_cases all : (!answers.downloadAll) = true
    · rw [if_pos all]
      have asked : (answers.window && answers.hitOK && !answers.downloadAll) = true := by
        rw [accepted, all]
        rfl
      dsimp only
      constructor
      · intro stays _
        by_contra large
        exact strays_from_gap gap (.inl (by omega)) positive stays
      · intro fits
        have limit := fits asked
        apply stays_in_gap gap (by omega) (by omega)
        intro number mem
        dsimp only at mem
        split at mem
        · have added := stores.addRange junk (show 0 ≤ first by omega)
            (show last - answers.maxArticles < 2 ^ 31 - 1 by omega)
          have same : (MsgKeySet.addRange junk list.set first (last - answers.maxArticles)).1.members =
              numbers ∪ Set.Icc first (last - answers.maxArticles) := added.members_eq
          rw [same] at mem
          rcases mem with old | ⟨after, below⟩
          · exact .inl (within old)
          · exact .inr ⟨after, by omega⟩
        · rw [unchanged] at mem
          exact .inl (within mem)
    · rw [if_neg all]
      constructor
      · intro _ asked
        rw [Bool.and_eq_true] at asked
        exact absurd asked.2 all
      · intro _
        apply stays_in_gap gap (Int.le_refl _) order
        intro number mem
        change number ∈ list.set.members at mem
        rw [unchanged] at mem
        exact .inl (within mem)
  · rw [if_neg accepted]
    constructor
    · intro _ asked
      rw [Bool.and_eq_true] at asked
      exact absurd asked.1 accepted
    · intro _
      refine ⟨.inl ⟨rfl, rfl⟩, ?_⟩
      intro number mem fresh
      change number ∈ list.set.members at mem
      rw [unchanged] at mem
      exact absurd (within mem) fresh

lemma limitRange_stays_iff (some : 0 < maxextra)
    (stores : ∃ numbers, numbers ⊆ before ∧ Stores { list.set with cachedValue := -1 } numbers) :
    StaysUnknown before (list.limitRange junk answers maxextra first last).1 known firstPossible
        lastPossible (list.limitRange junk answers maxextra first last).2.1
        (list.limitRange junk answers maxextra first last).2.2 ↔
      (maxextra ≤ last - first → LimitFits list answers (last - first + 1)) := by
  have lower := gap.lower
  have order := gap.order
  obtain ⟨numbers, within, stored⟩ := id stores
  have unchanged : list.set.members = numbers := stored.members_eq
  have stays : ∀ start, first ≤ start → start ≤ last →
      StaysUnknown before list known firstPossible lastPossible start last := by
    intro start above below
    apply stays_in_gap gap above below
    intro number mem
    rw [unchanged] at mem
    exact .inl (within mem)
  unfold limitRange LimitFits
  by_cases large : first > 0 ∧ last - first ≥ maxextra
  · rw [if_pos large]
    have tested : maxextra ≤ last - first := large.2
    split
    · rw [askForArticles_stays_iff junk gap positive small chosen stores]
      exact ⟨fun fits _ => fits, fun fits => fits tested⟩
    · split
      · rename_i remembered
        constructor
        · intro stayed _ _
          change StaysUnknown before list known firstPossible lastPossible
            (last - list.maxArticles + 1) last at stayed
          constructor
          · by_contra low
            exact strays_from_gap gap (.inr (by omega)) positive stayed
          · by_contra high
            exact strays_from_gap gap (.inl (by omega)) positive stayed
        · intro fits
          obtain ⟨low, high⟩ := fits tested remembered
          exact stays (last - list.maxArticles + 1) (by omega) (by omega)
      · rename_i notRemembered
        refine ⟨fun _ _ remembered => absurd remembered notRemembered, fun _ => ?_⟩
        split
        · exact stays (last - maxextra + 1) (by omega) (by omega)
        · exact stays first (Int.le_refl _) order
  · rw [if_neg large]
    refine ⟨fun _ tested => absurd ⟨by omega, tested⟩ large, fun _ => ?_⟩
    exact stays first (Int.le_refl _) order

end

lemma setLastMember_stores (junk : Junk) {set : MsgKeySet} {read : Set Int}
    (stores : Stores set read) (last : Int) :
    ∃ numbers, numbers ⊆ set.members ∧
      Stores { MsgKeySet.setLastMember junk set last with cachedValue := -1 } numbers := by
  obtain ⟨chunks, represents⟩ := stores
  obtain ⟨others, layout, size, -, -, trims⟩ :=
    MsgKeySet.setLastMember_trims junk represents.layout last
  refine ⟨{number | Base.Holds others number}, ?_, others, layout,
    trims.ascending represents.ascending, Bounded.of_holds represents.bounded trims.holds,
    fun _ => Iff.rfl, ?_, ?_⟩
  · intro number held
    rw [MsgKeySet.mem_members represents.layout]
    exact trims.holds number held
  · change 0 < (MsgKeySet.setLastMember junk set last).data.size
    have room := represents.room
    rw [← size] at room
    exact room
  · intro positive
    change (0 : Int) < -1 at positive
    exact absurd positive (by decide)

end NewsgroupList

/-- The range that `GetRangeOfArtsToDownload` returns consists of unknown articles exactly
when each limit that cuts the last gap is within the gap. -/
theorem getRangeOfArtsToDownload_staysUnknown_iff (junk : Junk) {list : NewsgroupList}
    {read known : Set Int} (stores : Stores list.set read) {knownSet : MsgKeySet}
    {chunks : List Chunk} (represents : MsgKeySet.RepresentsBelow (2 ^ 31) knownSet chunks known)
    {answers : DownloadAnswers} {firstPossible lastPossible maxextra : Int}
    (positive : 1 ≤ firstPossible) (order : firstPossible ≤ lastPossible)
    (small : lastPossible < 2 ^ 31) (some : 0 < maxextra) (chosen : 0 < answers.maxArticles) :
    StaysUnknown list.set.members
        (list.getRangeOfArtsToDownload junk knownSet answers firstPossible lastPossible maxextra).1
        known firstPossible lastPossible
        (list.getRangeOfArtsToDownload junk knownSet answers firstPossible lastPossible
          maxextra).2.1.1
        (list.getRangeOfArtsToDownload junk knownSet answers firstPossible lastPossible
          maxextra).2.1.2 ↔
      ∀ first last, LastGap known firstPossible lastPossible first last →
        list.getOldMessages = true ∨ lastPossible ∉ known →
        testedLimit list answers maxextra ≤ last - first →
        LimitFits list answers (last - first + 1) := by
  have lowered := NewsgroupList.setLastMember_stores junk stores lastPossible
  obtain ⟨answer, represents'⟩ := MsgKeySet.isMember_spec junk represents lastPossible
  have keeps : ∀ (after : NewsgroupList),
      after.set = MsgKeySet.setLastMember junk list.set lastPossible →
      StaysUnknown list.set.members after known firstPossible lastPossible 0 0 := by
    intro after same
    obtain ⟨numbers, within, stored⟩ := lowered
    have members : after.set.members = numbers := by
      rw [same]
      exact stored.members_eq
    refine ⟨.inl ⟨rfl, rfl⟩, ?_⟩
    intro number mem fresh
    rw [members] at mem
    exact absurd (within mem) fresh
  unfold NewsgroupList.getRangeOfArtsToDownload
  generalize MsgKeySet.isMember junk knownSet lastPossible = called at answer represents'
  obtain ⟨knownSet', isKnown⟩ := called
  dsimp only at answer represents' ⊢
  rw [if_neg (by omega)]
  by_cases looks : (list.getOldMessages || !isKnown) = true
  · obtain ⟨found, searched, foundLast⟩ :=
      MsgKeySet.lastMissingRange_spec junk represents' (by decide) positive order small
    rw [if_pos looks, searched]
    dsimp only
    rw [if_neg (by decide)]
    have tested : 0 < testedLimit list answers maxextra := by
      unfold testedLimit
      split
      · decide
      · exact some
    rcases foundLast with ⟨nothing, allKnown⟩ | gap
    · rw [nothing]
      constructor
      · intro _ first last gap
        exact absurd (allKnown first gap.lower (Int.le_trans gap.order gap.upper))
          (gap.missing first (Int.le_refl _) gap.order)
      · intro _
        exact keeps _ rfl
    · have cut := @NewsgroupList.limitRange_stays_iff known list.set.members firstPossible
        lastPossible found.1 found.2 (testedLimit list answers maxextra)
        { list with
          set := MsgKeySet.setLastMember junk list.set lastPossible
          knownSet := Option.some knownSet'
          firstPossible, lastPossible } answers junk gap positive small chosen tested lowered
      have old : list.getOldMessages = true ∨ lastPossible ∉ known := by
        rw [Bool.or_eq_true] at looks
        cases looks with
        | inl isOld => exact .inl isOld
        | inr new =>
          right
          intro mem
          rw [answer.mpr mem] at new
          exact absurd new (by decide)
      have whole : (∀ first last, LastGap known firstPossible lastPossible first last →
          list.getOldMessages = true ∨ lastPossible ∉ known →
          testedLimit list answers maxextra ≤ last - first →
          LimitFits list answers (last - first + 1)) ↔
          (testedLimit list answers maxextra ≤ found.2 - found.1 →
            LimitFits list answers (found.2 - found.1 + 1)) := by
        constructor
        · intro fits
          exact fits found.1 found.2 gap old
        · intro fits first last gap' _
          obtain ⟨sameFirst, sameLast⟩ := gap'.unique gap
          rw [sameFirst, sameLast]
          exact fits
      rw [whole]
      constructor
      · rintro ⟨range, reads⟩
        exact cut.mp ⟨range, reads⟩
      · intro fits
        obtain ⟨range, reads⟩ := cut.mpr fits
        exact ⟨range, reads⟩
  · rw [if_neg looks]
    have settled : ¬ (list.getOldMessages = true ∨ lastPossible ∉ known) := by
      rw [Bool.or_eq_true, not_or] at looks
      obtain ⟨notOld, isMember⟩ := looks
      rintro (isOld | absent)
      · exact notOld isOld
      · apply absent
        apply answer.mp
        simpa using isMember
    constructor
    · intro _ first last _ asks
      exact absurd asks settled
    · intro _
      exact keeps _ rfl

/-- The user asks for 20 of 10 articles. -/
def twentyArticles : DownloadAnswers where
  notifyOn := some true
  window := true
  hitOK := true
  downloadAll := false
  maxArticles := 20
  markOldRead := some false

/-- Then the range is from -9 to 10. -/
theorem range_below_first :
    ¬ ∀ (junk : Junk) (list : NewsgroupList) (read known : Set Int), Stores list.set read →
      ∀ (knownSet : MsgKeySet) (chunks : List Chunk),
      MsgKeySet.RepresentsBelow (2 ^ 31) knownSet chunks known →
      ∀ (answers : DownloadAnswers) (firstPossible lastPossible maxextra : Int),
      1 ≤ firstPossible → firstPossible ≤ lastPossible → lastPossible < 2 ^ 31 → 0 < maxextra →
      0 < answers.maxArticles →
      StaysUnknown list.set.members
        (list.getRangeOfArtsToDownload junk knownSet answers firstPossible lastPossible maxextra).1
        known firstPossible lastPossible
        (list.getRangeOfArtsToDownload junk knownSet answers firstPossible lastPossible
          maxextra).2.1.1
        (list.getRangeOfArtsToDownload junk knownSet answers firstPossible lastPossible
          maxextra).2.1.2 := by
  intro claim
  have stays := claim ⟨0, 0, 0⟩ NewsgroupList.fresh ∅ ∅ (Stores.empty ⟨0, 0, 0⟩)
    (MsgKeySet.empty ⟨0, 0, 0⟩) [] (MsgKeySet.empty_represents ⟨0, 0, 0⟩) twentyArticles 1 10 5
    (by decide) (by decide) (by decide) (by decide) (by decide)
  have range : (NewsgroupList.fresh.getRangeOfArtsToDownload ⟨0, 0, 0⟩
      (MsgKeySet.empty ⟨0, 0, 0⟩) twentyArticles 1 10 5).2.1 = (-9, 10) := by decide
  rw [range] at stays
  rcases stays.range with ⟨zero, -⟩ | ⟨lower, -⟩
  · exact absurd zero (by decide)
  · exact absurd lower (by decide)

theorem getRangeOfArtsToDownload_staysUnknown_iff_fresh :
    StaysUnknown NewsgroupList.fresh.set.members
        (NewsgroupList.fresh.getRangeOfArtsToDownload ⟨0, 0, 0⟩ (MsgKeySet.empty ⟨0, 0, 0⟩)
          twentyArticles 1 100 5).1 ∅ 1 100
        (NewsgroupList.fresh.getRangeOfArtsToDownload ⟨0, 0, 0⟩ (MsgKeySet.empty ⟨0, 0, 0⟩)
          twentyArticles 1 100 5).2.1.1
        (NewsgroupList.fresh.getRangeOfArtsToDownload ⟨0, 0, 0⟩ (MsgKeySet.empty ⟨0, 0, 0⟩)
          twentyArticles 1 100 5).2.1.2 ↔
      ∀ first last, LastGap ∅ 1 100 first last →
        NewsgroupList.fresh.getOldMessages = true ∨ (100 : Int) ∉ (∅ : Set Int) →
        testedLimit NewsgroupList.fresh twentyArticles 5 ≤ last - first →
        LimitFits NewsgroupList.fresh twentyArticles (last - first + 1) :=
  getRangeOfArtsToDownload_staysUnknown_iff ⟨0, 0, 0⟩ (Stores.empty ⟨0, 0, 0⟩)
    (MsgKeySet.empty_represents ⟨0, 0, 0⟩) (by decide) (by decide) (by decide) (by decide) (by decide)

end CommCentral.News
