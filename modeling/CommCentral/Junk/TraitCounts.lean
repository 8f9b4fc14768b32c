import Mathlib.Data.Finset.Card
import CommCentral.Junk.CorpusStore

/-! The linked lists of the corpus store represent one count for each word and trait. -/
namespace CommCentral.Junk

open Lib List Function

/-- The places of the traits of a token in the store, in the order of their links. -/
abbrev TraitChain := List (Nat × TraitPerToken)

def countIn : TraitChain → (traitId : Nat) → Nat
  | [], _ => 0
  | first :: rest, traitId => if first.2.id = traitId then first.2.count else countIn rest traitId

section

variable {chain before after : TraitChain}
variable {entry replaced : TraitPerToken}

lemma countIn_missing (missing : ∀ mem ∈ chain, mem.2.id ≠ traitId) :
    countIn chain traitId = 0 := by
  induction chain with
  | nil => rfl
  | cons first rest ih =>
    rw [countIn, if_neg (missing first mem_cons_self)]
    exact ih fun mem inRest => missing mem (mem_cons_of_mem _ inRest)

lemma countIn_append (missing : ∀ mem ∈ before, mem.2.id ≠ traitId) :
    countIn (before ++ after) traitId = countIn after traitId := by
  induction before with
  | nil => rfl
  | cons first rest ih =>
    rw [cons_append, countIn, if_neg (missing first mem_cons_self)]
    exact ih fun mem inRest => missing mem (mem_cons_of_mem _ inRest)

lemma countIn_replace (sameId : replaced.id = entry.id)
    (missing : ∀ mem ∈ before, mem.2.id ≠ entry.id) :
    countIn (before ++ (place, replaced) :: after) other =
      if other = entry.id then replaced.count
      else countIn (before ++ (place, entry) :: after) other := by
  split
  · rename_i same
    rw [same, countIn_append missing, countIn, if_pos sameId]
  · rename_i different
    clear missing
    induction before with
    | nil =>
      rw [nil_append, nil_append, countIn, countIn, if_neg, if_neg]
      · exact Ne.symm different
      · exact fun same => different (same.symm.trans sameId)
    | cons first rest ih => rw [cons_append, cons_append, countIn, countIn, ih]

lemma countIn_concat (missing : ∀ mem ∈ chain, mem.2.id ≠ entry.id) :
    countIn (chain ++ [(place, entry)]) other =
      if other = entry.id then entry.count else countIn chain other := by
  split
  · rename_i same
    rw [same, countIn_append missing, countIn, if_pos rfl]
  · rename_i different
    clear missing
    induction chain with
    | nil => exact if_neg (Ne.symm different)
    | cons first rest ih => rw [cons_append, countIn, countIn, ih]

lemma countIn_congr (same : chain.map (fun mem => (mem.2.id, mem.2.count)) = others.map fun mem =>
      (mem.2.id, mem.2.count)) : countIn chain other = countIn others other := by
  induction chain generalizing others with
  | nil => rw [map_eq_nil_iff.mp same.symm]
  | cons first rest ih =>
    obtain ⟨second, more, rfl, both, rests⟩ := map_eq_cons_iff.mp same.symm
    obtain ⟨ids, counts⟩ := Prod.mk.inj both
    rw [countIn, countIn, ih rests.symm, ← ids, ← counts]

end

lemma findTrait_spec {chain : TraitChain} (traitId lastLink : Nat)
    (linked : Chain TraitPerToken.nextLink traitStore nextLink chain)
    (enough : chain.length < links) :
    (∃ before place entry after, chain = before ++ (place, entry) :: after ∧ entry.id = traitId ∧
      (∀ mem ∈ before, mem.2.id ≠ traitId) ∧
      findTrait traitStore traitId links nextLink lastLink = some (.found place entry)) ∨
    (∀ mem ∈ chain, mem.2.id ≠ traitId) ∧
      findTrait traitStore traitId links nextLink lastLink =
        some (.missing ((chain.getLast?.map Prod.fst).getD lastLink)) := by
  induction chain generalizing links nextLink lastLink with
  | nil =>
    obtain ⟨links, rfl⟩ := Nat.exists_eq_add_of_lt enough
    refine .inr ⟨fun mem inNil => absurd inNil not_mem_nil, ?_⟩
    have ended : nextLink = 0 := linked
    rw [findTrait, if_pos ended]
    rfl
  | cons first rest ih =>
    obtain ⟨start, nonzero, found, others⟩ := linked
    obtain ⟨links, rfl⟩ : ∃ more, links = more + 1 := ⟨links - 1, by omega⟩
    rw [length_cons] at enough
    rw [findTrait, if_neg (start ▸ nonzero), start, found, Option.bind_some]
    by_cases isTrait : first.2.id = traitId
    · refine .inl ⟨[], first.1, first.2, rest, rfl, isTrait, ?_, if_pos isTrait⟩
      exact fun mem inNil => absurd inNil not_mem_nil
    · rw [if_neg isTrait]
      rcases ih first.1 others (Nat.lt_of_succ_lt_succ enough) with ⟨before, place, entry, after, rfl, same, missing, finds⟩ |
        ⟨missing, finds⟩
      · refine .inl ⟨first :: before, place, entry, after, rfl, same, ?_, finds⟩
        intro mem inBefore
        rcases mem_cons.mp inBefore with rfl | inRest
        · exact isTrait
        · exact missing mem inRest
      · refine .inr ⟨?_, ?_⟩
        · intro mem inChain
          rcases mem_cons.mp inChain with rfl | inRest
          · exact isTrait
          · exact missing mem inRest
        · rw [finds]
          cases rest with
          | nil => rfl
          | cons second more =>
            rw [getLast?_cons_cons]
            rw [getLast?_eq_some_getLast (cons_ne_nil second more)]
            rfl

/-- The loop ends with the first entry of the trait, wherever the chain ends. -/
theorem findTrait_found {before after : TraitChain} {entry : TraitPerToken} (lastLink : Nat)
    (linked : Chain TraitPerToken.nextLink traitStore nextLink (before ++ (place, entry) :: after))
    (missing : ∀ mem ∈ before, mem.2.id ≠ entry.id) (enough : before.length < links) :
    findTrait traitStore entry.id links nextLink lastLink = some (.found place entry) := by
  induction before generalizing links nextLink lastLink with
  | nil =>
    obtain ⟨start, nonzero, found, _⟩ := linked
    obtain ⟨links, rfl⟩ := Nat.exists_eq_add_of_lt enough
    rw [findTrait, if_neg (start ▸ nonzero), start, found, Option.bind_some, if_pos rfl]
  | cons first rest ih =>
    obtain ⟨start, nonzero, found, others⟩ := linked
    obtain ⟨links, rfl⟩ : ∃ more, links = more + 1 := ⟨links - 1, by omega⟩
    rw [length_cons] at enough
    rw [findTrait, if_neg (start ▸ nonzero), start, found, Option.bind_some,
      if_neg (missing first mem_cons_self)]
    exact ih first.1 others
      (fun mem inRest => missing mem (mem_cons_of_mem _ inRest))
      (Nat.lt_of_succ_lt_succ enough)

/-- The loop over a chain without the trait that is just as long as it may be. -/
theorem findTrait_full {chain : TraitChain} (traitId lastLink : Nat)
    (linked : Chain TraitPerToken.nextLink traitStore nextLink chain) (full : chain.length = links)
    (missing : ∀ mem ∈ chain, mem.2.id ≠ traitId) :
    findTrait traitStore traitId links nextLink lastLink = some .tooMany := by
  induction chain generalizing links nextLink lastLink with
  | nil =>
    rw [← full]
    rfl
  | cons first rest ih =>
    obtain ⟨start, nonzero, found, others⟩ := linked
    rw [← full, length_cons, findTrait, if_neg (start ▸ nonzero), start, found,
      Option.bind_some, if_neg (missing first mem_cons_self)]
    exact ih first.1 others rfl fun mem inRest => missing mem (mem_cons_of_mem _ inRest)

/-- The link of the token of a word, or 0 without one. -/
def CorpusStore.linkOf (store : CorpusStore) (word : Word) : Nat := (store.traitLink word).getD 0

/-- The links of the store are those of one chain for each word. No two of them meet, and none
has a trait twice. -/
structure Represents (traits : Finset Nat) (store : CorpusStore) (chain : Word → TraitChain) :
    Prop where
  full : store.traitStore.length = store.nextTraitIndex
  started : store.traitStore ≠ []
  linked : ∀ word, Chain TraitPerToken.nextLink store.traitStore (store.linkOf word) (chain word)
  apart : ∀ word other, ∀ first ∈ chain word, ∀ second ∈ chain other,
    first.1 = second.1 → word = other
  once : ∀ word, ((chain word).map Prod.fst).Nodup
  ids : ∀ word, ((chain word).map (·.2.id)).Nodup
  known : ∀ word, ∀ member ∈ chain word, member.2.id ∈ traits

lemma represents_new (traits : Finset Nat) : Represents traits {} fun _ => [] := by
  refine ⟨rfl, cons_ne_nil _ _, fun _ => rfl, ?_, fun _ => nodup_nil,
    fun _ => nodup_nil, ?_⟩
  · intro word other first mem
    cases mem
  · intro word mem inNil
    cases inNil

section

variable {store : CorpusStore} {chain : Word → TraitChain} {word : Word}

section

variable (represents : Represents traits store chain)
include represents

lemma Represents.length_le (word : Word) : (chain word).length ≤ traits.card := by
  have distinct := toFinset_card_of_nodup (represents.ids word)
  rw [length_map] at distinct
  rw [← distinct]
  apply Finset.card_le_card
  intro traitId mem
  obtain ⟨entry, inChain, rfl⟩ := mem_map.mp (mem_toFinset.mp mem)
  exact represents.known word entry inChain

lemma Represents.getTraitCount (short : (chain word).length ≤ maxLinks) (trait : Nat) :
    store.getTraitCount word trait = some (countIn (chain word) trait) := by
  have linked := represents.linked word
  rw [CorpusStore.getTraitCount]
  cases token : store.traitLink word with
  | none =>
    rw [CorpusStore.linkOf, token] at linked
    rw [linked.eq_nil]
    rfl
  | some traitLink =>
    rw [CorpusStore.linkOf, token, Option.getD_some] at linked
    dsimp only
    by_cases isEnd : traitLink = 0
    · rw [isEnd] at linked
      rw [if_pos isEnd, linked.eq_nil]
      rfl
    · rw [if_neg isEnd]
      cases search : (chain word).find? (fun mem => mem.2.id == trait) with
      | some mem =>
        obtain ⟨isTrait, before, after, split, others⟩ := find?_eq_some_iff_append.mp search
        have same : mem.2.id = trait := by simpa using isTrait
        have missing : ∀ earlier ∈ before, earlier.2.id ≠ mem.2.id := by
          intro earlier inBefore
          rw [same]
          simpa using others earlier inBefore
        have shorter := congrArg List.length split
        rw [length_append, length_cons] at shorter
        rw [split] at linked
        rw [split, ← same, findTrait_found 0 linked missing (by omega), countIn_append missing,
          countIn, if_pos rfl]
        rfl
      | none =>
        have missing : ∀ mem ∈ chain word, mem.2.id ≠ trait := by
          intro mem inChain
          simpa using find?_eq_none.mp search mem inChain
        rw [countIn_missing missing]
        rcases Nat.lt_or_eq_of_le short with enough | full
        · rcases findTrait_spec trait 0 linked enough with
            ⟨before, place, entry, after, split, isTrait, _, _⟩ | ⟨_, finds⟩
          · exact absurd isTrait (missing (place, entry) (by rw [split]; simp))
          · rw [finds]
            rfl
        · rw [findTrait_full trait 0 linked full missing]
          rfl

lemma Represents.place_lt (inChain : mem ∈ chain word) : mem.1 < store.traitStore.length :=
  (represents.linked word).lt_length inChain

lemma Represents.change (full : store'.traitStore.length = store'.nextTraitIndex)
    (started : store'.traitStore ≠ [])
    (linked : Chain TraitPerToken.nextLink store'.traitStore (store'.linkOf word) changed) (others :
      ∀ other, other ≠ word → store'.linkOf other = store.linkOf other ∧ ∀ mem ∈ chain other,
      store'.traitStore[mem.1]? = store.traitStore[mem.1]?)
    (places : ∀ mem ∈ changed, mem.1 ∈ (chain word).map Prod.fst ∨ store.traitStore.length ≤ mem.1)
    (once : (changed.map Prod.fst).Nodup) (ids : (changed.map (·.2.id)).Nodup)
    (known : ∀ mem ∈ changed, mem.2.id ∈ traits) :
    Represents traits store' (Function.update chain word changed) := by
  have away : ∀ other, other ≠ word → ∀ first ∈ changed, ∀ second ∈ chain other,
      first.1 ≠ second.1 := by
    intro other different first inChanged second inOther same
    rcases places first inChanged with old | new
    · obtain ⟨mem, inChain, place⟩ := mem_map.mp old
      exact different (represents.apart other word second inOther mem inChain
        (same.symm.trans place.symm))
    · have within := represents.place_lt inOther
      omega
  refine ⟨full, started, ?_, ?_, ?_, ?_, ?_⟩
  · intro other
    by_cases same : other = word
    · rw [same, update_self]
      exact linked
    · rw [update_of_ne same, (others other same).1]
      exact (represents.linked other).frame (others other same).2
  · intro left right first inLeft second inRight meet
    by_cases sameLeft : left = word
    · by_cases sameRight : right = word
      · exact sameLeft.trans sameRight.symm
      · rw [sameLeft, update_self] at inLeft
        rw [update_of_ne sameRight] at inRight
        exact absurd meet (away right sameRight first inLeft second inRight)
    · rw [update_of_ne sameLeft] at inLeft
      by_cases sameRight : right = word
      · rw [sameRight, update_self] at inRight
        exact absurd meet.symm (away left sameLeft second inRight first inLeft)
      · rw [update_of_ne sameRight] at inRight
        exact represents.apart left right first inLeft second inRight meet
  · intro other
    by_cases same : other = word
    · rw [same, update_self]
      exact once
    · rw [update_of_ne same]
      exact represents.once other
  · intro other
    by_cases same : other = word
    · rw [same, update_self]
      exact ids
    · rw [update_of_ne same]
      exact represents.ids other
  · intro other
    by_cases same : other = word
    · rw [same, update_self]
      exact known
    · rw [update_of_ne same]
      exact represents.known other

lemma Represents.setTrait {before after : TraitChain} {entry : TraitPerToken} (count : Nat)
    (split : chain word = before ++ (place, entry) :: after) :
    Represents traits (store.setTrait place { entry with count := count })
      (Function.update chain word (before ++ (place, { entry with count := count }) :: after)) := by
  have inChain : (place, entry) ∈ chain word := by
    rw [split]
    exact mem_append_right _ mem_cons_self
  have places : (before ++ (place, { entry with count := count }) :: after).map Prod.fst =
      (chain word).map Prod.fst := by
    rw [split, map_append, map_append]
    rfl
  have sameIds : (before ++ (place, { entry with count := count }) :: after).map (·.2.id) =
      (chain word).map (·.2.id) := by
    rw [split, map_append, map_append]
    rfl
  have length : (store.setTrait place { entry with count := count }).traitStore.length =
      store.traitStore.length := length_set
  have linked := represents.linked word
  have once := represents.once word
  rw [split] at linked once
  apply represents.change
  · exact length.trans represents.full
  · intro none
    rw [none] at length
    exact represents.started (length_eq_zero_iff.mp length.symm)
  · exact linked.replace once rfl
  · intro other different
    refine ⟨rfl, ?_⟩
    intro mem inOther
    apply getElem?_set_ne
    intro same
    exact different (represents.apart other word mem inOther _ inChain same.symm)
  · intro mem inChanged
    rw [← places]
    exact .inl (mem_map_of_mem inChanged)
  · rw [places]
    exact represents.once word
  · rw [sameIds]
    exact represents.ids word
  · intro mem inChanged
    have isId : mem.2.id ∈ (chain word).map (·.2.id) := by
      rw [← sameIds]
      exact mem_map_of_mem (f := (·.2.id)) inChanged
    obtain ⟨old, inOld, same⟩ := mem_map.mp isId
    rw [← same]
    exact represents.known word old inOld

end

/-- The store with a new entry that nothing links to yet. -/
def CorpusStore.appendTrait (store : CorpusStore) (traitId count : Nat) : CorpusStore :=
  { store with
    traitStore := store.traitStore ++ [{ id := traitId, count := count }]
    nextTraitIndex := store.nextTraitIndex + 1 }

lemma addTrait_first (full : store.traitStore.length = store.nextTraitIndex)
    (traitId count : Nat) :
    store.addTrait word 0 traitId count = some
      { store.appendTrait traitId count with
        traitLink := Function.update store.traitLink word (some store.nextTraitIndex) } := by
  rw [CorpusStore.addTrait, if_pos (Nat.le_of_eq full.symm)]
  dsimp only
  rw [if_pos full]
  rfl

lemma addTrait_later (full : store.traitStore.length = store.nextTraitIndex) (traitId count : Nat)
    {last : TraitPerToken} (nonzero : place ≠ 0) (found : store.traitStore[place]? = some last) :
    store.addTrait word place traitId count = some
      ((store.appendTrait traitId count).setTrait place
        { last with nextLink := store.nextTraitIndex }) := by
  have stays : (store.traitStore ++ [{ id := traitId, count := count }])[place]? = some last := by
    rw [getElem?_append_left (List.getElem?_eq_some_iff.mp found).1]
    exact found
  rw [CorpusStore.addTrait, if_pos (Nat.le_of_eq full.symm)]
  dsimp only
  rw [if_pos full, if_pos nonzero, stays]
  rfl

section

variable (represents : Represents traits store chain) (known : traitId ∈ traits)
  (missing : ∀ mem ∈ chain word, mem.2.id ≠ traitId) (count : Nat)
include represents known missing count

lemma Represents.addTrait_concat :
    ∃ store' changed, store.addTrait word (((chain word).getLast?.map Prod.fst).getD 0) traitId
        count = some store' ∧ Represents traits store' (Function.update chain word changed) ∧
      store'.messageCounts = store.messageCounts ∧ store'.messageCountsId = store.messageCountsId ∧
      changed.map (·.2.id) = (chain word).map (·.2.id) ++ [traitId] ∧
      ∀ other, countIn changed other =
        if other = traitId then count else countIn (chain word) other := by
  have linked := represents.linked word
  have once := represents.once word
  have ids := represents.ids word
  have knownAll := represents.known word
  have kept (place : Nat) (within : place < store.traitStore.length) :
      (store.appendTrait traitId count).traitStore[place]? = store.traitStore[place]? :=
    getElem?_append_left within
  have length : (store.appendTrait traitId count).traitStore.length =
      store.nextTraitIndex + 1 := by
    rw [← represents.full]
    exact length_append
  rcases eq_nil_or_concat (chain word) with none | ⟨before, ⟨place, last⟩, split⟩
  · rw [none] at linked ⊢
    refine ⟨_, [(store.traitStore.length, ⟨traitId, count, 0⟩)],
      addTrait_first represents.full traitId count, ?_, rfl, rfl, rfl, ?_⟩
    · apply represents.change
      · exact length
      · exact append_ne_nil_of_right_ne_nil _ (cons_ne_nil _ _)
      · have link : CorpusStore.linkOf { store.appendTrait traitId count with
            traitLink := Function.update store.traitLink word (some store.nextTraitIndex) } word =
              store.traitStore.length := by
          change (Function.update store.traitLink word (some store.nextTraitIndex) word).getD 0 = _
          rw [update_self, represents.full]
          rfl
        rw [link]
        exact chain_new rfl represents.started
      · intro other different
        refine ⟨?_, fun mem inOther => kept mem.1 (represents.place_lt inOther)⟩
        change (Function.update store.traitLink word (some store.nextTraitIndex) other).getD 0 = _
        rw [update_of_ne different]
        rfl
      · intro mem isNew
        rw [mem_singleton.mp isNew]
        exact .inr (le_refl _)
      · exact nodup_singleton _
      · exact nodup_singleton _
      · intro mem isNew
        rw [mem_singleton.mp isNew]
        exact known
    · intro other
      exact if_congr eq_comm rfl rfl
  · rw [concat_eq_append] at split
    rw [split] at linked once ids knownAll missing ⊢
    have inChain : (place, last) ∈ before ++ [(place, last)] := mem_append_right _ mem_cons_self
    let relinked : TraitPerToken := { last with nextLink := store.nextTraitIndex }
    let added : TraitPerToken := { id := traitId, count := count }
    have lastLink : ((before ++ [(place, last)]).getLast?.map Prod.fst).getD 0 = place := by
      rw [getLast?_concat]
      rfl
    have places : (before ++ [(place, relinked), (store.traitStore.length, added)]).map Prod.fst =
        (before ++ [(place, last)]).map Prod.fst ++ [store.traitStore.length] := by
      rw [map_append, map_append, append_assoc]
      rfl
    have sameIds : (before ++ [(place, relinked), (store.traitStore.length, added)]).map (·.2.id) =
        (before ++ [(place, last)]).map (·.2.id) ++ [traitId] := by
      rw [map_append, map_append, append_assoc]
      rfl
    rw [lastLink]
    refine ⟨_, before ++ [(place, relinked), (store.traitStore.length, added)],
      addTrait_later represents.full traitId count (linked.ne_zero inChain) (linked.in_store inChain),
      ?_, rfl, rfl, sameIds, ?_⟩
    · apply represents.change
      · exact length_set.trans length
      · intro none
        have none' := congrArg List.length none
        rw [CorpusStore.setTrait, length_set, length] at none'
        cases none'
      · exact linked.concat once represents.full.symm rfl represents.started
      · intro other different
        refine ⟨rfl, ?_⟩
        intro mem inOther
        rw [← kept mem.1 (represents.place_lt inOther)]
        apply getElem?_set_ne
        intro same
        rw [← split] at inChain
        exact different (represents.apart other word mem inOther _ inChain same.symm)
      · intro mem inChanged
        have isPlace := mem_map_of_mem (f := Prod.fst) inChanged
        rw [places, ← split] at isPlace
        rcases mem_append.mp isPlace with old | new
        · exact .inl old
        · exact .inr (mem_singleton.mp new).ge
      · rw [places, ← concat_eq_append, nodup_concat]
        refine ⟨?_, once⟩
        intro mem
        obtain ⟨entry, inOld, place⟩ := mem_map.mp mem
        rw [← split] at inOld
        exact Nat.ne_of_lt (represents.place_lt inOld) place
      · rw [sameIds, ← concat_eq_append, nodup_concat]
        refine ⟨?_, ids⟩
        intro mem
        obtain ⟨entry, inOld, isTrait⟩ := mem_map.mp mem
        exact missing entry inOld isTrait
      · intro mem inChanged
        have isId := mem_map_of_mem (f := (·.2.id)) inChanged
        rw [sameIds] at isId
        rcases mem_append.mp isId with old | new
        · obtain ⟨entry, inOld, same⟩ := mem_map.mp old
          rw [← same]
          exact knownAll entry inOld
        · rw [mem_singleton.mp new]
          exact known
    · intro other
      have absent : ∀ mem ∈ before ++ [(place, relinked)], mem.2.id ≠ added.id := by
        intro mem inOld isTrait
        rcases mem_append.mp inOld with early | late
        · exact missing mem (mem_append_left _ early) isTrait
        · rw [mem_singleton.mp late] at isTrait
          exact missing (place, last) inChain isTrait
      have joined : before ++ [(place, relinked), (store.traitStore.length, added)] =
          before ++ [(place, relinked)] ++ [(store.traitStore.length, added)] := by
        rw [append_assoc]
        rfl
      rw [joined, countIn_concat absent]
      congr 1
      apply countIn_congr
      rw [map_append, map_append]
      rfl

lemma Represents.addTrait :
    ∃ store' changed, store.addTrait word (((chain word).getLast?.map Prod.fst).getD 0) traitId
        count = some store' ∧ Represents traits store' (Function.update chain word changed) ∧
      store'.messageCounts = store.messageCounts ∧ store'.messageCountsId = store.messageCountsId ∧
      ∀ other, countIn changed other =
        if other = traitId then count else countIn (chain word) other := by
  obtain ⟨store', changed, adds, represented, counts, ids, _, counted⟩ :=
    represents.addTrait_concat known missing count
  exact ⟨store', changed, adds, represented, counts, ids, counted⟩

end

end

end CommCentral.Junk
