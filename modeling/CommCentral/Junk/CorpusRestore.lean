import CommCentral.Junk.TrainingCounts

/-! Counts that are put into a corpus one by one. -/
namespace CommCentral.Junk

open Lib List Function

def Counts.put (counts : Counts) (word : Word) (trait count : Nat) : Counts :=
  fun other otherTrait =>
    if other = word ∧ otherTrait = trait then count else counts other otherTrait

/-- The traits that a word has counts for, all in one small set. -/
def FewTraits (counts : Counts) (limit : Nat) : Prop :=
  ∀ word, ∃ support : Finset Nat, support.card ≤ limit ∧
    ∀ trait, counts word trait ≠ 0 → trait ∈ support

/-- The corpus store has these counts and no entries or tokens for others. -/
structure Exactly (traits : Finset Nat) (store : CorpusStore) (counts : Counts)
    (messages : Nat → Nat) : Prop where
  represented : ∃ chain, Represents traits store chain ∧
    (∀ word trait, counts word trait = countIn (chain word) trait) ∧
    ∀ word, ∀ member ∈ chain word, counts word member.2.id ≠ 0
  token : ∀ word, (store.traitLink word).isSome ↔ ∃ trait, counts word trait ≠ 0
  lengths : store.messageCounts.length = store.messageCountsId.length
  messageCount : ∀ trait, store.getMessageCount trait = messages trait

section

variable {store : CorpusStore} {messages : Nat → Nat}
variable {chain : Word → TraitChain} {word : Word} {trait count : Nat}

/-- A chain without entries for other traits is as short as the set of its traits. -/
theorem Represents.length_le_support (represents : Represents traits store chain)
    {support : Finset Nat} (inside : ∀ mem ∈ chain word, mem.2.id ∈ support) :
    (chain word).length ≤ support.card := by
  have distinct := toFinset_card_of_nodup (represents.ids word)
  rw [length_map] at distinct
  rw [← distinct]
  apply Finset.card_le_card
  intro traitId mem
  obtain ⟨entry, inChain, rfl⟩ := mem_map.mp (mem_toFinset.mp mem)
  exact inside entry inChain

lemma addTrait_token {lastLink : Nat}
    (adds : store.addTrait word lastLink trait count = some store')
    (some : (store.traitLink word).isSome) (other : Word) :
    (store'.traitLink other).isSome = (store.traitLink other).isSome := by
  unfold CorpusStore.addTrait at adds
  split at adds
  · dsimp only at adds
    split at adds
    · obtain ⟨last, _, same⟩ := Option.bind_eq_some_iff.mp adds
      cases same
      rfl
    · cases adds
      dsimp only
      by_cases same : other = word
      · rw [same, update_self, some]
        rfl
      · rw [update_of_ne same]
  · cases adds
    rfl

lemma Represents.newTrait (represents : Represents traits store chain)
    (known : trait ∈ traits) (some : (store.traitLink word).isSome)
    (missing : ∀ mem ∈ chain word, mem.2.id ≠ trait)
    (enough : (chain word).length < maxLinks) (positive : 0 < count) :
    ∃ store' changed,
      store.updateTrait word (store.linkOf word) trait count = Option.some store' ∧
      Represents traits store' (Function.update chain word changed) ∧
      store'.messageCounts = store.messageCounts ∧ store'.messageCountsId = store.messageCountsId ∧
      (∀ other, (store'.traitLink other).isSome = (store.traitLink other).isSome) ∧
      changed.map (·.2.id) = (chain word).map (·.2.id) ++ [trait] ∧
      ∀ other, countIn changed other = if other = trait then count else countIn (chain word) other := by
  obtain ⟨store', changed, adds, represented, counts, ids, names, counted⟩ :=
    represents.addTrait_concat known missing count
  refine ⟨store', changed, ?_, represented, counts, ids, addTrait_token adds some, names, counted⟩
  have increases : 0 < (count : Int) := by omega
  rcases findTrait_spec trait 0 (represents.linked word) enough with
    ⟨before, place, entry, after, split, isTrait, _, _⟩ | ⟨_, finds⟩
  · exact absurd isTrait (missing (place, entry) (by rw [split]; simp))
  · rw [CorpusStore.updateTrait, finds]
    exact (if_pos increases).trans adds

lemma Exactly.add (exactly : Exactly traits store counts messages) (word : Word)
    (trait count : Nat) (known : trait ∈ traits) (someWord : word ≠ []) (absent : counts word trait = 0)
    (positive : 0 < count) (small : count < 2 ^ 31)
    (few : FewTraits (counts.put word trait count) maxLinks) :
    ∃ store', store.add word trait count = some store' ∧
      Exactly traits store' (counts.put word trait count) messages := by
  obtain ⟨chain, represents, same, held⟩ := exactly.represented
  have missing : ∀ mem ∈ chain word, mem.2.id ≠ trait := by
    intro mem inChain isTrait
    have counted := held word mem inChain
    rw [isTrait] at counted
    exact counted absent
  have enough : (chain word).length < maxLinks := by
    obtain ⟨support, card, inside⟩ := few word
    have isNew : trait ∈ support := inside trait (by simp [Counts.put]; omega)
    have short : (chain word).length ≤ (support.erase trait).card := by
      apply represents.length_le_support
      intro mem inChain
      refine Finset.mem_erase.mpr ⟨missing mem inChain, inside _ ?_⟩
      rw [Counts.put, if_neg fun both => missing mem inChain both.2]
      exact held word mem inChain
    rw [Finset.card_erase_of_mem isNew] at short
    have := Finset.card_pos.mpr ⟨trait, isNew⟩
    omega
  -- in both cases the token is there, perhaps a new one without traits
  obtain ⟨middle, represented, token, added, sameCounts, sameIds⟩ :
      ∃ middle : CorpusStore, Represents traits middle chain ∧
        (∀ other, (middle.traitLink other).isSome =
          (decide (other = word) || (store.traitLink other).isSome)) ∧
        store.add word trait count = middle.updateTrait word (middle.linkOf word) trait count ∧
        middle.messageCounts = store.messageCounts ∧
        middle.messageCountsId = store.messageCountsId := by
    rw [CorpusStore.add, if_neg someWord, toInt32_of_lt small]
    cases found : store.traitLink word with
    | none =>
      refine ⟨_, represents.newToken found, ?_, ?_, rfl, rfl⟩
      · intro other
        by_cases isWord : other = word <;> simp [isWord, update_of_ne]
      · simp [CorpusStore.linkOf]
    | some traitLink =>
      refine ⟨store, represents, ?_, ?_, rfl, rfl⟩
      · intro other
        by_cases isWord : other = word <;> simp [isWord, found]
      · simp [CorpusStore.linkOf, found]
  obtain ⟨store', changed, updates, after, counts', ids', tokens', names, counted⟩ :=
    represented.newTrait known (by simp [token]) missing enough positive
  have countOf : ∀ other otherTrait, counts.put word trait count other otherTrait =
      countIn (Function.update chain word changed other) otherTrait := by
    intro other otherTrait
    rw [Counts.put]
    by_cases isWord : other = word
    · rw [isWord, update_self, counted, ← same]
      simp
    · rw [update_of_ne isWord, if_neg fun both => isWord both.1, same]
  refine ⟨store', added.trans updates, ⟨_, after, countOf, ?_⟩, ?_, ?_, ?_⟩
  · intro other mem inChain
    by_cases isWord : other = word
    · rw [isWord, update_self] at inChain
      have isName := mem_map_of_mem (f := (·.2.id)) inChain
      rw [names] at isName
      rw [isWord, Counts.put]
      rcases mem_append.mp isName with old | new
      · obtain ⟨entry, inOld, sameId⟩ := mem_map.mp old
        rw [← sameId, if_neg fun both => missing entry inOld both.2]
        exact held word entry inOld
      · rw [if_pos ⟨rfl, mem_singleton.mp new⟩]
        omega
    · rw [update_of_ne isWord] at inChain
      rw [Counts.put, if_neg fun both => isWord both.1]
      exact held other mem inChain
  · intro other
    rw [tokens', token, Bool.or_eq_true, decide_eq_true_eq, exactly.token]
    by_cases isWord : other = word
    · refine iff_of_true (.inl isWord) ⟨trait, ?_⟩
      rw [Counts.put, if_pos ⟨isWord, rfl⟩]
      omega
    · simp only [isWord, false_or]
      apply exists_congr
      intro otherTrait
      rw [Counts.put, if_neg fun both => isWord both.1]
  · rw [counts', ids', sameCounts, sameIds]
    exact exactly.lengths
  · intro other
    rw [getMessageCount_eq, counts', ids', sameCounts, sameIds, ← getMessageCount_eq]
    exact exactly.messageCount other

lemma setMessageCount_traits (store : CorpusStore) (trait count : Nat) :
    ∃ numbers ids, store.setMessageCount trait count =
      { store with messageCounts := numbers, messageCountsId := ids } := by
  unfold CorpusStore.setMessageCount
  split
  · exact ⟨_, _, rfl⟩
  · exact ⟨_, _, rfl⟩

lemma Exactly.setMessageCount (exactly : Exactly traits store counts messages)
    (trait count : Nat) :
    Exactly traits (store.setMessageCount trait count) counts
      (Function.update messages trait count) := by
  obtain ⟨chain, represents, same, held⟩ := exactly.represented
  have counted : Counted traits store counts messages :=
    ⟨⟨chain, represents, same⟩, exactly.lengths, exactly.messageCount⟩
  have after := counted.setMessageCount trait count
  obtain ⟨numbers, ids, written⟩ := setMessageCount_traits store trait count
  rw [written] at after ⊢
  exact ⟨⟨chain, ⟨represents.full, represents.started, represents.linked, represents.apart,
    represents.once, represents.ids, represents.known⟩, same, held⟩, exactly.token,
    after.lengths, after.messageCount⟩

end

end CommCentral.Junk
