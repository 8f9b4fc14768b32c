import CommCentral.Junk.TraitCounts

/-! What training a message does to the counts of the corpus. -/
namespace CommCentral.Junk

open Lib List Option Function

lemma toInt32_of_lt {number : Nat} (small : number < 2 ^ 31) : toInt32 number = number := by
  rw [toInt32]
  apply Int.bmod_eq_of_le
  · omega
  · omega

lemma changedCount_spec {count : Nat} {countChange : Int} (small : count < 2 ^ 31)
    (low : -2 ^ 31 ≤ count + countChange) (high : count + countChange < 2 ^ 31) :
    changedCount count countChange = some (count + countChange).toNat := by
  have sum : addInt32 (toInt32 count) countChange = some (count + countChange) := by
    rw [toInt32_of_lt small]
    exact if_pos ⟨low, high⟩
  rw [changedCount, sum, map_some]
  apply congrArg some
  split
  · omega
  · omega

abbrev Counts := Word → Nat → Nat

section

variable {store : CorpusStore} {chain : Word → TraitChain} {word : Word}

lemma Represents.updateTrait (represents : Represents traits store chain)
    (few : traits.card < maxLinks) (known : traitId ∈ traits) {countChange : Int}
    (small : countIn (chain word) traitId < 2 ^ 31)
    (low : -2 ^ 31 ≤ countIn (chain word) traitId + countChange)
    (high : countIn (chain word) traitId + countChange < 2 ^ 31) :
    ∃ store' changed, store.updateTrait word (store.linkOf word) traitId countChange = some store' ∧
      Represents traits store' (Function.update chain word changed) ∧
      store'.messageCounts = store.messageCounts ∧ store'.messageCountsId = store.messageCountsId ∧
      ∀ other, countIn changed other =
        if other = traitId then (countIn (chain word) traitId + countChange).toNat
        else countIn (chain word) other := by
  have enough : (chain word).length < maxLinks := Nat.lt_of_le_of_lt (represents.length_le word) few
  rcases findTrait_spec traitId 0 (represents.linked word) enough with
    ⟨before, place, entry, after, split, rfl, missing, finds⟩ | ⟨missing, finds⟩
  · have count : countIn (chain word) entry.id = entry.count := by
      rw [split, countIn_append missing, countIn, if_pos rfl]
    rw [count] at small low high ⊢
    refine ⟨_, _, ?_, represents.setTrait (entry.count + countChange).toNat split, rfl, rfl, ?_⟩
    · rw [CorpusStore.updateTrait, finds, bind_eq_bind, bind_some]
      dsimp only
      rw [changedCount_spec small low high, map_some]
    · intro other
      rw [split]
      exact countIn_replace rfl missing
  · have count := countIn_missing missing
    rw [count] at low high ⊢
    rw [CorpusStore.updateTrait, finds]
    by_cases more : 0 < countChange
    · obtain ⟨store', changed, adds, represented, counts, ids, counted⟩ :=
        represents.addTrait known missing countChange.toNat
      refine ⟨store', changed, (if_pos more).trans adds, represented, counts, ids, ?_⟩
      intro other
      rw [counted]
      congr 1
      omega
    · refine ⟨store, chain word, if_neg more, ?_, rfl, rfl, ?_⟩
      · rw [update_eq_self]
        exact represents
      · intro other
        split
        · rename_i same
          rw [same, count]
          omega
        · rfl

end

def Counts.changeAt (counts : Counts) (change : Nat → Nat) (words : List Word)
    (traits : List Nat) : Counts :=
  fun word trait =>
    if word ∈ words ∧ trait ∈ traits then change (counts word trait) else counts word trait

/-- The numbers of messages with some traits are changed. -/
def changeTraits (messages : Nat → Nat) (change : Nat → Nat) (traits : List Nat) : Nat → Nat :=
  fun trait => if trait ∈ traits then change (messages trait) else messages trait

section

variable {counts : Counts} {change : Nat → Nat} {words : List Word} {word : Word}

lemma Counts.changeAt_words (absent : word ∉ words) :
    (counts.changeAt change [word] [trait]).changeAt change words [trait] =
      counts.changeAt change (word :: words) [trait] := by
  funext other otherTrait
  rw [changeAt, changeAt, changeAt]
  by_cases isTrait : otherTrait ∈ [trait]
  · by_cases isWord : other = word
    · rw [isWord, if_neg fun both => absent both.1, if_pos ⟨mem_cons_self, isTrait⟩,
        if_pos ⟨mem_cons_self, isTrait⟩]
    · have outside : other ∉ [word] := fun mem => isWord (mem_singleton.mp mem)
      rw [if_neg (c := other ∈ [word] ∧ _) fun both => outside both.1]
      refine if_congr (and_congr_left' ?_) rfl rfl
      rw [mem_cons, or_iff_right isWord]
  · rw [if_neg fun both => isTrait both.2, if_neg fun both => isTrait both.2,
      if_neg fun both => isTrait both.2]

lemma Counts.changeAt_traits (absent : trait ∉ rest) :
    (counts.changeAt change words [trait]).changeAt change words rest =
      counts.changeAt change words (trait :: rest) := by
  funext other otherTrait
  rw [changeAt, changeAt, changeAt]
  by_cases isWord : other ∈ words
  · by_cases isTrait : otherTrait = trait
    · rw [isTrait, if_neg fun both => absent both.2, if_pos ⟨isWord, mem_cons_self⟩,
        if_pos ⟨isWord, mem_cons_self⟩]
    · have outside : otherTrait ∉ [trait] := fun mem => isTrait (mem_singleton.mp mem)
      rw [if_neg (c := _ ∧ otherTrait ∈ [trait]) fun both => outside both.2]
      refine if_congr (and_congr_right' ?_) rfl rfl
      rw [mem_cons, or_iff_right isTrait]
  · rw [if_neg fun both => isWord both.1, if_neg fun both => isWord both.1,
      if_neg fun both => isWord both.1]

lemma changeTraits_cons {messages : Nat → Nat} (absent : trait ∉ rest) :
    changeTraits (Function.update messages trait (change (messages trait))) change rest =
      changeTraits messages change (trait :: rest) := by
  funext other
  rw [changeTraits, changeTraits]
  by_cases same : other = trait
  · rw [same, if_neg absent, if_pos mem_cons_self, update_self]
  · rw [update_of_ne same]
    refine if_congr ?_ rfl rfl
    rw [mem_cons, or_iff_right same]

end

/-- The corpus store has these counts, for traits among some, and these numbers of messages. -/
structure Counted (traits : Finset Nat) (store : CorpusStore) (counts : Counts)
    (messages : Nat → Nat) : Prop where
  represented : ∃ chain, Represents traits store chain ∧
    ∀ word trait, counts word trait = countIn (chain word) trait
  lengths : store.messageCounts.length = store.messageCountsId.length
  messageCount : ∀ trait, store.getMessageCount trait = messages trait

section

variable {store : CorpusStore} {messages : Nat → Nat}
variable {word : Word}

lemma Counted.updateTrait (counted : Counted traits store counts messages)
    (few : traits.card < maxLinks) (known : trait ∈ traits) (word : Word) (countChange : Int)
    (change : Nat → Nat) (small : counts word trait < 2 ^ 31)
    (low : -2 ^ 31 ≤ counts word trait + countChange)
    (high : counts word trait + countChange < 2 ^ 31)
    (changes : (counts word trait + countChange).toNat = change (counts word trait)) :
    ∃ store', store.updateTrait word (store.linkOf word) trait countChange = some store' ∧
      Counted traits store' (counts.changeAt change [word] [trait]) messages := by
  obtain ⟨chain, represents, same⟩ := counted.represented
  rw [same] at small low high changes
  obtain ⟨store', changed, updates, represented, sameCounts, sameIds, counts'⟩ :=
    represents.updateTrait few known small low high
  refine ⟨store', updates, ⟨_, represented, ?_⟩, ?_, ?_⟩
  · intro other otherTrait
    rw [Counts.changeAt]
    by_cases isWord : other = word
    · rw [isWord, update_self, counts', changes, same]
      by_cases isTrait : otherTrait = trait
      · rw [isTrait, if_pos rfl, if_pos ⟨mem_cons_self, mem_cons_self⟩]
      · rw [if_neg isTrait, if_neg fun both => isTrait (mem_singleton.mp both.2)]
    · rw [update_of_ne isWord, if_neg fun both => isWord (mem_singleton.mp both.1),
        same]
  · rw [sameCounts, sameIds]
    exact counted.lengths
  · intro trait
    rw [← counted.messageCount, CorpusStore.getMessageCount, CorpusStore.getMessageCount,
      sameCounts, sameIds]

lemma Represents.newToken {chain : Word → TraitChain}
    (represents : Represents traits store chain) (none : store.traitLink word = none) :
    Represents traits { store with traitLink := Function.update store.traitLink word (some 0) }
      chain := by
  have links : ∀ other, CorpusStore.linkOf
      { store with traitLink := Function.update store.traitLink word (some 0) } other =
        store.linkOf other := by
    intro other
    change (Function.update store.traitLink word (some 0) other).getD 0 =
      (store.traitLink other).getD 0
    by_cases isWord : other = word
    · rw [isWord, update_self, none]
      rfl
    · rw [update_of_ne isWord]
  refine ⟨represents.full, represents.started, ?_, represents.apart, represents.once,
    represents.ids, represents.known⟩
  intro other
  rw [links]
  exact represents.linked other

section

variable (counted : Counted traits store counts messages)
include counted

lemma Counted.newToken (none : store.traitLink word = none) :
    Counted traits { store with traitLink := Function.update store.traitLink word (some 0) } counts
      messages := by
  obtain ⟨chain, represents, same⟩ := counted.represented
  exact ⟨⟨chain, represents.newToken none, same⟩, counted.lengths, counted.messageCount⟩

lemma Counted.add (few : traits.card < maxLinks) (known : trait ∈ traits) (some : word ≠ [])
    (room : counts word trait + 1 < 2 ^ 31) :
    ∃ store', store.add word trait 1 = Option.some store' ∧
      Counted traits store' (counts.changeAt (· + 1) [word] [trait]) messages := by
  rw [CorpusStore.add, if_neg some]
  have one : toInt32 (1 : Nat) = 1 := rfl
  cases token : store.traitLink word with
  | some traitLink =>
    have link : store.linkOf word = traitLink := by
      rw [CorpusStore.linkOf, token]
      rfl
    dsimp only
    rw [one, ← link]
    exact counted.updateTrait few known word 1 (· + 1) (by omega) (by omega) (by omega) (by omega)
  | none =>
    have link : CorpusStore.linkOf
        { store with traitLink := Function.update store.traitLink word (Option.some 0) } word = 0 := by
      change (Function.update store.traitLink word (Option.some 0) word).getD 0 = 0
      rw [update_self]
      rfl
    have updated := (counted.newToken token).updateTrait few known word 1 (· + 1) (by omega)
      (by omega) (by omega) (by omega)
    rw [link] at updated
    exact updated

lemma Counted.remove (few : traits.card < maxLinks) (known : trait ∈ traits)
    (room : counts word trait < 2 ^ 31) :
    ∃ store', store.remove word trait 1 = some store' ∧
      Counted traits store' (counts.changeAt (· - 1) [word] [trait]) messages := by
  rw [CorpusStore.remove]
  have one : -toInt32 (1 : Nat) = -1 := rfl
  cases token : store.traitLink word with
  | some traitLink =>
    have link : store.linkOf word = traitLink := by
      rw [CorpusStore.linkOf, token]
      rfl
    dsimp only
    rw [one, ← link]
    exact counted.updateTrait few known word (-1) (· - 1) room (by omega) (by omega) (by omega)
  | none =>
    refine ⟨store, rfl, ?_⟩
    obtain ⟨chain, represents, same⟩ := counted.represented
    have empty : counts word trait = 0 := by
      have linked := represents.linked word
      rw [CorpusStore.linkOf, token] at linked
      rw [same]
      rw [linked.eq_nil]
      rfl
    have unchanged : counts.changeAt (· - 1) [word] [trait] = counts := by
      funext other otherTrait
      rw [Counts.changeAt]
      split
      · rename_i both
        rw [mem_singleton.mp both.1, mem_singleton.mp both.2, empty]
      · rfl
    rw [unchanged]
    exact counted

end

lemma Counted.tokens (allowed : Word → Nat → Prop)
    {step : CorpusStore → Word → Option CorpusStore} {change : Nat → Nat}
    (single : ∀ store counts word, Counted traits store counts messages →
      allowed word (counts word trait) →
      ∃ store', step store word = some store' ∧
        Counted traits store' (counts.changeAt change [word] [trait]) messages)
    (counted : Counted traits store counts messages) {tokens : List Word} (once : tokens.Nodup)
    (allows : ∀ word ∈ tokens, allowed word (counts word trait)) :
    ∃ store', tokens.foldlM step store = some store' ∧
      Counted traits store' (counts.changeAt change tokens [trait]) messages := by
  induction tokens generalizing store counts with
  | nil =>
    refine ⟨store, rfl, ?_⟩
    have unchanged : counts.changeAt change [] [trait] = counts :=
      funext fun _ => funext fun _ => if_neg fun both => absurd both.1 not_mem_nil
    rw [unchanged]
    exact counted
  | cons word rest ih =>
    obtain ⟨absent, onceRest⟩ := nodup_cons.mp once
    obtain ⟨first, steps, firstCounted⟩ :=
      single store counts word counted (allows word mem_cons_self)
    have later : ∀ other ∈ rest,
        allowed other (counts.changeAt change [word] [trait] other trait) := by
      intro other mem
      have different : ¬ (other ∈ [word] ∧ trait ∈ [trait]) := by
        rintro ⟨isWord, -⟩
        rw [mem_singleton.mp isWord] at mem
        exact absent mem
      rw [Counts.changeAt, if_neg different]
      exact allows other (mem_cons_of_mem _ mem)
    obtain ⟨last, folds, lastCounted⟩ := ih firstCounted onceRest later
    rw [Counts.changeAt_words absent] at lastCounted
    rw [foldlM_cons, steps]
    exact ⟨last, folds, lastCounted⟩

section

variable (counted : Counted traits store counts messages) (few : traits.card < maxLinks)
  (known : trait ∈ traits) {tokens : List Word} (once : tokens.Nodup)
include counted few known once

lemma Counted.rememberTokens (nonempty : [] ∉ tokens)
    (room : ∀ word ∈ tokens, counts word trait + 1 < 2 ^ 31) :
    ∃ store', store.rememberTokens tokens trait 1 = some store' ∧
      Counted traits store' (counts.changeAt (· + 1) tokens [trait]) messages := by
  refine Counted.tokens (fun word count => word ≠ [] ∧ count + 1 < 2 ^ 31) ?_ counted once ?_
  · exact fun store counts word counted allows => counted.add few known allows.1 allows.2
  · intro word mem
    refine ⟨?_, room word mem⟩
    intro empty
    rw [empty] at mem
    exact nonempty mem

lemma Counted.forgetTokens (room : ∀ word ∈ tokens, counts word trait < 2 ^ 31) :
    ∃ store', store.forgetTokens tokens trait 1 = some store' ∧
      Counted traits store' (counts.changeAt (· - 1) tokens [trait]) messages := by
  refine Counted.tokens (fun _ count => count < 2 ^ 31) ?_ counted once room
  exact fun store counts word counted allows => counted.remove few known allows

end

end

/-- The number at the place of a trait in the list of traits, or 0 without one. -/
def countAt (ids counts : List Nat) (trait : Nat) : Nat :=
  ((ids.idxOf? trait).map fun index => counts.getD index 0).getD 0

section

variable {id trait count other : Nat}

lemma countAt_nil : countAt [] counts trait = 0 := rfl

lemma countAt_cons :
    countAt (id :: ids) (count :: counts) trait =
      if id = trait then count else countAt ids counts trait := by
  rw [countAt, idxOf?_cons]
  by_cases same : id = trait
  · rw [if_pos same, if_pos (beq_iff_eq.mpr same)]
    rfl
  · rw [if_neg same, if_neg fun equal => same (beq_iff_eq.mp equal), countAt, Option.map_map]
    rfl

lemma countAt_append (lengths : counts.length = ids.length) (absent : trait ∉ ids) :
    countAt (ids ++ [trait]) (counts ++ [count]) other =
      if other = trait then count else countAt ids counts other := by
  induction ids generalizing counts with
  | nil =>
    rw [eq_nil_of_length_eq_zero lengths]
    exact countAt_cons.trans (if_congr eq_comm rfl rfl)
  | cons first rest ih =>
    cases counts with
    | nil => cases lengths
    | cons number numbers =>
      obtain ⟨different, absentRest⟩ := ne_and_not_mem_of_not_mem_cons absent
      rw [cons_append, cons_append, countAt_cons, countAt_cons,
        ih (Nat.succ.inj lengths) absentRest]
      by_cases isFirst : first = other
      · rw [if_pos isFirst, if_pos isFirst, if_neg]
        exact fun same => different (same.symm.trans isFirst.symm)
      · rw [if_neg isFirst, if_neg isFirst]

lemma countAt_set (lengths : counts.length = ids.length) (found : ids.idxOf? trait = some index) :
    countAt ids (counts.set index count) other =
      if other = trait then count else countAt ids counts other := by
  obtain ⟨within, isTrait, -⟩ := idxOf?_eq_some_iff.mp found
  by_cases same : other = trait
  · rw [if_pos same, same, countAt, found, map_some, getD_some,
      getD_eq_getElem?_getD, getElem?_set_self (lengths ▸ within)]
    rfl
  · rw [if_neg same, countAt, countAt]
    cases place : ids.idxOf? other with
    | none => rfl
    | some elsewhere =>
      obtain ⟨within', isOther, -⟩ := idxOf?_eq_some_iff.mp place
      have apart : index ≠ elsewhere := by
        intro meet
        subst meet
        exact same (isOther.symm.trans isTrait)
      rw [map_some, map_some, getD_eq_getElem?_getD,
        getElem?_set_ne apart, ← getD_eq_getElem?_getD]

end

lemma getMessageCount_eq (store : CorpusStore) (trait : Nat) :
    store.getMessageCount trait = countAt store.messageCountsId store.messageCounts trait := by
  rw [CorpusStore.getMessageCount, countAt]
  cases store.messageCountsId.idxOf? trait with
  | none => rfl
  | some index => rfl

section

variable {store : CorpusStore} {messages : Nat → Nat}

lemma Counted.setMessageCount (counted : Counted traits store counts messages)
    (trait count : Nat) :
    Counted traits (store.setMessageCount trait count) counts
      (Function.update messages trait count) := by
  obtain ⟨chain, represents, same⟩ := counted.represented
  have after : ∀ other, Function.update messages trait count other =
      if other = trait then count else countAt store.messageCountsId store.messageCounts other := by
    intro other
    rw [← getMessageCount_eq, counted.messageCount]
    exact update_apply messages trait count other
  rw [CorpusStore.setMessageCount]
  cases place : store.messageCountsId.idxOf? trait with
  | none =>
    refine ⟨⟨chain, ⟨represents.full, represents.started, represents.linked, represents.apart,
      represents.once, represents.ids, represents.known⟩, same⟩, ?_, ?_⟩
    · dsimp only
      rw [length_append, length_append, counted.lengths]
      rfl
    · intro other
      rw [getMessageCount_eq, after]
      exact countAt_append counted.lengths (idxOf?_eq_none_iff.mp place)
  | some index =>
    refine ⟨⟨chain, ⟨represents.full, represents.started, represents.linked, represents.apart,
      represents.once, represents.ids, represents.known⟩, same⟩, ?_, ?_⟩
    · exact length_set.trans counted.lengths
    · intro other
      rw [getMessageCount_eq, after]
      exact countAt_set counted.lengths place

end

end CommCentral.Junk
