import CommCentral.Junk.TrainingReads

/-! What is written to the two training files is read back, and halved when they are too long. -/
namespace CommCentral.Junk

open Lib List Function

namespace CorpusStore

/-- What a corpus is in memory: chains that are searched to their ends, words that are C strings
of at most an `int32_t`, and numbers of messages for all traits that words are counted for, which
are set before the words are. -/
structure Trained (store : CorpusStore) : Prop where
  represented : ∃ traits chain, Represents traits store chain ∧
    ∀ word, (chain word).length ≤ maxLinks
  storable : ∀ word, (store.traitLink word).isSome → Storable word
  small : ∀ word trait count, store.getTraitCount word trait = some count → count < 2 ^ 31
  lengths : store.messageCounts.length = store.messageCountsId.length
  once : store.messageCountsId.Nodup
  ids : ∀ trait ∈ store.messageCountsId, trait ≠ 0 ∧ trait < 2 ^ 32
  messages : ∀ trait, store.getMessageCount trait < 2 ^ 31
  counted : ∀ word trait, store.wordCount word trait ≠ 0 →
    trait = kGoodTrait ∨ trait = kJunkTrait ∨ trait ∈ store.messageCountsId

section Written

variable {store : CorpusStore}

def writtenCounts (store : CorpusStore) (shrink : Bool) : Counts :=
  fun word trait => writtenCount shrink (store.wordCount word trait)

def writtenMessages (store : CorpusStore) (shrink : Bool) (trait : Nat) : Nat :=
  writtenCount shrink (store.getMessageCount trait)

def otherTraits (store : CorpusStore) : List Nat :=
  store.messageCountsId.filter fun trait => ¬ (trait = 1 ∨ trait = 2)

lemma writtenCount_le (shrink : Bool) (count : Nat) : writtenCount shrink count ≤ count := by
  unfold writtenCount
  split
  · exact Nat.div_le_self count 2
  · exact Nat.le_refl count

lemma writtenCount_zero (shrink : Bool) : writtenCount shrink 0 = 0 := by
  cases shrink <;> rfl

lemma flatten_tokenChunks (store : CorpusStore) (tokens : List Word) (trait : Nat) :
    (store.tokenChunks tokens shrink trait).flatten =
      tokenBytes (store.writtenCounts shrink) (store.writtenWords tokens shrink) trait := by
  have entries : (tokens.flatMap (store.entryChunks shrink trait)).flatten =
      (store.writtenWords tokens shrink trait).flatMap
        (entryBytes (store.writtenCounts shrink) trait) := by
    induction tokens with
    | nil => rfl
    | cons word rest ih =>
      rw [flatMap_cons, flatten_append, ih, writtenWords, writtenWords,
        filter_cons, entryChunks]
      by_cases none : writtenCount shrink (store.wordCount word trait) = 0
      · simp [none]
      · simp [none, entryBytes, writtenCounts]
  rw [tokenChunks, flatten_cons, entries, tokenBytes]

lemma countAt_of_mem_zip {ids counts : List Nat} (once : ids.Nodup) {trait count : Nat}
    (mem : (trait, count) ∈ ids.zip counts) : countAt ids counts trait = count := by
  induction ids generalizing counts with
  | nil => cases mem
  | cons first rest ih =>
    cases counts with
    | nil => cases mem
    | cons number numbers =>
      obtain ⟨notAgain, onceRest⟩ := nodup_cons.mp once
      rw [countAt_cons]
      rcases mem_cons.mp mem with same | inRest
      · cases same
        exact if_pos rfl
      · have different : first ≠ trait := by
          rintro rfl
          exact notAgain (of_mem_zip inRest).1
        rw [if_neg different]
        exact ih onceRest inRest

lemma flatten_traitChunks (store : CorpusStore) (tokens : List Word)
    {pairs : List (Nat × Nat)} (numbered : ∀ pair ∈ pairs, store.getMessageCount pair.1 = pair.2) :
    (pairs.flatMap (store.traitChunks tokens shrink)).flatten =
      ((pairs.map Prod.fst).filter fun trait => ¬ (trait = 1 ∨ trait = 2)).flatMap
        (traitBytes (store.writtenCounts shrink) (store.writtenWords tokens shrink)
          (store.writtenMessages shrink)) := by
  induction pairs with
  | nil => rfl
  | cons pair rest ih =>
    obtain ⟨number, others⟩ := forall_mem_cons.mp numbered
    rw [flatMap_cons, flatten_append, ih others, map_cons,
      filter_cons, traitChunks]
    by_cases isJunk : pair.1 = 1 ∨ pair.1 = 2
    · simp [isJunk]
    · rw [if_neg isJunk, if_pos (by simpa using isJunk), flatMap_cons, flatten_cons,
        flatten_cons, flatten_tokenChunks, ← number]
      simp [traitBytes, writtenMessages]

lemma writeFiles_bytes (trained : store.Trained) (tokens : store.TokenEnumeration)
    (shrink : Bool) :
    ∃ training traitFile,
      store.writeFiles tokens.words shrink (fun _ => none) (fun _ => none) =
        { training := some training, traits := some traitFile } ∧
      training.content = trainingBytes (store.writtenCounts shrink)
        (store.writtenWords tokens.words shrink) (store.writtenMessages shrink) ∧
      traitFile.content = traitFileBytes (store.writtenCounts shrink)
        (store.writtenWords tokens.words shrink) (store.writtenMessages shrink)
        store.otherTraits := by
  have first := Writer.putAll_good (fun _ => none) (store.trainingFileChunks tokens.words shrink) {}
    fun _ _ => rfl
  have second := Writer.putAll_good (fun _ => none) (store.traitFileChunks tokens.words shrink) {}
    fun _ _ => rfl
  have numbered : ∀ pair ∈ store.messageCountsId.zip store.messageCounts,
      store.getMessageCount pair.1 = pair.2 := by
    intro pair mem
    rw [getMessageCount_eq]
    exact countAt_of_mem_zip trained.once mem
  have names : (store.messageCountsId.zip store.messageCounts).map Prod.fst =
      store.messageCountsId :=
    map_fst_zip trained.lengths.ge
  refine ⟨⟨(store.trainingFileChunks tokens.words shrink).flatten,
      (store.trainingFileChunks tokens.words shrink).length⟩,
    ⟨(store.traitFileChunks tokens.words shrink).flatten ++ htonl 0,
      (store.traitFileChunks tokens.words shrink).length + 1⟩, ?_, ?_, ?_⟩
  · simp only [writeFiles, store.writeTrainingFile_eq tokens.nonempty,
      store.writeTraitFile_eq tokens.nonempty, written, first, second, Writer.put, if_true,
      Nat.zero_add, nil_append]
  · simp only [trainingFileChunks, flatten_append, flatten_tokenChunks]
    simp [trainingBytes, writtenMessages]
  · simp only [traitFileChunks, flatten_cons,
      store.flatten_traitChunks tokens.words numbered, names]
    simp [traitFileBytes, otherTraits]

/-- What is written of a corpus in memory can be read. -/
theorem Trained.target (trained : store.Trained) (tokens : store.TokenEnumeration)
    (shrink : Bool) :
    Target (store.writtenCounts shrink) (store.writtenWords tokens.words shrink) := by
  obtain ⟨_, chain, represents, short⟩ := trained.represented
  have count (word : Word) (trait : Nat) :
      store.getTraitCount word trait = some (countIn (chain word) trait) :=
    represents.getTraitCount (short word) trait
  have wordCount (word : Word) (trait : Nat) :
      store.wordCount word trait = countIn (chain word) trait := by
    rw [CorpusStore.wordCount, count]
    rfl
  have atMost (word : Word) (trait : Nat) :
      store.writtenCounts shrink word trait ≤ countIn (chain word) trait := by
    rw [← wordCount]
    exact writtenCount_le shrink _
  have tokenOf {word : Word} {trait : Nat} (counted : countIn (chain word) trait ≠ 0) :
      (store.traitLink word).isSome := by
    by_contra none
    have noToken : store.traitLink word = Option.none := by simpa using none
    have linked := represents.linked word
    rw [CorpusStore.linkOf, noToken] at linked
    rw [linked.eq_nil] at counted
    exact counted rfl
  refine ⟨?_, ?_, ?_, ?_, ?_, ?_⟩
  · exact fun trait => tokens.once.filter _
  · intro trait word mem
    exact trained.storable word ((tokens.all word).mp (mem_filter.mp mem).1)
  · intro word trait
    have := trained.small word trait _ (count word trait)
    have := atMost word trait
    omega
  · intro word trait
    rw [writtenWords, mem_filter, decide_eq_true_eq, tokens.all]
    constructor
    · intro counted
      have before : countIn (chain word) trait ≠ 0 := by
        have := atMost word trait
        omega
      exact ⟨tokenOf before, counted⟩
    · exact fun both => both.2
  · intro trait
    exact Nat.lt_of_le_of_lt (length_filter_le _ _) tokens.few
  · intro word
    refine ⟨((chain word).map (·.2.id)).toFinset, ?_, ?_⟩
    · have atMostAll := toFinset_card_le ((chain word).map (·.2.id))
      rw [length_map] at atMostAll
      exact Nat.le_trans atMostAll (short word)
    · intro trait counted
      by_contra outside
      have missing : ∀ mem ∈ chain word, mem.2.id ≠ trait := by
        intro mem inChain isTrait
        exact outside (mem_toFinset.mpr (isTrait ▸ mem_map_of_mem inChain))
      have := atMost word trait
      rw [countIn_missing missing] at this
      omega

lemma good_ne_junk : kGoodTrait ≠ kJunkTrait := by decide

lemma Trained.reads {start : CorpusStore} (trained : store.Trained)
    (tokens : store.TokenEnumeration) (shrink : Bool)
    (empty : ∀ traits, Exactly traits start (fun _ _ => 0) fun _ => 0) :
    ∃ after, start.readTrainingData
        (store.writeFiles tokens.words shrink (fun _ => none) fun _ => none) = some after ∧
      (∀ trait, after.getMessageCount trait = writtenCount shrink (store.getMessageCount trait)) ∧
      (∀ word trait, after.getTraitCount word trait =
        some (writtenCount shrink (store.wordCount word trait))) ∧
      ∀ word, (after.traitLink word).isSome →
        ∃ trait, writtenCount shrink (store.wordCount word trait) ≠ 0 := by
  let traits : Finset Nat := insert kGoodTrait (insert kJunkTrait store.messageCountsId.toFinset)
  have isTarget := trained.target tokens shrink
  obtain ⟨training, traitFile, files, trainingContent, traitContent⟩ :=
    writeFiles_bytes trained tokens shrink
  have inOthers (trait : Nat) : trait ∈ store.otherTraits ↔
      trait ∈ store.messageCountsId ∧ ¬ (trait = 1 ∨ trait = 2) := by
    rw [otherTraits, mem_filter, decide_eq_true_eq]
  obtain ⟨after, read, exactly⟩ := readTrainingData_spec isTarget (empty traits) (Finset.mem_insert_self _ _)
    (Finset.mem_insert_of_mem (Finset.mem_insert_self _ _))
    (fun trait mem => Finset.mem_insert_of_mem (Finset.mem_insert_of_mem
      (mem_toFinset.mpr ((inOthers trait).mp mem).1)))
    (trained.once.filter _)
    (fun trait mem => not_or.mp ((inOthers trait).mp mem).2)
    (fun trait mem => trained.ids trait ((inOthers trait).mp mem).1)
    (fun trait => Nat.lt_of_le_of_lt (writtenCount_le shrink _) (trained.messages trait))
    trainingContent traitContent
  have counts : (store.writtenCounts shrink).only
      (store.otherTraits.reverse ++ [kJunkTrait, kGoodTrait]) = store.writtenCounts shrink := by
    funext word trait
    rw [Counts.only]
    split
    · rfl
    · rename_i outside
      have uncounted : store.wordCount word trait = 0 := by
        by_contra counted
        apply outside
        rcases trained.counted word trait counted with isGood | isJunk | mem
        · simp [isGood]
        · simp [isJunk]
        · by_cases isJunk : trait = 1 ∨ trait = 2
          · rcases isJunk with isGood | isJunk
            · simp [isGood, kGoodTrait]
            · simp [isJunk, kJunkTrait]
          · simp [(inOthers trait).mpr ⟨mem, isJunk⟩]
      rw [writtenCounts, uncounted, writtenCount_zero]
  rw [counts] at exactly
  refine ⟨after, by rw [files]; exact read, ?_, ?_, ?_⟩
  · intro trait
    rw [exactly.messageCount]
    by_cases isOther : trait ∈ store.otherTraits
    · exact if_pos isOther
    · simp only [fillMessages, isOther, if_false]
      by_cases isJunk : trait = kJunkTrait
      · simp only [isJunk, update_self]
      · by_cases isGood : trait = kGoodTrait
        · simp only [isGood, ne_eq, good_ne_junk, not_false_eq_true, update_of_ne,
            update_self]
        · have absent : trait ∉ store.messageCountsId :=
            fun mem => isOther ((inOthers trait).mpr ⟨mem, fun either => either.elim isGood isJunk⟩)
          have none : store.getMessageCount trait = 0 := by
            rw [getMessageCount, idxOf?_eq_none_iff.mpr absent]
          simp only [ne_eq, isJunk, isGood, not_false_eq_true, update_of_ne, none,
            writtenCount_zero]
  · intro word trait
    obtain ⟨chain, represents, same, held⟩ := exactly.represented
    obtain ⟨support, card, inside⟩ := isTarget.few word
    have short : (chain word).length ≤ support.card :=
      represents.length_le_support fun mem inChain => inside _ (held word mem inChain)
    rw [represents.getTraitCount (Nat.le_trans short card), ← same]
    rfl
  · intro word token
    exact (exactly.token word).mp token

lemma exactly_new (traits : Finset Nat) : Exactly traits {} (fun _ _ => 0) fun _ => 0 :=
  ⟨⟨fun _ => [], represents_new traits, fun _ _ => rfl, fun _ _ mem => nomatch mem⟩,
    fun _ => by simp, rfl, fun _ => rfl⟩

lemma Trained.cleared (trained : store.Trained) (traits : Finset Nat) :
    Exactly traits store.clearCounts (fun _ _ => 0) fun _ => 0 := by
  obtain ⟨_, chain, represents, _⟩ := trained.represented
  refine ⟨⟨fun _ => [], ⟨represents.full, represents.started, fun _ => rfl, ?_,
    fun _ => nodup_nil, fun _ => nodup_nil, ?_⟩, fun _ _ => rfl, ?_⟩, ?_, ?_, ?_⟩
  · exact fun _ _ _ mem => nomatch mem
  · exact fun _ _ mem => nomatch mem
  · exact fun _ _ mem => nomatch mem
  · intro word
    simp [clearCounts]
  · simpa [clearCounts] using trained.lengths
  · intro trait
    rw [getMessageCount, clearCounts]
    split
    · rfl
    · rename_i index _
      cases inList : store.messageCounts[index]? <;>
        simp only [getD_eq_getElem?_getD, getElem?_map, inList, Option.map_none,
          Option.map_some, Option.getD_none, Option.getD_some]

/-- A corpus that was filled with few counts, for words that can be written. -/
theorem trained_of_exactly {messages : Nat → Nat} (exactly : Exactly traits store counts messages)
    (few : FewTraits counts maxLinks) (storable : ∀ word trait, counts word trait ≠ 0 → Storable
      word ∧ counts word trait < 2 ^ 31 ∧ (trait = kGoodTrait ∨ trait = kJunkTrait ∨ trait ∈
      store.messageCountsId)) (once : store.messageCountsId.Nodup)
    (ids : ∀ trait ∈ store.messageCountsId, trait ≠ 0 ∧ trait < 2 ^ 32)
    (small : ∀ trait, messages trait < 2 ^ 31) : store.Trained := by
  obtain ⟨chain, represents, same, held⟩ := exactly.represented
  have short (word : Word) : (chain word).length ≤ maxLinks := by
    obtain ⟨support, card, inside⟩ := few word
    exact Nat.le_trans (represents.length_le_support fun mem inChain =>
      inside _ (held word mem inChain)) card
  have count (word : Word) (trait : Nat) :
      store.getTraitCount word trait = some (counts word trait) := by
    rw [represents.getTraitCount (short word) trait, same]
  refine ⟨⟨traits, chain, represents, short⟩, ?_, ?_, exactly.lengths, once, ids, ?_, ?_⟩
  · intro word token
    obtain ⟨trait, counted⟩ := (exactly.token word).mp token
    exact (storable word trait counted).1
  · intro word trait found isCount
    rw [count] at isCount
    cases isCount
    by_cases counted : counts word trait = 0
    · omega
    · exact (storable word trait counted).2.1
  · intro trait
    rw [exactly.messageCount]
    exact small trait
  · intro word trait counted
    rw [wordCount, count] at counted
    exact (storable word trait counted).2.2

/-- The word a with 5 good messages and the word b with a junk message. -/
def twoWords : CorpusStore :=
  ((((setMessageCount {} 1 5).setMessageCount 2 1).add [97] 1 5).bind (·.add [98] 2 1)).getD {}

def twoCounts : Counts := (Counts.put (fun _ _ => 0) [97] 1 5).put [98] 2 1

lemma twoCounts_ne_zero {word : Word} (counted : twoCounts word trait ≠ 0) :
    word = [97] ∧ trait = 1 ∨ word = [98] ∧ trait = 2 := by
  simp only [twoCounts, Counts.put] at counted
  grind

lemma few_twoCounts (few) (inside : ∀ word trait, few word trait ≠ 0 → trait = 1 ∨ trait = 2) :
    FewTraits few maxLinks := by
  intro word
  refine ⟨{1, 2}, by decide, fun trait counted => ?_⟩
  simpa using inside word trait counted

lemma twoWords_exactly :
    ∃ messages, Exactly {1, 2} twoWords twoCounts messages ∧ ∀ trait, messages trait < 2 ^ 31 := by
  have empty := ((exactly_new {1, 2}).setMessageCount 1 5).setMessageCount 2 1
  obtain ⟨first, added, exactly⟩ := empty.add [97] 1 5 (by decide) (by decide) rfl (by decide)
    (by decide)
    (few_twoCounts _ fun word trait counted => by
      simp only [Counts.put] at counted
      grind)
  obtain ⟨second, addedToo, exactly⟩ := exactly.add [98] 2 1 (by decide) (by decide) rfl
    (by decide) (by decide)
    (few_twoCounts _ fun word trait counted => (twoCounts_ne_zero counted).imp And.right And.right)
  have isSecond : twoWords = second := by
    rw [twoWords, added, Option.bind_some, addedToo, Option.getD_some]
  rw [isSecond]
  refine ⟨_, exactly, fun trait => ?_⟩
  simp only [update_apply]
  split
  · decide
  · split <;> decide

lemma trained_twoWords : twoWords.Trained := by
  obtain ⟨messages, exactly, small⟩ := twoWords_exactly
  refine trained_of_exactly exactly (few_twoCounts _ fun word trait counted =>
    (twoCounts_ne_zero counted).imp And.right And.right) ?_ (by decide) (by decide) small
  intro word trait counted
  rcases twoCounts_ne_zero counted with ⟨rfl, rfl⟩ | ⟨rfl, rfl⟩
  · exact ⟨⟨by decide, by decide, by decide⟩, by decide, .inl rfl⟩
  · exact ⟨⟨by decide, by decide, by decide⟩, by decide, .inr (.inl rfl)⟩

def twoTokens : twoWords.TokenEnumeration where
  words := [[98], [97]]
  once := by decide
  nonempty := by decide
  all := by
    intro word
    obtain ⟨messages, exactly, _⟩ := twoWords_exactly
    rw [exactly.token]
    constructor
    · intro member
      rcases mem_pair.mp member with rfl | rfl
      · exact ⟨2, by decide⟩
      · exact ⟨1, by decide⟩
    · intro ⟨trait, counted⟩
      rcases twoCounts_ne_zero counted with ⟨rfl, _⟩ | ⟨rfl, _⟩ <;> simp
  few := by decide

/-- Without shrinking, an empty corpus gets all counts back; with it, the corpus itself is left
with half of each count, and with no word that has none. -/
theorem training_data_round_trip (store : CorpusStore) (trained : store.Trained)
    (tokens : store.TokenEnumeration) (aMaximumTokenCount : Nat) :
    (shrinks tokens.words aMaximumTokenCount = false →
      ∃ files after,
        store.writeTrainingData tokens.words aMaximumTokenCount (fun _ => none) (fun _ => none) =
          some (files, store) ∧
        readTrainingData {} files = some after ∧
        (∀ trait, after.getMessageCount trait = store.getMessageCount trait) ∧
        ∀ word trait, after.getTraitCount word trait = store.getTraitCount word trait) ∧
      (shrinks tokens.words aMaximumTokenCount = true →
        ∃ files after,
          store.writeTrainingData tokens.words aMaximumTokenCount (fun _ => none) (fun _ => none) =
            some (files, after) ∧
          (∀ trait, after.getMessageCount trait = store.getMessageCount trait / 2) ∧
          (∀ word trait, after.getTraitCount word trait =
            (store.getTraitCount word trait).map (· / 2)) ∧
          ∀ word, (after.traitLink word).isSome →
            ∃ trait count, store.getTraitCount word trait = some count ∧ 2 ≤ count) := by
  obtain ⟨_, chain, represents, short⟩ := trained.represented
  have count (word : Word) (trait : Nat) :
      store.getTraitCount word trait = some (store.wordCount word trait) := by
    rw [wordCount, represents.getTraitCount (short word) trait]
    rfl
  constructor
  · intro whole
    obtain ⟨after, read, messages, counts, _⟩ := trained.reads tokens false exactly_new
    refine ⟨store.writeFiles tokens.words false (fun _ => none) fun _ => none, after, ?_, read,
      messages, fun word trait => ?_⟩
    · simp only [writeTrainingData, whole, Bool.false_eq_true, if_false]
    · rw [counts, count]
      rfl
  · intro shrunk
    obtain ⟨after, read, messages, counts, token⟩ := trained.reads tokens true trained.cleared
    have some : tokens.words.length ≠ 0 := by
      simp only [shrinks, decide_eq_true_eq] at shrunk
      omega
    refine ⟨store.writeFiles tokens.words true (fun _ => none) fun _ => none, after, ?_, messages,
      fun word trait => ?_, fun word isToken => ?_⟩
    · simp only [writeTrainingData, shrunk, if_true, if_pos some, read, Option.map_some]
    · rw [counts, count]
      rfl
    · obtain ⟨trait, counted⟩ := token word isToken
      refine ⟨trait, _, count word trait, ?_⟩
      simp only [writtenCount, if_true] at counted
      omega

/-- With room for one word, the word a keeps 2 of 5 and the word b is gone. -/
theorem training_data_round_trip_two :
    ∃ files after, twoWords.writeTrainingData twoTokens.words 1 (fun _ => none) (fun _ => none) =
        some (files, after) ∧
      after.getMessageCount 1 = 2 ∧ after.getTraitCount [97] 1 = some 2 ∧
      after.getTraitCount [98] 2 = some 0 := by
  obtain ⟨files, after, written, messages, counts, _⟩ :=
    (training_data_round_trip twoWords trained_twoWords twoTokens 1).2 (by decide)
  refine ⟨files, after, written, ?_, ?_, ?_⟩
  · rw [messages]
    decide
  · rw [counts]
    decide
  · rw [counts]
    decide

end Written

end CorpusStore

end CommCentral.Junk
