import CommCentral.Junk.TrainingCounts
import CommCentral.Lib.Run

/-! The counts of the corpus after a history of trained messages. -/
namespace CommCentral.Junk

open Lib List Option Function

universe u

/-- The words of a message, as its tokenizer enumerates them. -/
structure Tokenizer where
  words : List Word
  once : words.Nodup
  nonempty : [] ∉ words

section

variable {store : CorpusStore} {messages : Nat → Nat}
variable {filter : BayesianFilter}

lemma Counted.getTraitCount (counted : Counted traits store counts messages)
    (few : traits.card < maxLinks) (word : Word) (trait : Nat) :
    store.getTraitCount word trait = some (counts word trait) := by
  obtain ⟨chain, represents, same⟩ := counted.represented
  have enough : (chain word).length < maxLinks := Nat.lt_of_le_of_lt (represents.length_le word) few
  rw [same, represents.getTraitCount (Nat.le_of_lt enough)]

section

variable (counted : Counted traits filter.corpus counts messages) (few : traits.card < maxLinks)
  (known : trait ∈ traits) (tokens : Tokenizer)
include counted few known tokens

lemma Counted.forgetTrait (absent : trait ∉ newClassifications) (some : 0 < messages trait)
    (room : ∀ word, counts word trait < 2 ^ 31) :
    ∃ filter', filter.forgetTrait tokens.words newClassifications trait = Option.some filter' ∧
      Counted traits filter'.corpus (counts.changeAt (· - 1) tokens.words [trait])
        (Function.update messages trait (messages trait - 1)) := by
  obtain ⟨corpus, forgets, counted'⟩ :=
    (counted.setMessageCount trait (messages trait - 1)).forgetTokens few known tokens.once
      fun word _ => room word
  refine ⟨⟨corpus, true⟩, ?_, counted'⟩
  rw [BayesianFilter.forgetTrait, if_neg absent]
  dsimp only
  rw [counted.messageCount, if_pos some, forgets]
  rfl

lemma Counted.rememberTrait (room : ∀ word, counts word trait + 1 < 2 ^ 31)
    (roomToo : messages trait + 1 < 2 ^ 31) :
    ∃ filter', filter.rememberTrait tokens.words trait = some filter' ∧
      Counted traits filter'.corpus (counts.changeAt (· + 1) tokens.words [trait])
        (Function.update messages trait (messages trait + 1)) := by
  obtain ⟨corpus, remembers, counted'⟩ :=
    (counted.setMessageCount trait (messages trait + 1)).rememberTokens few known tokens.once
      tokens.nonempty fun word _ => room word
  have fits : (messages trait + 1) % 2 ^ 32 = messages trait + 1 := Nat.mod_eq_of_lt (by omega)
  refine ⟨⟨corpus, true⟩, ?_, counted'⟩
  rw [BayesianFilter.rememberTrait]
  rw [counted.messageCount, fits, remembers]
  rfl

end

lemma Counted.classifications (words : List Word)
    (allowed : Nat → (Word → Nat) → Nat → Prop)
    {step : BayesianFilter → Nat → Option BayesianFilter} {change : Nat → Nat}
    (single : ∀ filter counts messages trait, Counted traits filter.corpus counts messages →
      allowed trait (fun word => counts word trait) (messages trait) →
      ∃ filter', step filter trait = some filter' ∧
        Counted traits filter'.corpus (counts.changeAt change words [trait])
          (Function.update messages trait (change (messages trait))))
    (counted : Counted traits filter.corpus counts messages) {classifications : List Nat}
    (once : classifications.Nodup)
    (allows : ∀ trait ∈ classifications,
      allowed trait (fun word => counts word trait) (messages trait)) :
    ∃ filter', classifications.foldlM step filter = some filter' ∧
      Counted traits filter'.corpus (counts.changeAt change words classifications)
        (changeTraits messages change classifications) := by
  induction classifications generalizing filter counts messages with
  | nil =>
    refine ⟨filter, rfl, ?_⟩
    have unchanged : counts.changeAt change words [] = counts :=
      funext fun _ => funext fun _ => if_neg fun both => absurd both.2 not_mem_nil
    have same : changeTraits messages change [] = messages := funext fun _ => if_neg not_mem_nil
    rw [unchanged, same]
    exact counted
  | cons trait rest ih =>
    obtain ⟨absent, onceRest⟩ := nodup_cons.mp once
    obtain ⟨first, steps, firstCounted⟩ :=
      single filter counts messages trait counted (allows trait mem_cons_self)
    have later : ∀ other ∈ rest, allowed other
        (fun word => counts.changeAt change words [trait] word other)
        (Function.update messages trait (change (messages trait)) other) := by
      intro other mem
      have different : other ≠ trait := by
        intro same
        rw [same] at mem
        exact absent mem
      have outside : ∀ word, counts.changeAt change words [trait] word other =
          counts word other := by
        intro word
        exact if_neg fun both => different (mem_singleton.mp both.2)
      rw [update_of_ne different, funext outside]
      exact allows other (mem_cons_of_mem _ mem)
    obtain ⟨last, folds, lastCounted⟩ := ih firstCounted onceRest later
    rw [Counts.changeAt_traits absent, changeTraits_cons absent] at lastCounted
    rw [foldlM_cons, steps]
    exact ⟨last, folds, lastCounted⟩

lemma Counted.observeMessage (counted : Counted traits filter.corpus counts messages)
    (few : traits.card < maxLinks) (tokens : Tokenizer) (onceOld : oldClassifications.Nodup)
    (onceNew : newClassifications.Nodup) (disjoint : oldClassifications.Disjoint newClassifications)
    (knownOld : ∀ trait ∈ oldClassifications, trait ∈ traits)
    (knownNew : ∀ trait ∈ newClassifications, trait ∈ traits)
    (some : ∀ trait ∈ oldClassifications, 0 < messages trait ∧ ∀ word, counts word trait < 2 ^ 31)
      (room : ∀ trait ∈ newClassifications, messages trait + 1 < 2 ^ 31 ∧ ∀ word, counts word trait
      + 1 < 2 ^ 31) :
    ∃ filter', filter.observeMessage tokens.words oldClassifications newClassifications =
        Option.some filter' ∧
      Counted traits filter'.corpus
        ((counts.changeAt (· - 1) tokens.words oldClassifications).changeAt (· + 1) tokens.words
          newClassifications)
        (changeTraits (changeTraits messages (· - 1) oldClassifications) (· + 1)
          newClassifications) := by
  obtain ⟨forgotten, forgets, counted'⟩ := Counted.classifications tokens.words
    (fun trait count number => (trait ∈ traits ∧ trait ∉ newClassifications) ∧
      0 < number ∧ ∀ word, count word < 2 ^ 31)
    (fun filter counts messages trait counted allowed =>
      counted.forgetTrait few allowed.1.1 tokens allowed.1.2 allowed.2.1 allowed.2.2)
    counted onceOld
    (fun trait mem => ⟨⟨knownOld trait mem, disjoint mem⟩, some trait mem⟩)
  have kept : ∀ trait ∈ newClassifications, trait ∉ oldClassifications :=
    fun trait new old => disjoint old new
  obtain ⟨last, remembers, counted''⟩ := Counted.classifications tokens.words
    (fun trait count number => trait ∈ traits ∧ number + 1 < 2 ^ 31 ∧
      ∀ word, count word + 1 < 2 ^ 31)
    (fun filter counts messages trait counted allowed =>
      counted.rememberTrait few allowed.1 tokens allowed.2.2 allowed.2.1)
    counted' onceNew
    (fun trait mem => ⟨knownNew trait mem, by
      have number : changeTraits messages (· - 1) oldClassifications trait = messages trait :=
        if_neg (kept trait mem)
      have count : ∀ word, counts.changeAt (· - 1) tokens.words oldClassifications word trait =
          counts word trait := fun word => if_neg fun both => kept trait mem both.2
      rw [number, funext count]
      exact room trait mem⟩)
  refine ⟨last, ?_, counted''⟩
  rw [BayesianFilter.observeMessage, forgets]
  exact remembers

end

structure Observation (Message : Type u) where
  message : Message
  oldClassifications : List Nat
  newClassifications : List Nat

/-- The filter, and the classifications that each message was last given. -/
structure Training (Message : Type u) where
  filter : BayesianFilter := {}
  given : Message → List Nat := fun _ => []

section

variable {Message : Type u}

/-- How many of some messages are classified with a trait. -/
def classified (among : Finset Message) (given : Message → List Nat) (trait : Nat) : Nat :=
  (among.filter fun message => trait ∈ given message).card

def containing (messages : Finset Message) (tokens : Message → Tokenizer) (word : Word) :
    Finset Message :=
  messages.filter fun message => word ∈ (tokens message).words

namespace Training

/-- The old classifications of a message are those it was last given, and none of the new ones. -/
def Follows (messages : Finset Message) (traits : Finset Nat) (training : Training Message)
    (call : Observation Message) : Prop :=
  call.message ∈ messages ∧ call.oldClassifications.Perm (training.given call.message) ∧
    call.newClassifications.Nodup ∧
    (∀ trait ∈ call.newClassifications, trait ∉ call.oldClassifications) ∧
    ∀ trait ∈ call.newClassifications, trait ∈ traits

/-- No trait is given to 2^31 messages at once. -/
def Fits (messages : Finset Message) (training : Training Message) (call : Observation Message) :
    Prop :=
  ∀ trait ∈ call.newClassifications, classified messages training.given trait + 1 < 2 ^ 31

instance (messages : Finset Message) (training : Training Message) (call : Observation Message) :
    Decidable (training.Fits messages call) :=
  inferInstanceAs (Decidable (∀ _ ∈ _, _))

/-- The counts of the corpus are those of the messages as they are classified. -/
structure Mirrors (messages : Finset Message) (traits : Finset Nat) (tokens : Message → Tokenizer)
    (training : Training Message) : Prop where
  counted : Counted traits training.filter.corpus
    (fun word trait => classified (containing messages tokens word) training.given trait)
    (classified messages training.given)
  once : ∀ message, (training.given message).Nodup
  known : ∀ message, ∀ trait ∈ training.given message, trait ∈ traits
  bounded : ∀ trait, classified messages training.given trait < 2 ^ 31

end Training

variable {tokens : Message → Tokenizer}
variable {given : Message → List Nat} {word : Word}

lemma classified_containing_le :
    classified (containing messages tokens word) given trait ≤ classified messages given trait :=
  Finset.card_le_card (Finset.filter_subset_filter _ (Finset.filter_subset _ _))

lemma classified_pos (inside : message ∈ messages) (isGiven : trait ∈ given message) :
    0 < classified messages given trait :=
  Finset.card_pos.mpr ⟨message, Finset.mem_filter.mpr ⟨inside, isGiven⟩⟩

lemma classified_none (among : Finset Message) (trait : Nat) :
    classified among (fun _ => []) trait = 0 := by
  rw [classified, Finset.card_eq_zero, Finset.filter_eq_empty_iff]
  exact fun _ _ => not_mem_nil

lemma Training.mirrors_new : Training.Mirrors messages traits tokens {} := by
  refine ⟨⟨⟨fun _ => [], represents_new traits, ?_⟩, rfl, ?_⟩, fun _ => nodup_nil, ?_, ?_⟩
  · exact fun word trait => classified_none _ trait
  · exact fun trait => (classified_none _ trait).symm
  · intro message trait mem
    cases mem
  · intro trait
    rw [classified_none]
    exact Nat.two_pow_pos 31

variable [DecidableEq Message]

def Training.observe (tokens : Message → Tokenizer) (training : Training Message)
    (call : Observation Message) : Option (Training Message) :=
  (training.filter.observeMessage (tokens call.message).words call.oldClassifications
    call.newClassifications).map fun filter =>
      ⟨filter, Function.update training.given call.message call.newClassifications⟩

instance (messages : Finset Message) (traits : Finset Nat) (training : Training Message)
    (call : Observation Message) : Decidable (training.Follows messages traits call) :=
  inferInstanceAs (Decidable (_ ∧ _))

lemma classified_update_of_notMem (outside : message ∉ among) (newClassifications) :
    classified among (Function.update given message newClassifications) trait =
      classified among given trait := by
  rw [classified, classified]
  apply congrArg Finset.card
  apply Finset.filter_congr
  intro other mem
  rw [update_of_ne]
  intro same
  rw [same] at mem
  exact outside mem

lemma classified_erase (inside : message ∈ among) :
    classified among given trait =
      classified (among.erase message) given trait + if trait ∈ given message then 1 else 0 := by
  have apart : message ∉ (among.erase message).filter fun other => trait ∈ given other :=
    fun mem => Finset.notMem_erase message among (Finset.mem_of_mem_filter message mem)
  conv_lhs => rw [classified, ← Finset.insert_erase inside, Finset.filter_insert]
  split
  · exact Finset.card_insert_of_notMem apart
  · rfl

lemma classified_update (inside : message ∈ among)
    (current : oldClassifications.Perm (given message))
    (disjoint : ∀ trait ∈ newClassifications, trait ∉ oldClassifications) :
    classified among (Function.update given message newClassifications) trait =
      changeTraits (changeTraits (classified among given) (· - 1) oldClassifications) (· + 1)
        newClassifications trait := by
  have others : classified (among.erase message)
      (Function.update given message newClassifications) trait =
        classified (among.erase message) given trait :=
    classified_update_of_notMem (Finset.notMem_erase message among) newClassifications
  have old : classified among given trait =
      classified (among.erase message) given trait + if trait ∈ given message then 1 else 0 :=
    classified_erase inside
  rw [classified_erase inside, others, update_self, changeTraits, changeTraits]
  by_cases isNew : trait ∈ newClassifications
  · have notOld := disjoint trait isNew
    rw [if_neg fun mem => notOld (current.mem_iff.mpr mem)] at old
    rw [if_pos isNew, if_pos isNew, if_neg notOld, old]
  · rw [if_neg isNew, if_neg isNew]
    by_cases isOld : trait ∈ oldClassifications
    · rw [if_pos (current.mem_iff.mp isOld)] at old
      rw [if_pos isOld, old]
      rfl
    · rw [if_neg fun mem => isOld (current.mem_iff.mpr mem)] at old
      rw [if_neg isOld, old]

lemma classified_containing_update (inside : message ∈ messages)
    (current : oldClassifications.Perm (given message))
    (disjoint : ∀ trait ∈ newClassifications, trait ∉ oldClassifications) :
    ((Counts.changeAt (fun word trait => classified (containing messages tokens word) given trait)
      (· - 1) (tokens message).words oldClassifications).changeAt (· + 1) (tokens message).words
        newClassifications) =
      fun word trait => classified (containing messages tokens word)
        (Function.update given message newClassifications) trait := by
  funext word trait
  rw [Counts.changeAt, Counts.changeAt]
  by_cases hasWord : word ∈ (tokens message).words
  · have mem : message ∈ containing messages tokens word := Finset.mem_filter.mpr ⟨inside, hasWord⟩
    have isOld : (word ∈ (tokens message).words ∧ trait ∈ oldClassifications) ↔
        trait ∈ oldClassifications := and_iff_right hasWord
    rw [classified_update mem current disjoint, changeTraits, changeTraits]
    refine if_congr (and_iff_right hasWord) ?_ (if_congr isOld rfl rfl)
    exact congrArg (· + 1) (if_congr isOld rfl rfl)
  · have outside : message ∉ containing messages tokens word :=
      fun mem => hasWord (Finset.mem_filter.mp mem).2
    rw [classified_update_of_notMem outside, if_neg fun both => hasWord both.1,
      if_neg fun both => hasWord both.1]

namespace Training

variable {training : Training Message} {call : Observation Message}

lemma Mirrors.observe (mirrors : training.Mirrors messages traits tokens)
    (few : traits.card < maxLinks) (follows : training.Follows messages traits call)
    (fits : training.Fits messages call) :
    ∃ after, training.observe tokens call = some after ∧
      after.given = Function.update training.given call.message call.newClassifications ∧
      after.Mirrors messages traits tokens := by
  obtain ⟨inside, current, once, disjoint, known⟩ := follows
  have knownOld : ∀ trait ∈ call.oldClassifications, trait ∈ traits :=
    fun trait mem => mirrors.known call.message trait (current.mem_iff.mp mem)
  obtain ⟨filter, observes, counted⟩ := mirrors.counted.observeMessage few (tokens call.message)
    (current.nodup_iff.mpr (mirrors.once call.message)) once
    (fun trait old new => disjoint trait new old) knownOld known
    (fun trait mem => ⟨classified_pos inside (current.mem_iff.mp mem),
      fun word => Nat.lt_of_le_of_lt classified_containing_le (mirrors.bounded trait)⟩)
    (fun trait mem => ⟨fits trait mem, fun word =>
      Nat.lt_of_le_of_lt (Nat.succ_le_succ classified_containing_le) (fits trait mem)⟩)
  refine ⟨_, congrArg (Option.map _) observes, rfl, ?_, ?_, ?_, ?_⟩
  · rw [classified_containing_update inside current disjoint] at counted
    have numbers : changeTraits (changeTraits (classified messages training.given) (· - 1)
        call.oldClassifications) (· + 1) call.newClassifications = classified messages
          (Function.update training.given call.message call.newClassifications) :=
      funext fun trait => (classified_update inside current disjoint).symm
    rw [numbers] at counted
    exact counted
  · exact (forall_update_iff training.given fun _ given => given.Nodup).mpr
      ⟨once, fun message _ => mirrors.once message⟩
  · exact (forall_update_iff training.given
      fun _ given => ∀ trait ∈ given, trait ∈ traits).mpr
        ⟨known, fun message _ => mirrors.known message⟩
  · intro trait
    have before := mirrors.bounded trait
    rw [classified_update inside current disjoint, changeTraits, changeTraits]
    by_cases isNew : trait ∈ call.newClassifications
    · rw [if_pos isNew, if_neg (disjoint trait isNew)]
      exact fits trait isNew
    · rw [if_neg isNew]
      split
      · exact Nat.lt_of_le_of_lt (Nat.sub_le _ 1) before
      · exact before

end Training

/-- In a history where each message's old classifications are those it was last given, the counts
of the corpus are the numbers of messages classified with each trait, and of those with each
word. -/
theorem counts_mirror_training (messages : Finset Message) (traits : Finset Nat)
    (tokens : Message → Tokenizer) (calls : List (Observation Message)) (few : traits.card < 100)
    (history : AdmissibleSome
      (fun training call => training.Follows messages traits call ∧ training.Fits messages call)
      (Training.observe tokens) {} calls) :
    ∃ training : Training Message,
      runSome (Training.observe tokens) {} calls = some training ∧
      (∀ word trait, training.filter.corpus.getTraitCount word trait =
        some (classified (containing messages tokens word) training.given trait)) ∧
      ∀ trait, training.filter.corpus.getMessageCount trait =
        classified messages training.given trait := by
  have preserved : ∀ (training : Training Message) call, training.Mirrors messages traits tokens →
      training.Follows messages traits call ∧ training.Fits messages call →
        ∃ after, training.observe tokens call = some after ∧
          after.Mirrors messages traits tokens := by
    intro training call mirrors allowed
    obtain ⟨after, observes, -, mirrors'⟩ := mirrors.observe few allowed.1 allowed.2
    exact ⟨after, observes, mirrors'⟩
  obtain ⟨training, runs, mirrors⟩ :=
    runSome_invariant _ (Training.observe tokens) preserved Training.mirrors_new history
  exact ⟨training, runs, fun word trait => mirrors.counted.getTraitCount few word trait,
    mirrors.counted.messageCount⟩

/-- Two messages, of which the second gets other traits. -/
def twoMessages : List (Observation Nat) := [⟨0, [], [1]⟩, ⟨1, [], [1]⟩, ⟨1, [1], [2, 3]⟩]

/-- The tokens of the two messages share one word. -/
def sharedWord (message : Nat) : Tokenizer :=
  if message = 0 then ⟨[[97], [98]], by decide, by decide⟩ else ⟨[[97]], by decide, by decide⟩

theorem counts_mirror_training_twoMessages :
    ∃ training : Training Nat, runSome (Training.observe sharedWord) {} twoMessages = some training ∧
      (∀ word trait, training.filter.corpus.getTraitCount word trait =
        some (classified (containing {0, 1} sharedWord word) training.given trait)) ∧
      ∀ trait, training.filter.corpus.getMessageCount trait =
        classified {0, 1} training.given trait :=
  counts_mirror_training {0, 1} {1, 2, 3} sharedWord twoMessages (by decide) (by decide +kernel)

end

/-! A trait that is given to 2^31 messages with one word. -/

lemma changedCount_overflows {count : Nat} (full : count + 1 = 2 ^ 31) :
    changedCount count 1 = none := by
  have sum : addInt32 (toInt32 count) 1 = none := by
    rw [toInt32_of_lt (by omega)]
    apply if_neg
    omega
  rw [changedCount, sum, map_none]

lemma Counted.add_overflows {store : CorpusStore} {messages : Nat → Nat} {word : Word}
    (counted : Counted traits store counts messages) (few : traits.card < maxLinks)
    (some : word ≠ []) (full : counts word trait + 1 = 2 ^ 31) : store.add word trait 1 = none := by
  obtain ⟨chain, represents, same⟩ := counted.represented
  have linked := represents.linked word
  have enough : (chain word).length < maxLinks := Nat.lt_of_le_of_lt (represents.length_le word) few
  rw [same] at full
  have positive : countIn (chain word) trait ≠ 0 := by omega
  rw [CorpusStore.add, if_neg some]
  cases token : store.traitLink word with
  | none =>
    rw [CorpusStore.linkOf, token] at linked
    rw [linked.eq_nil] at positive
    exact absurd rfl positive
  | some traitLink =>
    rw [CorpusStore.linkOf, token, getD_some] at linked
    rcases findTrait_spec trait 0 linked enough with
      ⟨before, place, entry, after, split, isTrait, missing, finds⟩ | ⟨missing, -⟩
    · rw [split, countIn_append missing, countIn, if_pos isTrait] at full
      dsimp only
      rw [CorpusStore.updateTrait, finds, bind_eq_bind, bind_some]
      exact congrArg (Option.map _) (changedCount_overflows full)
    · exact absurd (countIn_missing missing) positive

section

/-- Every message has the one word `"a"`. -/
def oneWord : Tokenizer := ⟨[[97]], by decide, by decide⟩

/-- Messages are classified with trait 1, one after another. -/
def classifyEach (first number : Nat) : List (Observation Nat) :=
  (List.range' first number).map fun message => ⟨message, [], [1]⟩

variable {training : Training Nat}

lemma classifyEach_step (inside : ∀ message, message ≤ first → message ∈ messages)
    (given : ∀ message, training.given message = if message < first then [1] else []) :
    training.Follows messages {1} ⟨first, [], [1]⟩ ∧
      classified messages training.given 1 = first ∧
      classified (containing messages (fun _ => oneWord) [97]) training.given 1 = first := by
  have all : containing messages (fun _ => oneWord) [97] = messages := by
    apply Finset.filter_true_of_mem
    intro message _
    exact mem_cons_self
  have exactly : messages.filter (fun message => 1 ∈ training.given message) =
      Finset.range first := by
    ext message
    rw [Finset.mem_filter, Finset.mem_range, given]
    constructor
    · rintro ⟨-, isGiven⟩
      by_contra notBefore
      rw [if_neg notBefore] at isGiven
      cases isGiven
    · intro before
      refine ⟨inside message before.le, ?_⟩
      rw [if_pos before]
      exact mem_cons_self
  have number : classified messages training.given 1 = first := by
    rw [classified, exactly, Finset.card_range]
  refine ⟨⟨inside first (le_refl _), ?_, nodup_singleton _, ?_, ?_⟩, number, ?_⟩
  · rw [given, if_neg (Nat.lt_irrefl first)]
  · exact fun trait _ => not_mem_nil
  · exact fun trait mem => Finset.mem_singleton.mpr (mem_singleton.mp mem)
  · rw [all]
    exact number

lemma observe_overflows (first : Nat)
    (mirrors : training.Mirrors messages {1} fun _ => oneWord)
    (full : classified (containing messages (fun _ => oneWord) [97]) training.given 1 + 1 =
      2 ^ 31) :
    training.observe (fun _ => oneWord) ⟨first, [], [1]⟩ = none := by
  have overflows : ∀ count, (training.filter.corpus.setMessageCount 1 count).rememberTokens
      [[97]] 1 1 = none := by
    intro count
    have adds : (training.filter.corpus.setMessageCount 1 count).add [97] 1 1 = none :=
      (mirrors.counted.setMessageCount 1 count).add_overflows (by decide) (cons_ne_nil _ _)
        full
    rw [CorpusStore.rememberTokens, foldlM_cons, adds]
    rfl
  have remembers : training.filter.rememberTrait [[97]] 1 = none := by
    rw [BayesianFilter.rememberTrait, overflows]
    rfl
  have observes : training.filter.observeMessage [[97]] [] [1] = none := by
    change (training.filter.rememberTrait [[97]] 1).bind _ = none
    rw [remembers]
    rfl
  exact congrArg (Option.map _) observes

lemma classifyEach_overflows
    {first number : Nat} (mirrors : training.Mirrors messages {1} fun _ => oneWord)
    (inside : ∀ message, message < first + (number + 1) → message ∈ messages)
    (given : ∀ message, training.given message = if message < first then [1] else [])
    (full : first + (number + 1) = 2 ^ 31) :
    AdmissibleSome (Training.Follows messages {1}) (Training.observe fun _ => oneWord) training
        (classifyEach first (number + 1)) ∧
      runSome (Training.observe fun _ => oneWord) training (classifyEach first (number + 1)) =
        none := by
  have calls : classifyEach first (number + 1) =
      ⟨first, [], [1]⟩ :: classifyEach (first + 1) number := rfl
  obtain ⟨follows, counts, words⟩ := classifyEach_step
    (fun message before => inside message (by omega)) given
  rw [calls]
  induction number generalizing training first with
  | zero =>
    have overflows := observe_overflows first mirrors (by omega)
    refine ⟨⟨follows, ?_⟩, ?_⟩
    · rw [overflows]
      nofun
    · rw [runSome, overflows]
      rfl
  | succ number ih =>
    have fits : training.Fits messages ⟨first, [], [1]⟩ := by
      intro trait mem
      rw [mem_singleton.mp mem, counts]
      omega
    obtain ⟨after, observes, given', mirrors'⟩ := mirrors.observe (by decide) follows fits
    have given'' : ∀ message, after.given message = if message < first + 1 then [1] else [] := by
      intro message
      rw [given', update_apply, given]
      grind
    have inside' : ∀ message, message < first + 1 + (number + 1) → message ∈ messages :=
      fun message before => inside message (by omega)
    obtain ⟨follows', counts', words'⟩ := classifyEach_step
      (fun message before => inside' message (by omega)) given''
    obtain ⟨admissible, runs⟩ := ih mirrors' inside' given'' (by omega) rfl follows' counts' words'
    refine ⟨⟨follows, ?_⟩, ?_⟩
    · rw [observes]
      rintro _ ⟨⟩
      exact admissible
    · rw [runSome, observes]
      exact runs

/-- With 2^31 messages of one word in a trait the count leaves `int32_t`. -/
theorem full_trait_overflows :
    AdmissibleSome (Training.Follows (Finset.range (2 ^ 31)) {1})
        (Training.observe fun _ => oneWord) {} (classifyEach 0 (2 ^ 31)) ∧
      runSome (Training.observe fun _ => oneWord) {} (classifyEach 0 (2 ^ 31)) = none := by
  have number : 2 ^ 31 = (2 ^ 31 - 1) + 1 := (Nat.sub_add_cancel Nat.one_le_two_pow).symm
  rw [number]
  apply classifyEach_overflows
  · exact Training.mirrors_new
  · exact fun message before => Finset.mem_range.mpr (by omega)
  · exact fun message => (if_neg (Nat.not_lt_zero message)).symm
  · omega

end

end CommCentral.Junk
