import Mathlib.Data.List.TakeWhile
import CommCentral.Junk.CorpusRestore
import CommCentral.Junk.TrainingFile

/-! Training files of the right form give an empty corpus the counts that they hold. -/
namespace CommCentral.Junk

open Lib List Option Function

section Bytes

variable {value size : Nat}

lemma ntohl_htonl (small : value < 2 ^ 32) : ntohl (htonl value) = value := by
  simp only [ntohl, htonl, foldl_cons, foldl_nil, UInt8.toNat_ofNat']
  omega

lemma length_htonl (value : Nat) : (htonl value).length = 4 := rfl

lemma fread_item (item) (some : item ≠ []) (rest) :
    fread item.length (item ++ rest) = (Option.some item, rest) := by
  have positive : item.length ≠ 0 := fun zero => some (eq_nil_of_length_eq_zero zero)
  rw [fread, if_neg positive, if_pos (by simp), take_left, drop_left]

lemma readUInt32_htonl (value : Nat) (small : value < 2 ^ 32) (rest) :
    readUInt32 (htonl value ++ rest) = (some value, rest) := by
  have read : fread 4 (htonl value ++ rest) = (some (htonl value), rest) :=
    fread_item (htonl value) (htonl_ne_nil value) rest
  rw [readUInt32, read, map_some, ntohl_htonl small]

lemma growWordBuffer_spec (small : size < 2 ^ 31) (doublings : Nat)
    (enough : 31 ≤ power + doublings) (few : power ≤ 31) :
    ∃ grown ≤ 31, growWordBuffer size doublings (2 ^ power) = some (2 ^ grown) := by
  induction doublings generalizing power with
  | zero =>
    have full : power = 31 := by omega
    subst full
    exact ⟨31, le_refl _, if_neg (by omega)⟩
  | succ doublings ih =>
    rw [growWordBuffer]
    by_cases tooSmall : 2 ^ power ≤ size
    · have below : power < 31 := by
        by_contra full
        have same : power = 31 := by omega
        rw [same] at tooSmall
        omega
      have doubled : 2 ^ power * 2 % 2 ^ 32 = 2 ^ (power + 1) := by
        rw [← Nat.pow_succ]
        apply Nat.mod_eq_of_lt
        exact Nat.pow_lt_pow_right (by decide) (by omega)
      have positive : 2 ^ (power + 1) ≠ 0 := (Nat.two_pow_pos _).ne'
      rw [if_pos tooSmall]
      simp only [doubled, if_neg positive]
      exact ih (by omega) below
    · rw [if_neg tooSmall]
      exact ⟨power, few, rfl⟩

end Bytes

def Counts.only (counts : Counts) (traits : List Nat) : Counts :=
  fun word trait => if trait ∈ traits then counts word trait else 0

/-- The counts of a trait for some words more. -/
def Counts.fill (counts target : Counts) (trait : Nat) (words : List Word) : Counts :=
  fun word other => if word ∈ words ∧ other = trait then target word other else counts word other

lemma FewTraits.mono (few : FewTraits more limit)
    (kept : ∀ word trait, counts word trait ≠ 0 → more word trait ≠ 0) :
    FewTraits counts limit := by
  intro word
  obtain ⟨support, card, inside⟩ := few word
  exact ⟨support, card, fun trait counted => inside trait (kept word trait counted)⟩

lemma Counts.fill_cons (counts target : Counts) (trait : Nat) (word : Word) (words) :
    (counts.put word trait (target word trait)).fill target trait words =
      counts.fill target trait (word :: words) := by
  funext other otherTrait
  simp only [fill, put, mem_cons]
  grind

lemma Counts.fill_only (target : Counts) {words : List Word}
    (all : ∀ word, target word trait ≠ 0 → word ∈ words) :
    (target.only traits).fill target trait words = target.only (trait :: traits) := by
  funext word other
  simp only [fill, only, mem_cons]
  grind

section Entries

variable {store : CorpusStore} {messages : Nat → Nat}

/-- A word that can be written and read. -/
structure Storable (word : Word) : Prop where
  nonempty : word ≠ []
  noNul : 0 ∉ word
  short : word.length < 2 ^ 31

def entryBytes (target : Counts) (trait : Nat) (word : Word) : List UInt8 :=
  htonl (target word trait) ++ (htonl word.length ++ word)

lemma length_entryBytes (target) (trait : Nat) (word : Word) :
    (entryBytes target trait word).length = 8 + word.length := by
  simp only [entryBytes, length_append, length_htonl]
  omega

lemma readEntries_spec (words : List Word) (exactly : Exactly traits store counts messages)
    (known : trait ∈ traits) (once : words.Nodup) (storable : ∀ word ∈ words, Storable word)
    (counted : ∀ word ∈ words, 0 < target word trait ∧ target word trait < 2 ^ 31)
    (absent : ∀ word ∈ words, counts word trait = 0)
    (few : FewTraits (counts.fill target trait words) maxLinks) (fits : power ≤ 31)
    {tail : List UInt8}
    (size : fileSize = fpos + (words.flatMap (entryBytes target trait) ++ tail).length) :
    ∃ store', CorpusStore.readEntries fileSize trait true words.length (2 ^ power) fpos store
        (words.flatMap (entryBytes target trait) ++ tail) = some (true, store', tail) ∧
      Exactly traits store' (counts.fill target trait words) messages := by
  induction words generalizing store counts power fpos with
  | nil =>
    have unchanged : counts.fill target trait [] = counts := by
      funext word other
      simp [Counts.fill]
    rw [unchanged]
    exact ⟨store, rfl, exactly⟩
  | cons word rest ih =>
    obtain ⟨notAgain, onceRest⟩ := nodup_cons.mp once
    obtain ⟨positive, small⟩ := counted word mem_cons_self
    have ⟨someWord, noNul, short⟩ := storable word mem_cons_self
    rw [flatMap_cons, append_assoc] at size
    rw [length_append, length_entryBytes] at size
    rw [flatMap_cons, append_assoc]
    generalize more : rest.flatMap (entryBytes target trait) ++ tail = bytes at size ⊢
    have countRead := readUInt32_htonl (target word trait) (by omega)
      (htonl word.length ++ (word ++ bytes))
    have lengthRead := readUInt32_htonl word.length (by omega) (word ++ bytes)
    obtain ⟨grown, grownFits, grows⟩ := growWordBuffer_spec short 32 (by omega) fits
    have inFile : ¬ fileSize < fpos + 8 + word.length := by omega
    have whole : word.takeWhile (· ≠ 0) = word := by
      rw [takeWhile_eq_self_iff]
      intro byte mem
      exact decide_eq_true fun zero => noNul (zero ▸ mem)
    have step := Counts.fill_cons counts target trait word rest
    have fewNow : FewTraits (counts.put word trait (target word trait)) maxLinks := by
      refine few.mono fun other otherTrait isCounted => ?_
      rw [← step, Counts.fill]
      split
      · rename_i both
        have isWord := counted other (mem_cons_of_mem _ both.1)
        rw [both.2]
        omega
      · exact isCounted
    obtain ⟨next, added, exactlyNext⟩ := exactly.add word trait _ known someWord
      (absent word mem_cons_self) positive small fewNow
    have sizeNext : fileSize = fpos + 8 + word.length +
        (rest.flatMap (entryBytes target trait) ++ tail).length := by
      rw [more]
      omega
    obtain ⟨store', read, exactly'⟩ := ih exactlyNext onceRest
      (fun other mem => storable other (mem_cons_of_mem _ mem))
      (fun other mem => counted other (mem_cons_of_mem _ mem))
      (fun other mem => by
        have different : ¬ (other = word ∧ trait = trait) := fun both => notAgain (both.1 ▸ mem)
        rw [Counts.put, if_neg different]
        exact absent other (mem_cons_of_mem _ mem))
      (by rwa [step]) grownFits sizeNext
    rw [step] at exactly'
    rw [more] at read
    refine ⟨store', ?_, exactly'⟩
    rw [entryBytes, append_assoc, append_assoc, length_cons,
      CorpusStore.readEntries]
    simp only [countRead, lengthRead, if_neg inFile, grows, fread_item word someWord, whole, if_true,
      added, bind_eq_bind, bind_some, read]

/-- The words that have an entry for a trait, and what holds for all words and traits that are
written. -/
structure Target (target : Counts) (words : Nat → List Word) : Prop where
  once : ∀ trait, (words trait).Nodup
  storable : ∀ trait, ∀ word ∈ words trait, Storable word
  small : ∀ word trait, target word trait < 2 ^ 31
  listed : ∀ word trait, target word trait ≠ 0 ↔ word ∈ words trait
  number : ∀ trait, (words trait).length < 2 ^ 32
  few : FewTraits target maxLinks

def tokenBytes (target : Counts) (words : Nat → List Word) (trait : Nat) : List UInt8 :=
  htonl (words trait).length ++ (words trait).flatMap (entryBytes target trait)

variable {words : Nat → List Word} {done : List Nat} {tail : List UInt8}

lemma readTokens_spec (isTarget : Target target words)
    (exactly : Exactly traits store (target.only done) messages) (known : trait ∈ traits)
    (new : trait ∉ done)
    (within : (tokenBytes target words trait ++ tail).length ≤ fileSize) :
    ∃ store', store.readTokens fileSize trait true (tokenBytes target words trait ++ tail) =
        some (true, store', tail) ∧
      Exactly traits store' (target.only (trait :: done)) messages := by
  have filled : (target.only done).fill target trait (words trait) = target.only (trait :: done) :=
    target.fill_only fun word => (isTarget.listed word trait).mp
  have numberRead := readUInt32_htonl (words trait).length (isTarget.number trait)
    ((words trait).flatMap (entryBytes target trait) ++ tail)
  rw [tokenBytes, append_assoc, length_append, length_htonl] at within
  have size : fileSize =
      fileSize - ((words trait).flatMap (entryBytes target trait) ++ tail).length +
        ((words trait).flatMap (entryBytes target trait) ++ tail).length := by
    omega
  have firstBuffer : 12 ≤ 31 := by decide
  obtain ⟨store', read, exactly'⟩ := readEntries_spec (words trait) exactly known
    (isTarget.once trait) (isTarget.storable trait)
    (fun word mem => ⟨Nat.pos_of_ne_zero ((isTarget.listed word trait).mpr mem),
      isTarget.small word trait⟩)
    (fun word _ => if_neg new)
    (by
      rw [filled]
      refine isTarget.few.mono fun word other counted zero => counted ?_
      simp [Counts.only, zero])
    firstBuffer size
  rw [filled] at exactly'
  refine ⟨store', ?_, exactly'⟩
  rw [CorpusStore.readTokens, tokenBytes, append_assoc, numberRead]
  exact read

/-- The bytes of the other traits in the trait file. -/
def traitBytes (target : Counts) (words : Nat → List Word) (numbers : Nat → Nat) (trait : Nat) :
    List UInt8 :=
  htonl trait ++ (htonl (numbers trait) ++ tokenBytes target words trait)

def fillMessages (messages numbers : Nat → Nat) (some : List Nat) : Nat → Nat :=
  fun trait => if trait ∈ some then numbers trait else messages trait

/-- `UpdateData` reads one trait after the other up to the 0. -/
theorem updateTraits_spec {numbers : Nat → Nat} (isTarget : Target target words) (some : List Nat)
    (exactly : Exactly traits store (target.only done) messages)
    (known : ∀ trait ∈ some, trait ∈ traits) (once : some.Nodup)
    (new : ∀ trait ∈ some, trait ∉ done ∧ messages trait = 0)
    (storable : ∀ trait ∈ some, trait ≠ 0 ∧ trait < 2 ^ 32 ∧ numbers trait < 2 ^ 32)
    (within : (some.flatMap (traitBytes target words numbers) ++ htonl 0).length ≤ fileSize)
    (enough : some.length < fuel) :
    ∃ store', CorpusStore.updateTraits fileSize true [] [] fuel store
        (some.flatMap (traitBytes target words numbers) ++ htonl 0) = Option.some store' ∧
      Exactly traits store' (target.only (some.reverse ++ done))
        (fillMessages messages numbers some) := by
  induction some generalizing store done messages fuel with
  | nil =>
    obtain ⟨fuel, rfl⟩ : ∃ more, fuel = more + 1 := ⟨fuel - 1, by omega⟩
    have unchanged : fillMessages messages numbers [] = messages := by
      funext trait
      simp [fillMessages]
    have zeroRead := readUInt32_htonl 0 (by decide) []
    rw [append_nil] at zeroRead
    rw [unchanged]
    refine ⟨store, ?_, exactly⟩
    simp only [flatMap_nil, nil_append, CorpusStore.updateTraits, zeroRead]
  | cons trait rest ih =>
    obtain ⟨fuel, rfl⟩ : ∃ more, fuel = more + 1 := ⟨fuel - 1, by omega⟩
    obtain ⟨notAgain, onceRest⟩ := nodup_cons.mp once
    obtain ⟨notDone, noMessages⟩ := new trait mem_cons_self
    obtain ⟨nonzero, small, fewMessages⟩ := storable trait mem_cons_self
    rw [flatMap_cons, append_assoc, traitBytes] at within
    rw [flatMap_cons, append_assoc, traitBytes]
    generalize more : rest.flatMap (traitBytes target words numbers) ++ htonl 0 = bytes
      at within ⊢
    simp only [append_assoc, length_append, length_htonl] at within
    have traitRead := readUInt32_htonl trait small
      (htonl (numbers trait) ++ (tokenBytes target words trait ++ bytes))
    have numberRead := readUInt32_htonl (numbers trait) fewMessages (tokenBytes target words trait ++ bytes)
    have sum : (store.getMessageCount trait + numbers trait) % 2 ^ 32 = numbers trait := by
      rw [exactly.messageCount, noMessages, Nat.zero_add, Nat.mod_eq_of_lt fewMessages]
    have withinFile : (tokenBytes target words trait ++ bytes).length ≤ fileSize := by
      rw [length_append]
      omega
    have enoughFuel : rest.length < fuel := by simpa using enough
    obtain ⟨next, read, exactlyNext⟩ := readTokens_spec isTarget
      (exactly.setMessageCount trait (numbers trait)) (known trait mem_cons_self) notDone
      withinFile
    obtain ⟨store', ran, exactly'⟩ := ih exactlyNext
      (fun other mem => known other (mem_cons_of_mem _ mem)) onceRest
      (fun other mem => by
        obtain ⟨otherNotDone, none⟩ := new other (mem_cons_of_mem _ mem)
        have different : other ≠ trait := fun same => notAgain (same ▸ mem)
        exact ⟨by simp [different, otherNotDone], by rw [update_of_ne different, none]⟩)
      (fun other mem => storable other (mem_cons_of_mem _ mem))
      (by rw [more]; omega) enoughFuel
    have sameDone : (trait :: rest).reverse ++ done = rest.reverse ++ trait :: done := by simp
    have sameMessages : fillMessages messages numbers (trait :: rest) =
        fillMessages (Function.update messages trait (numbers trait)) numbers rest := by
      funext other
      simp only [fillMessages, mem_cons, update_apply]
      grind
    rw [more] at ran
    rw [sameDone, sameMessages]
    refine ⟨store', ?_, exactly'⟩
    rw [append_assoc, append_assoc, CorpusStore.updateTraits, traitRead]
    simp only [numberRead, zip_nil_left, foldl_nil, if_true, sum, read, ran,
      bind_eq_bind, bind_some]

end Entries

namespace CorpusStore

section Files

variable {store start : CorpusStore} {words : Nat → List Word} {numbers messages : Nat → Nat}

def trainingBytes (target : Counts) (words : Nat → List Word) (numbers : Nat → Nat) :
    List UInt8 :=
  kMagicCookie ++ (htonl (numbers kGoodTrait) ++ (htonl (numbers kJunkTrait) ++
    (tokenBytes target words kGoodTrait ++ tokenBytes target words kJunkTrait)))

def traitFileBytes (target : Counts) (words : Nat → List Word) (numbers : Nat → Nat)
    (others : List Nat) : List UInt8 :=
  kTraitCookie ++ (others.flatMap (traitBytes target words numbers) ++ htonl 0)

lemma readTrainingFile_spec (isTarget : Target target words)
    (exactly : Exactly traits start (target.only []) messages) (good : kGoodTrait ∈ traits)
    (junk : kJunkTrait ∈ traits) (small : ∀ trait, numbers trait < 2 ^ 31) :
    ∃ store', start.readTrainingFile (trainingBytes target words numbers) =
        some (numbers kGoodTrait, numbers kJunkTrait, store') ∧
      Exactly traits store' (target.only [kJunkTrait, kGoodTrait]) messages := by
  have smallGood := small kGoodTrait
  have smallJunk := small kJunkTrait
  have cookieRead := fread_item kMagicCookie (by decide)
    (htonl (numbers kGoodTrait) ++ (htonl (numbers kJunkTrait) ++
      (tokenBytes target words kGoodTrait ++ tokenBytes target words kJunkTrait)))
  have goodRead := readUInt32_htonl (numbers kGoodTrait) (by omega)
    (htonl (numbers kJunkTrait) ++
      (tokenBytes target words kGoodTrait ++ tokenBytes target words kJunkTrait))
  have junkRead := readUInt32_htonl (numbers kJunkTrait) (by omega)
    (tokenBytes target words kGoodTrait ++ tokenBytes target words kJunkTrait)
  have within : (tokenBytes target words kGoodTrait ++
      tokenBytes target words kJunkTrait).length ≤ (trainingBytes target words numbers).length := by
    simp only [trainingBytes, length_append]
    omega
  have withinToo : (tokenBytes target words kJunkTrait ++ []).length ≤
      (trainingBytes target words numbers).length := by
    simp only [trainingBytes, length_append, length_nil]
    omega
  obtain ⟨first, readFirst, exactlyFirst⟩ :=
    readTokens_spec isTarget exactly good not_mem_nil within
  obtain ⟨second, readSecond, exactlySecond⟩ :=
    readTokens_spec isTarget exactlyFirst junk (by decide) withinToo
  rw [append_nil] at readSecond
  refine ⟨second, ?_, exactlySecond⟩
  rw [readTrainingFile]
  have opened : fread 4 (trainingBytes target words numbers) = _ := cookieRead
  simp only [opened, if_true, goodRead, junkRead, readFirst, readSecond, bind_eq_bind,
    bind_some]
  rfl

lemma length_le_traitBytes (target : Counts) (words : Nat → List Word) (numbers : Nat → Nat)
    (others : List Nat) :
    others.length ≤ (others.flatMap (traitBytes target words numbers)).length := by
  induction others with
  | nil => exact Nat.le_refl 0
  | cons trait rest ih =>
    rw [flatMap_cons, length_append, length_cons, traitBytes, length_append,
      length_htonl]
    omega

lemma updateData_spec {done others : List Nat} (isTarget : Target target words)
    (exactly : Exactly traits start (target.only done) messages)
    (known : ∀ trait ∈ others, trait ∈ traits) (once : others.Nodup)
    (new : ∀ trait ∈ others, trait ∉ done ∧ messages trait = 0)
    (storable : ∀ trait ∈ others, trait ≠ 0 ∧ trait < 2 ^ 32 ∧ numbers trait < 2 ^ 32) :
    ∃ store', start.updateData (traitFileBytes target words numbers others) true [] [] =
        some store' ∧
      Exactly traits store' (target.only (others.reverse ++ done))
        (fillMessages messages numbers others) := by
  have cookieRead := fread_item kTraitCookie (by decide)
    (others.flatMap (traitBytes target words numbers) ++ htonl 0)
  have atLeast := length_le_traitBytes target words numbers others
  have size : (traitFileBytes target words numbers others).length =
      4 + (others.flatMap (traitBytes target words numbers)).length + 4 := by
    simp only [traitFileBytes, length_append, length_htonl]
    exact (Nat.add_assoc _ _ _).symm
  have within : (others.flatMap (traitBytes target words numbers) ++ htonl 0).length ≤
      (traitFileBytes target words numbers others).length := by
    rw [size, length_append, length_htonl]
    omega
  have enough : others.length < (traitFileBytes target words numbers others).length := by
    omega
  obtain ⟨store', ran, exactly'⟩ :=
    updateTraits_spec isTarget others exactly known once new storable within enough
  refine ⟨store', ?_, exactly'⟩
  have opened : fread 4 (traitFileBytes target words numbers others) = _ := cookieRead
  rw [updateData, opened]
  exact ran

/-- An empty corpus gets the counts that two written files have. -/
theorem readTrainingData_spec {training traitFile : OutStream} (isTarget : Target target words)
    (empty : Exactly traits start (fun _ _ => 0) fun _ => 0) (good : kGoodTrait ∈ traits)
    (junk : kJunkTrait ∈ traits) (known : ∀ trait ∈ others, trait ∈ traits) (once : others.Nodup)
    (isOther : ∀ trait ∈ others, trait ≠ kGoodTrait ∧ trait ≠ kJunkTrait)
    (ids : ∀ trait ∈ others, trait ≠ 0 ∧ trait < 2 ^ 32) (small : ∀ trait, numbers trait < 2 ^ 31)
    (trained : training.content = trainingBytes target words numbers)
    (traited : traitFile.content = traitFileBytes target words numbers others) :
    ∃ after, start.readTrainingData { training := training, traits := traitFile } = some after ∧
      Exactly traits after (target.only (others.reverse ++ [kJunkTrait, kGoodTrait]))
        (fillMessages (Function.update (Function.update (fun _ => 0) kGoodTrait
          (numbers kGoodTrait)) kJunkTrait (numbers kJunkTrait)) numbers others) := by
  have nothing : target.only [] = fun _ _ => 0 := by
    funext word trait
    simp [Counts.only]
  rw [← nothing] at empty
  obtain ⟨first, readFirst, exactlyFirst⟩ := readTrainingFile_spec isTarget empty good junk small
  have counted := (exactlyFirst.setMessageCount kGoodTrait (numbers kGoodTrait)).setMessageCount
    kJunkTrait (numbers kJunkTrait)
  obtain ⟨after, ran, exactly⟩ := updateData_spec isTarget counted known once
    (fun trait mem => by
      obtain ⟨notGood, notJunk⟩ := isOther trait mem
      refine ⟨by simp [notGood, notJunk], ?_⟩
      rw [update_of_ne notJunk, update_of_ne notGood])
    fun trait mem => ⟨(ids trait mem).1, (ids trait mem).2,
      Nat.lt_trans (small trait) (by decide)⟩
  refine ⟨after, ?_, exactly⟩
  simp only [readTrainingData, trained, traited, readFirst, bind_eq_bind, bind_some,
    ran]

end Files

end CorpusStore

end CommCentral.Junk
