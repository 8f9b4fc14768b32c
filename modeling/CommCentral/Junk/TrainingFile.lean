import CommCentral.Junk.CorpusStore
import CommCentral.Lib.ChunkWriter

/-! The training file and the trait file: how the corpus is written to them and read back. -/
namespace CommCentral.Junk

open Lib List

def kGoodTrait : Nat := 1
def kJunkTrait : Nat := 2
def kMagicCookie : List UInt8 := [0xFE, 0xED, 0xFA, 0xCE]
def kTraitCookie : List UInt8 := [0xFC, 0xA9, 0x36, 0x01]

/-- A `uint32_t` in the byte order of the network. -/
def htonl (value : Nat) : List UInt8 :=
  [UInt8.ofNat (value / 2 ^ 24), UInt8.ofNat (value / 2 ^ 16), UInt8.ofNat (value / 2 ^ 8),
    UInt8.ofNat value]

def ntohl (bytes : List UInt8) : Nat := bytes.foldl (fun value byte => value * 2 ^ 8 + byte.toNat) 0

/-- `fwrite` of one item, which is no success for an item of no bytes. -/
def fwrite (faults : Faults) (item : List UInt8) : Writer :=
  if item = [] then fun stream => (false, stream) else .put faults item

def writeUInt32 (faults : Faults) (value : Nat) : Writer := fwrite faults (htonl value)

/-- `fread` of one item, with the bytes that are left in the file. -/
def fread (size : Nat) (rest : List UInt8) : Option (List UInt8) × List UInt8 :=
  if size = 0 then (none, rest)
  else if size ≤ rest.length then (some (rest.take size), rest.drop size)
  else (none, [])

def readUInt32 (rest : List UInt8) : Option Nat × List UInt8 :=
  ((fread 4 rest).1.map ntohl, (fread 4 rest).2)

/-- The size that the word buffer of `readTokens` gets, which is doubled as a `uint32_t`. It
gives up at 0. -/
def growWordBuffer (size : Nat) : (doublings bufferSize : Nat) → Option Nat
  | 0, bufferSize => if bufferSize ≤ size then none else some bufferSize
  | doublings + 1, bufferSize =>
    if bufferSize ≤ size then
      let doubled := bufferSize * 2 % 2 ^ 32
      if doubled = 0 then none else growWordBuffer size doublings doubled
    else some bufferSize

namespace CorpusStore

variable (store : CorpusStore)

/-- The words of the token table, in the order of its slots. -/
structure TokenEnumeration where
  words : List Word
  once : words.Nodup
  nonempty : [] ∉ words
  all : ∀ word, word ∈ words ↔ (store.traitLink word).isSome
  few : words.length < 2 ^ 32

/-- `getTraitCount`, where all links lead into the store. -/
def wordCount (word : Word) (traitId : Nat) : Nat := (store.getTraitCount word traitId).getD 0

/-- The loop of `writeTokens` that writes the entries. -/
def writeEntries (faults : Faults) (shrink : Bool) (traitId : Nat) : List Word → Writer
  | [] => .done
  | word :: rest =>
    let wordCount := store.wordCount word traitId
    let wordCount := if shrink then wordCount / 2 else wordCount
    if wordCount = 0 then writeEntries faults shrink traitId rest
    else
      (writeUInt32 faults wordCount).andThen <|
        (writeUInt32 faults word.length).andThen <|
          (fwrite faults word).andThen <| writeEntries faults shrink traitId rest

def writeTokens (faults : Faults) (tokens : List Word) (shrink : Bool) (traitId : Nat) : Writer :=
  let newTokenCount := tokens.countP fun word =>
    (shrink && decide (store.wordCount word traitId > 1)) ||
      (!shrink && decide (store.wordCount word traitId ≠ 0))
  (writeUInt32 faults newTokenCount).andThen <|
    if newTokenCount > 0 then store.writeEntries faults shrink traitId tokens else .done

/-- The good and the junk trait. -/
def writeTrainingFile (faults : Faults) (tokens : List Word) (shrink : Bool) : Writer :=
  let shrinkFactor := if shrink then 2 else 1
  (fwrite faults kMagicCookie).andThen <|
    (writeUInt32 faults (store.getMessageCount kGoodTrait / shrinkFactor)).andThen <|
      (writeUInt32 faults (store.getMessageCount kJunkTrait / shrinkFactor)).andThen <|
        (store.writeTokens faults tokens shrink kGoodTrait).andThen <|
          store.writeTokens faults tokens shrink kJunkTrait

/-- The loop over the traits, with their numbers of messages. -/
def writeTraits (faults : Faults) (tokens : List Word) (shrink : Bool) :
    List (Nat × Nat) → Writer
  | [] => .done
  | (trait, messageCount) :: rest =>
    if trait = 1 ∨ trait = 2 then writeTraits faults tokens shrink rest
    else
      (writeUInt32 faults trait).andThen <|
        (writeUInt32 faults (messageCount / if shrink then 2 else 1)).andThen <|
          (store.writeTokens faults tokens shrink trait).andThen <|
            writeTraits faults tokens shrink rest

/-- The other traits. What the loop left in `error` is overwritten by the last write. -/
def writeTraitFile (faults : Faults) (tokens : List Word) (shrink : Bool) : Writer := fun stream =>
  let (_, stream) := ((fwrite faults kTraitCookie).andThen <|
    store.writeTraits faults tokens shrink (store.messageCountsId.zip store.messageCounts)) stream
  writeUInt32 faults 0 stream

/-- The two files in the profile; none is a file that does not exist. -/
structure TrainingFiles where
  training : Option OutStream := none
  traits : Option OutStream := none
  deriving DecidableEq

/-- A file that was written anew, and removed again after a failure. -/
def written (writer : Writer) : Option OutStream :=
  if (writer {}).1 then some (writer {}).2 else none

/-- The loop of `readTokens` over the announced tokens: if it got on, the store and the rest of
the file. -/
def readEntries (fileSize traitId : Nat) (isAdd : Bool) :
    (number bufferSize fpos : Nat) → CorpusStore → List UInt8 →
      Option (Bool × CorpusStore × List UInt8)
  | 0, _, _, store, rest => some (true, store, rest)
  | number + 1, bufferSize, fpos, store, rest =>
    match readUInt32 rest with
    | (none, rest) => some (true, store, rest)
    | (some count, rest) =>
      match readUInt32 rest with
      | (none, rest) => some (true, store, rest)
      | (some size, rest) =>
        if fileSize < fpos + 8 + size then some (false, store, rest)
        else
          match growWordBuffer size 32 bufferSize with
          | none => some (false, store, rest)
          | some bufferSize =>
            match fread size rest with
            | (none, rest) => some (true, store, rest)
            | (some bytes, rest) => do
              let word := bytes.takeWhile (· ≠ 0)
              let store ←
                if isAdd then store.add word traitId count else store.remove word traitId count
              readEntries fileSize traitId isAdd number bufferSize (fpos + 8 + size) store rest

def readTokens (fileSize : Nat) (traitId : Nat) (isAdd : Bool) (rest : List UInt8) :
    Option (Bool × CorpusStore × List UInt8) :=
  match readUInt32 rest with
  | (none, rest) => some (false, store, rest)
  | (some tokenCount, rest) =>
    readEntries fileSize traitId isAdd tokenCount 4096 (fileSize - rest.length) store rest

/-- The loop of `UpdateData` over the traits of a file; each turn reads at least a byte. -/
def updateTraits (fileSize : Nat) (isAdd : Bool) (fromTraits toTraits : List Nat) :
    Nat → CorpusStore → List UInt8 → Option CorpusStore
  | 0, store, _ => some store
  | fuel + 1, store, rest =>
    match readUInt32 rest with
    | (none, _) => some store
    | (some 0, _) => some store
    | (some fileTrait, rest) =>
      match readUInt32 rest with
      | (none, _) => some store
      | (some count, rest) => do
        let localTrait := (fromTraits.zip toTraits).foldl
          (fun localTrait (old, new) => if old = fileTrait then new else localTrait) fileTrait
        let messageCount := store.getMessageCount localTrait
        let messageCount :=
          if isAdd then (messageCount + count) % 2 ^ 32
          else if count > messageCount then 0
          else messageCount - count
        let (read, store, rest) ←
          (store.setMessageCount localTrait messageCount).readTokens fileSize localTrait isAdd rest
        if read then updateTraits fileSize isAdd fromTraits toTraits fuel store rest
        else some store

def updateData (file : List UInt8) (isAdd : Bool) (fromTraits toTraits : List Nat) :
    Option CorpusStore :=
  match fread 4 file with
  | (none, _) => some store
  | (some cookie, rest) =>
    if cookie = kTraitCookie then
      updateTraits file.length isAdd fromTraits toTraits file.length store rest
    else some store

/-- What `readTrainingData` takes out of the training file: the numbers of messages it read, and
the store with the words. -/
def readTrainingFile (file : List UInt8) : Option (Nat × Nat × CorpusStore) :=
  match fread 4 file with
  | (none, _) => some (0, 0, store)
  | (some cookie, rest) =>
    if cookie = kMagicCookie then
      match readUInt32 rest with
      | (none, _) => some (0, 0, store)
      | (some good, rest) =>
        match readUInt32 rest with
        | (none, _) => some (good, 0, store)
        | (some junk, rest) => do
          let (read, store, rest) ← store.readTokens file.length kGoodTrait true rest
          if read then do
            let (_, store, _) ← store.readTokens file.length kJunkTrait true rest
            return (good, junk, store)
          else return (good, junk, store)
    else some (0, 0, store)

def readTrainingData (files : TrainingFiles) : Option CorpusStore :=
  match files.training with
  | none => some store
  | some training => do
    let (good, junk, store) ← store.readTrainingFile training.content
    let store := (store.setMessageCount kGoodTrait good).setMessageCount kJunkTrait junk
    match files.traits with
    | none => some store
    | some traits => store.updateData traits.content true [] []

/-- `clearTokens` of the token table, and the numbers of messages set to 0. -/
def clearCounts : CorpusStore :=
  { store with
    traitLink := fun _ => none
    messageCounts := store.messageCounts.map fun _ => 0 }

/-- The two files that `writeTrainingData` leaves, where both can be opened. -/
def writeFiles (tokens : List Word) (shrink : Bool) (trainingFaults traitFaults : Faults) :
    TrainingFiles :=
  { training := written (store.writeTrainingFile trainingFaults tokens shrink)
    traits := written (store.writeTraitFile traitFaults tokens shrink) }

/-- The shrink flag of `writeTrainingData`. -/
def shrinks (tokens : List Word) (aMaximumTokenCount : Nat) : Bool :=
  decide (0 < aMaximumTokenCount ∧ aMaximumTokenCount < tokens.length)

def writeTrainingData (tokens : List Word) (aMaximumTokenCount : Nat)
    (trainingFaults traitFaults : Faults) : Option (TrainingFiles × CorpusStore) :=
  let shrink := shrinks tokens aMaximumTokenCount
  let files := store.writeFiles tokens shrink trainingFaults traitFaults
  if shrink then
    let store := if tokens.length ≠ 0 then store.clearCounts else store
    (store.readTrainingData files).map (files, ·)
  else some (files, store)

end CorpusStore

lemma htonl_ne_nil (value : Nat) : htonl value ≠ [] := cons_ne_nil _ _

lemma fwrite_eq (faults) (some : item ≠ []) : fwrite faults item = .putAll faults [item] := by
  rw [fwrite, if_neg some, Writer.putAll_singleton]

lemma writeUInt32_eq (faults) (value : Nat) :
    writeUInt32 faults value = .putAll faults [htonl value] :=
  fwrite_eq faults (htonl_ne_nil value)

namespace CorpusStore

variable (store : CorpusStore)

def writtenCount (shrink : Bool) (count : Nat) : Nat := if shrink then count / 2 else count

def entryChunks (shrink : Bool) (traitId : Nat) (word : Word) : List (List UInt8) :=
  let count := writtenCount shrink (store.wordCount word traitId)
  if count = 0 then [] else [htonl count, htonl word.length, word]

def writtenWords (tokens : List Word) (shrink : Bool) (traitId : Nat) : List Word :=
  tokens.filter fun word => writtenCount shrink (store.wordCount word traitId) ≠ 0

/-- The chunks of all entries for a trait, with their announced number. -/
def tokenChunks (tokens : List Word) (shrink : Bool) (traitId : Nat) : List (List UInt8) :=
  htonl (store.writtenWords tokens shrink traitId).length ::
    tokens.flatMap (store.entryChunks shrink traitId)

/-- The chunks of a trait other than the good and the junk one. -/
def traitChunks (tokens : List Word) (shrink : Bool) (trait : Nat × Nat) : List (List UInt8) :=
  if trait.1 = 1 ∨ trait.1 = 2 then []
  else
    htonl trait.1 :: htonl (writtenCount shrink trait.2) ::
      store.tokenChunks tokens shrink trait.1

def trainingFileChunks (tokens : List Word) (shrink : Bool) : List (List UInt8) :=
  [kMagicCookie, htonl (writtenCount shrink (store.getMessageCount kGoodTrait)),
      htonl (writtenCount shrink (store.getMessageCount kJunkTrait))] ++
    (store.tokenChunks tokens shrink kGoodTrait ++ store.tokenChunks tokens shrink kJunkTrait)

/-- The chunks of the trait file before the 0 that ends its list. -/
def traitFileChunks (tokens : List Word) (shrink : Bool) : List (List UInt8) :=
  kTraitCookie ::
    (store.messageCountsId.zip store.messageCounts).flatMap (store.traitChunks tokens shrink)

lemma div_shrinkFactor (shrink : Bool) (count : Nat) :
    (count / if shrink then 2 else 1) = writtenCount shrink count := by
  cases shrink <;> simp [writtenCount]

variable {tokens : List Word}

lemma writeEntries_eq (nonempty : [] ∉ tokens) :
    store.writeEntries faults shrink traitId tokens =
      .putAll faults (tokens.flatMap (store.entryChunks shrink traitId)) := by
  induction tokens with
  | nil => rfl
  | cons word rest ih =>
    have someWord : word ≠ [] := fun none => nonempty (none ▸ mem_cons_self)
    have others := ih fun mem => nonempty (mem_cons_of_mem _ mem)
    rw [writeEntries, flatMap_cons, others]
    change (if writtenCount shrink (store.wordCount word traitId) = 0 then _ else _) = _
    unfold entryChunks
    split
    · rename_i zero
      rw [if_pos zero]
      rfl
    · rename_i counted
      rw [if_neg counted, writeUInt32_eq, writeUInt32_eq, fwrite_eq faults someWord,
        ← Writer.putAll_append, ← Writer.putAll_append, ← Writer.putAll_append]
      rfl

/-- Both tests of `writeTokens` find the same words. -/
theorem counted_iff (count : Nat) :
    (shrink && decide (count > 1) || !shrink && decide (count ≠ 0)) =
      decide (writtenCount shrink count ≠ 0) := by
  cases shrink
  · simp [writtenCount]
  · simp only [writtenCount, Bool.true_and, Bool.not_true, Bool.false_and, Bool.or_false, if_true,
      decide_eq_decide]
    omega

section

variable (nonempty : [] ∉ tokens)
include nonempty

lemma writeTokens_eq :
    store.writeTokens faults tokens shrink traitId =
      .putAll faults (store.tokenChunks tokens shrink traitId) := by
  have number : (tokens.countP fun word =>
      (shrink && decide (store.wordCount word traitId > 1)) ||
        (!shrink && decide (store.wordCount word traitId ≠ 0))) =
        (store.writtenWords tokens shrink traitId).length := by
    rw [writtenWords, ← countP_eq_length_filter]
    apply countP_congr
    intro word _
    rw [counted_iff]
  have chunks : store.tokenChunks tokens shrink traitId =
      [htonl (store.writtenWords tokens shrink traitId).length] ++
        tokens.flatMap (store.entryChunks shrink traitId) := rfl
  rw [writeTokens, number, chunks, Writer.putAll_append, writeUInt32_eq]
  congr 1
  split
  · exact store.writeEntries_eq nonempty
  · rename_i none
    have noWords := eq_nil_of_length_eq_zero (Nat.eq_zero_of_not_pos none)
    have noEntries : tokens.flatMap (store.entryChunks shrink traitId) = [] := by
      apply flatMap_eq_nil_iff.mpr
      intro word mem
      have uncounted := filter_eq_nil_iff.mp noWords word mem
      exact if_pos (by simpa using uncounted)
    rw [noEntries]
    rfl

lemma writeTrainingFile_eq :
    store.writeTrainingFile faults tokens shrink =
      .putAll faults (store.trainingFileChunks tokens shrink) := by
  have cookie : fwrite faults kMagicCookie = .putAll faults [kMagicCookie] :=
    fwrite_eq faults (by decide)
  simp only [writeTrainingFile, div_shrinkFactor, cookie, writeUInt32_eq,
    store.writeTokens_eq nonempty, ← Writer.putAll_append]
  rfl

lemma writeTraits_eq (traits) :
    store.writeTraits faults tokens shrink traits =
      .putAll faults (traits.flatMap (store.traitChunks tokens shrink)) := by
  induction traits with
  | nil => rfl
  | cons trait rest ih =>
    rw [writeTraits, flatMap_cons, ih]
    unfold traitChunks
    split
    · rfl
    · simp only [div_shrinkFactor, writeUInt32_eq, store.writeTokens_eq nonempty,
        ← Writer.putAll_append]
      rfl

/-- The trait file: its chunks up to a failure, and then the 0 that alone decides. -/
theorem writeTraitFile_eq :
    store.writeTraitFile faults tokens shrink = fun stream =>
      Writer.put faults (htonl 0)
        (Writer.putAll faults (store.traitFileChunks tokens shrink) stream).2 := by
  have cookie : fwrite faults kTraitCookie = .putAll faults [kTraitCookie] :=
    fwrite_eq faults (by decide)
  funext stream
  simp only [writeTraitFile, cookie, store.writeTraits_eq nonempty, writeUInt32_eq,
    Writer.putAll_singleton]
  rfl

end

/-- A file that is left was written without a failure. -/
def LeftClean (faults : Faults) (file : Option OutStream) : Prop :=
  ∀ stream, file = some stream → ∀ index < stream.writes, faults index = none

lemma trainingFile_clean (faults : Faults) {tokens : List Word} (nonempty : [] ∉ tokens) :
    LeftClean faults (written (store.writeTrainingFile faults tokens shrink)) := by
  rw [store.writeTrainingFile_eq nonempty]
  intro stream left index inside
  unfold written at left
  split at left
  · rename_i succeeded
    cases left
    have good := Writer.putAll_written.mp succeeded index (by simpa using inside)
    simpa using good
  · cases left

/-- A failure before the last write to the trait file is forgotten if the next one succeeds. -/
theorem traitFile_clean_iff (faults : Faults) {tokens : List Word} (nonempty : [] ∉ tokens) :
    LeftClean faults (written (store.writeTraitFile faults tokens shrink)) ↔
      ∀ index < (store.traitFileChunks tokens shrink).length,
        (∀ earlier < index, faults earlier = none) → faults index ≠ none →
          faults (index + 1) ≠ none := by
  rw [store.writeTraitFile_eq nonempty]
  rcases Writer.good_or_bad faults 0 (store.traitFileChunks tokens shrink).length with
    good | ⟨index, inside, before, bad⟩
  · simp only [Nat.zero_add] at good
    refine iff_of_true ?_ fun index inside _ bad => absurd (good index inside) bad
    have all := Writer.putAll_good faults (store.traitFileChunks tokens shrink) {}
      (by simpa using good)
    intro stream left index counted
    simp only [written, all, Writer.put, Nat.zero_add] at left
    split at left
    · rename_i last
      simp only [if_true, Option.some.injEq] at left
      subst left
      rcases Nat.lt_succ_iff_lt_or_eq.mp counted with earlier | rfl
      · exact good index earlier
      · exact last
    · cases left
  · simp only [Nat.zero_add] at before bad
    obtain ⟨_, writes⟩ := Writer.putAll_bad {} inside
      (by simpa using before) (by simpa using bad)
    simp only [Nat.zero_add] at writes
    have decided : written (fun stream => Writer.put faults (htonl 0)
          (Writer.putAll faults (store.traitFileChunks tokens shrink) stream).2) =
        if faults (index + 1) = none then
          some (Writer.put faults (htonl 0)
            (Writer.putAll faults (store.traitFileChunks tokens shrink) {}).2).2
        else none := by
      simp only [written, Writer.put, writes]
      split
      · rename_i last
        rw [if_pos last]
        rfl
      · rename_i last
        simp [last]
    rw [decided]
    constructor
    · intro clean other within earlier isBad
      have same : other = index := by
        rcases Nat.lt_trichotomy other index with less | same | more
        · exact absurd (before other less) isBad
        · exact same
        · exact absurd (earlier index more) bad
      subst same
      intro last
      rw [if_pos last] at clean
      refine bad (clean _ rfl other ?_)
      simp only [Writer.put, writes, last]
      omega
    · intro condition stream left
      rw [if_neg (condition index inside before bad)] at left
      cases left

/-- No damaged file is left exactly when a failure in the trait file before its last write is
followed by another one. -/
theorem writeTrainingData_clean_iff (tokens : store.TokenEnumeration) (aMaximumTokenCount : Nat)
    (trainingFaults traitFaults : Faults) :
    (∀ files after,
        store.writeTrainingData tokens.words aMaximumTokenCount trainingFaults traitFaults =
          some (files, after) →
        files = store.writeFiles tokens.words (shrinks tokens.words aMaximumTokenCount)
          trainingFaults traitFaults) ∧
      ((LeftClean trainingFaults
            (store.writeFiles tokens.words (shrinks tokens.words aMaximumTokenCount)
              trainingFaults traitFaults).training ∧
          LeftClean traitFaults
            (store.writeFiles tokens.words (shrinks tokens.words aMaximumTokenCount)
              trainingFaults traitFaults).traits) ↔
        ∀ index < (store.traitFileChunks tokens.words
            (shrinks tokens.words aMaximumTokenCount)).length,
          (∀ earlier < index, traitFaults earlier = none) → traitFaults index ≠ none →
            traitFaults (index + 1) ≠ none) := by
  constructor
  · intro files after ran
    unfold writeTrainingData at ran
    dsimp only at ran
    split at ran
    · obtain ⟨_, _, same⟩ := Option.map_eq_some_iff.mp ran
      exact (congrArg Prod.fst same).symm
    · exact (congrArg Prod.fst (Option.some.inj ran)).symm
  · rw [← store.traitFile_clean_iff traitFaults tokens.nonempty]
    exact and_iff_right (store.trainingFile_clean trainingFaults tokens.nonempty)

/-- The first write to the trait file of an empty corpus fails, and the last one succeeds. -/
theorem writeTrainingData_damaged :
    ¬ ∀ (store : CorpusStore) (tokens : store.TokenEnumeration) (trainingFaults traitFaults),
      LeftClean trainingFaults
          (store.writeFiles tokens.words false trainingFaults traitFaults).training ∧
        LeftClean traitFaults
          (store.writeFiles tokens.words false trainingFaults traitFaults).traits := by
  intro clean
  let tokens : TokenEnumeration {} := ⟨[], nodup_nil, not_mem_nil, by simp, by simp⟩
  have left := (clean {} tokens (fun _ => none)
    (fun index => if index = 0 then some 0 else none)).2
  have bad := left { content := [0, 0, 0, 0], writes := 2 } (by decide) 0 (by decide)
  exact absurd bad (by decide)

end CorpusStore

end CommCentral.Junk
