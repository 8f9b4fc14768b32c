import CommCentral.Lib.Decision
import CommCentral.Lib.ArrayChain
import Mathlib

/-! The counts of the words that junk training has seen, for each trait of a message. -/
namespace CommCentral.Junk

abbrev Word := List UInt8

structure TraitPerToken where
  id : Nat
  count : Nat
  nextLink : Nat := 0
  deriving DecidableEq

/-- `CorpusStore`. `traitLink` is the token table: the link of each word that has a token. -/
structure CorpusStore where
  traitLink : Word → Option Nat := fun _ => none
  traitStore : List TraitPerToken := [⟨0, 0, 0⟩]
  nextTraitIndex : Nat := 1
  messageCounts : List Nat := []
  messageCountsId : List Nat := []

/-- A number of 32 bits as `int32_t`. -/
def toInt32 (number : Int) : Int := Int.bmod number (2 ^ 32)

/-- The sum of two `int32_t`, undefined if it is none. -/
def addInt32 (left right : Int) : Option Int :=
  if -2 ^ 31 ≤ left + right ∧ left + right < 2 ^ 31 then some (left + right) else none

/-- A count after a change, which does not go below 0. -/
def changedCount (count : Nat) (countChange : Int) : Option Nat :=
  (addInt32 (toInt32 count) countChange).map fun sum =>
    if 0 < sum then ((count + countChange) % 2 ^ 32).toNat else 0

/-- What the loop over the traits of a token finds: the trait, the last of the others, or more
links than there should be. -/
inductive TraitSearch
  | found (index : Nat) (traitPT : TraitPerToken)
  | missing (lastLink : Nat)
  | tooMany

def maxLinks : Nat := 100

/-- The loop over the traits of a token. There is no result for a link out of the store. -/
def findTrait (traitStore : List TraitPerToken) (traitId : Nat) :
    (links nextLink lastLink : Nat) → Option TraitSearch
  | 0, _, _ => some .tooMany
  | links + 1, nextLink, lastLink =>
    if nextLink = 0 then some (.missing lastLink)
    else
      traitStore[nextLink]?.bind fun traitPT =>
        if traitPT.id = traitId then some (.found nextLink traitPT)
        else findTrait traitStore traitId links traitPT.nextLink nextLink

namespace CorpusStore

variable (store : CorpusStore)

/-- `mTraitStore[index] = traitPT` -/
def setTrait (index : Nat) (traitPT : TraitPerToken) : CorpusStore :=
  { store with traitStore := store.traitStore.set index traitPT }

/-- A trait that a token does not have yet is put into the store and linked. -/
def addTrait (word : Word) (lastLink traitId count : Nat) : Option CorpusStore :=
  if store.nextTraitIndex ≤ store.traitStore.length then do
    let traitPT : TraitPerToken := { id := traitId, count := count }
    let store' : CorpusStore :=
      { store with
        traitStore :=
          if store.traitStore.length = store.nextTraitIndex then store.traitStore ++ [traitPT]
          else store.traitStore.set store.nextTraitIndex traitPT
        nextTraitIndex := store.nextTraitIndex + 1 }
    if lastLink ≠ 0 then do
      let last ← store'.traitStore[lastLink]?
      return store'.setTrait lastLink { last with nextLink := store.nextTraitIndex }
    else
      return { store' with
        traitLink := Function.update store'.traitLink word (some store.nextTraitIndex) }
  else some store

def updateTrait (word : Word) (traitLink traitId : Nat) (countChange : Int) :
    Option CorpusStore := do
  match ← findTrait store.traitStore traitId maxLinks traitLink 0 with
  | .found index traitPT =>
    (changedCount traitPT.count countChange).map fun count =>
      store.setTrait index { traitPT with count := count }
  | .missing lastLink =>
    if 0 < countChange then store.addTrait word lastLink traitId countChange.toNat
    else some store
  | .tooMany => some store

def getTraitCount (word : Word) (traitId : Nat) : Option Nat := do
  match store.traitLink word with
  | none => return 0
  | some traitLink =>
    if traitLink = 0 then return 0
    match ← findTrait store.traitStore traitId maxLinks traitLink 0 with
    | .found _ traitPT => return traitPT.count
    | _ => return 0

/-- A word gets a token if it has none. No token is made for the empty word. -/
def add (word : Word) (traitId count : Nat) : Option CorpusStore :=
  if word = [] then some store
  else
    match store.traitLink word with
    | some traitLink => store.updateTrait word traitLink traitId (toInt32 count)
    | none =>
      { store with traitLink := Function.update store.traitLink word (some 0) }.updateTrait word 0
        traitId (toInt32 count)

def remove (word : Word) (traitId count : Nat) : Option CorpusStore :=
  match store.traitLink word with
  | some traitLink => store.updateTrait word traitLink traitId (-toInt32 count)
  | none => some store

def forgetTokens (tokens : List Word) (traitId count : Nat) : Option CorpusStore :=
  tokens.foldlM (fun store word => store.remove word traitId count) store

def rememberTokens (tokens : List Word) (traitId count : Nat) : Option CorpusStore :=
  tokens.foldlM (fun store word => store.add word traitId count) store

def getMessageCount (traitId : Nat) : Nat :=
  match store.messageCountsId.idxOf? traitId with
  | none => 0
  | some index => store.messageCounts.getD index 0

def setMessageCount (traitId count : Nat) : CorpusStore :=
  match store.messageCountsId.idxOf? traitId with
  | none => { store with
      messageCounts := store.messageCounts ++ [count]
      messageCountsId := store.messageCountsId ++ [traitId] }
  | some index => { store with messageCounts := store.messageCounts.set index count }

end CorpusStore

/-- What `nsBayesianFilter` keeps of its training. -/
structure BayesianFilter where
  corpus : CorpusStore := {}
  trainingDataDirty : Bool := false

namespace BayesianFilter

variable (filter : BayesianFilter)

/-- A message is no longer counted for a trait. -/
def forgetTrait (tokens : List Word) (newClassifications : List Nat) (trait : Nat) :
    Option BayesianFilter :=
  if trait ∈ newClassifications then some filter
  else
    let messageCount := filter.corpus.getMessageCount trait
    if 0 < messageCount then do
      let corpus ← (filter.corpus.setMessageCount trait (messageCount - 1)).forgetTokens tokens
        trait 1
      return { corpus := corpus, trainingDataDirty := true }
    else some filter

def rememberTrait (tokens : List Word) (trait : Nat) : Option BayesianFilter := do
  let messageCount := (filter.corpus.getMessageCount trait + 1) % 2 ^ 32
  let corpus ← (filter.corpus.setMessageCount trait messageCount).rememberTokens tokens trait 1
  return { corpus := corpus, trainingDataDirty := true }

/-- `observeMessage`, before the listeners are called. -/
def observeMessage (tokens : List Word) (oldClassifications newClassifications : List Nat) :
    Option BayesianFilter := do
  let filter ← oldClassifications.foldlM
    (fun filter trait => forgetTrait filter tokens newClassifications trait) filter
  newClassifications.foldlM (fun filter trait => rememberTrait filter tokens trait) filter

end BayesianFilter

/-- The status and percentage that a junk listener gets: those of the last of the traits
`GOOD_TRAIT` and `JUNK_TRAIT`. -/
def classifiedAs (newClassifications : List Nat) : Nat × Nat :=
  newClassifications.foldl (fun status trait =>
    if trait = 2 then (2, 100) else if trait = 1 then (1, 0) else status) (0, 0)

end CommCentral.Junk
