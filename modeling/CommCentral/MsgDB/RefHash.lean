import CommCentral.Lib.Decision
import CommCentral.Lib.CountedKeys
import CommCentral.Lib.Run
import CommCentral.MsgDB.MsgEnumerator
import CommCentral.MsgDB.References
import Mathlib

/-! The hash of the references of the headers in a database (`m_msgReferences`), which is made when
it is needed first, and what keeps it up to date. -/
namespace CommCentral.MsgDB.RefHash

open Lib List

/-- What the hash depends on of a header, with the list of its references. -/
structure MsgHdr where
  key : UInt32
  flags : UInt32
  threadId : UInt32
  references : List Bytes
  nonempty : ∀ reference ∈ references, reference ≠ []
deriving DecidableEq

namespace MsgHdr

/-- The header of a row with this text of its references. -/
def ofRow (key flags threadId : UInt32) (references messageId : Bytes) : MsgHdr where
  key := key
  flags := flags
  threadId := threadId
  references := (parseReferences (references.length + 1) references messageId).getD []
  nonempty := by
    cases parsed : parseReferences (references.length + 1) references messageId with
    | none => exact fun _ none => absurd none not_mem_nil
    | some found => exact parseLoop_nonempty references messageId parsed

def numReferences (hdr : MsgHdr) : UInt16 := .ofNat hdr.references.length

/-- `GetStringReference`, which leaves the string empty where there is no such reference. -/
def getStringReference (hdr : MsgHdr) (refNum : Nat) : Bytes := hdr.references.getD refNum []

end MsgHdr

/-- The value is the key of a thread. -/
abbrev RefHashElement := Counted Bytes UInt32

structure Database where
  allMsgHeaders : List MsgHdr
  msgReferences : Option (List RefHashElement)
deriving DecidableEq

def addRefToHash (msgReferences : Option (List RefHashElement)) (reference : Bytes)
    (threadId : UInt32) : Option (List RefHashElement) :=
  msgReferences.map fun hash => increment hash reference threadId

def removeRefFromHash (msgReferences : Option (List RefHashElement)) (reference : Bytes) :
    Option (List RefHashElement) :=
  msgReferences.map fun hash => decrement hash reference

/-- The loop over the references of a header, which ends at an empty one. -/
def eachReference {Result : Type} (hdr : MsgHdr) (visit : Result → Bytes → Result) :
    (remaining i : Nat) → Result → Result
  | 0, _, result => result
  | remaining + 1, i, result =>
    let reference := hdr.getStringReference i
    if reference = [] then result
    else eachReference hdr visit remaining (i + 1) (visit result reference)

def addMsgRefsToHash (msgReferences : Option (List RefHashElement)) (msgHdr : MsgHdr) :
    Option (List RefHashElement) :=
  eachReference msgHdr (fun hash reference => addRefToHash hash reference msgHdr.threadId)
    msgHdr.numReferences.toNat 0 msgReferences

def removeMsgRefsFromHash (msgReferences : Option (List RefHashElement)) (msgHdr : MsgHdr) :
    Option (List RefHashElement) :=
  eachReference msgHdr removeRefFromHash msgHdr.numReferences.toNat 0 msgReferences

/-- The enumerator of `InitRefHash`, with `nsReferencesOnlyFilter`. -/
def withReferences (allMsgHeaders : List MsgHdr) : MsgEnumerator.Source MsgHdr where
  table := allMsgHeaders
  flags := MsgHdr.flags
  filter := some fun msg => msg.numReferences != 0

def initRefHash (db : Database) : Database :=
  { db with
    msgReferences := (visitAll (MsgEnumerator.call (withReferences db.allMsgHeaders))
      addMsgRefsToHash (db.allMsgHeaders.length + 1) MsgEnumerator.new (some [])).join }

/-- `GetRefFromHash`: the database, and the thread of the reference. -/
def getRefFromHash (db : Database) (reference : Bytes) : Database × Option UInt32 :=
  let db := if db.msgReferences = none then initRefHash db else db
  (db, db.msgReferences.bind fun hash => (itemAt Counted.key hash reference).map Counted.value)

/-- What `ThreadNewHdr` does: the references that it looks up, the thread of the header, and whether
it succeeds. -/
structure Threading where
  lookups : List Bytes
  threadId : UInt32
  succeeds : Bool

variable (useCorrectThreading : Bool)

def addNewHdrToDB (db : Database) (newHdr : MsgHdr) (threading : Threading) : Database :=
  if newHdr.key ∈ db.allMsgHeaders.map MsgHdr.key then db
  else
    let db := threading.lookups.foldl (fun db reference => (getRefFromHash db reference).1) db
    if threading.succeeds then
      let newHdr := { newHdr with threadId := threading.threadId }
      { allMsgHeaders := db.allMsgHeaders ++ [newHdr]
        msgReferences :=
          if useCorrectThreading then addMsgRefsToHash db.msgReferences newHdr
          else db.msgReferences }
    else db

def removeHeaderFromDB (db : Database) (msgHdr : MsgHdr) : Database where
  msgReferences :=
    if useCorrectThreading then removeMsgRefsFromHash db.msgReferences msgHdr
    else db.msgReferences
  allMsgHeaders := removeItem MsgHdr.key db.allMsgHeaders msgHdr.key

/-- The flags and the thread of a header may change while it is in the database. -/
def setFlagsAndThread (db : Database) (key flags threadId : UInt32) : Database :=
  { db with
    allMsgHeaders := db.allMsgHeaders.map fun hdr =>
      if hdr.key = key then { hdr with flags, threadId } else hdr }

inductive Step
  | getRefFromHash (reference : Bytes)
  | addNewHdrToDB (newHdr : MsgHdr) (threading : Threading)
  | removeHeaderFromDB (msgHdr : MsgHdr)
  | setFlagsAndThread (key flags threadId : UInt32)

def next (db : Database) : Step → Database
  | .getRefFromHash reference => (getRefFromHash db reference).1
  | .addNewHdrToDB newHdr threading => addNewHdrToDB useCorrectThreading db newHdr threading
  | .removeHeaderFromDB msgHdr => removeHeaderFromDB useCorrectThreading db msgHdr
  | .setFlagsAndThread key flags threadId => setFlagsAndThread db key flags threadId

lemma eachReference_eq {Result : Type} (hdr) (visit : Result → Bytes → Result) (remaining i : Nat)
    (result : Result) :
    eachReference hdr visit remaining i result =
      ((hdr.references.drop i).take remaining).foldl visit result := by
  induction remaining generalizing i result with
  | zero => rfl
  | succ remaining ih =>
    rw [eachReference, MsgHdr.getStringReference]
    by_cases inside : i < hdr.references.length
    · have found : hdr.references.getD i [] = hdr.references[i] := by
        rw [getD_eq_getElem?_getD, getElem?_eq_getElem inside, Option.getD_some]
      have nonempty := hdr.nonempty hdr.references[i] (getElem_mem inside)
      rw [found, if_neg nonempty, ih, drop_eq_getElem_cons inside, take_succ_cons,
        foldl_cons]
    · have beyond : hdr.references.getD i [] = [] := by
        rw [getD_eq_getElem?_getD, getElem?_eq_none (Nat.le_of_not_lt inside),
          Option.getD_none]
      rw [beyond, if_pos rfl, drop_eq_nil_of_le (Nat.le_of_not_lt inside), take_nil,
        foldl_nil]

/-- `GetNumReferences` counts all references. -/
def AllCounted (hdr : MsgHdr) : Prop := hdr.references.length < 2 ^ 16

instance (hdr : MsgHdr) : Decidable (AllCounted hdr) := inferInstanceAs (Decidable (_ < _))

lemma AllCounted.numReferences (counted : AllCounted hdr) :
    hdr.references.take hdr.numReferences.toNat = hdr.references := by
  have all : hdr.numReferences.toNat = hdr.references.length := UInt16.toNat_ofNat_of_lt' counted
  rw [all, take_length]

lemma addMsgRefsToHash_some (counted : AllCounted hdr) (hash) :
    addMsgRefsToHash (some hash) hdr =
      some (hdr.references.foldl (fun hash reference => increment hash reference hdr.threadId)
        hash) := by
  rw [addMsgRefsToHash, eachReference_eq, drop_zero, counted.numReferences]
  exact foldl_hom some fun _ _ => rfl

lemma removeMsgRefsFromHash_some (hdr) (hash) :
    removeMsgRefsFromHash (some hash) hdr =
      some ((hdr.references.take hdr.numReferences.toNat).foldl decrement hash) := by
  rw [removeMsgRefsFromHash, eachReference_eq, drop_zero]
  exact foldl_hom some fun _ _ => rfl

/-- Without a hash nothing is added or removed. -/
theorem eachReference_none (hdr : MsgHdr)
    {visit : Option (List RefHashElement) → Bytes → Option (List RefHashElement)}
    (keeps : ∀ reference, visit none reference = none) (remaining i : Nat) :
    eachReference hdr visit remaining i none = none := by
  induction remaining generalizing i with
  | zero => rfl
  | succ remaining ih =>
    rw [eachReference]
    split
    · rfl
    · rw [keeps]
      exact ih (i + 1)

def occurrences (headers : List MsgHdr) (reference : Bytes) : Nat :=
  timesIn (headers.flatMap MsgHdr.references) reference

/-- The headers that the enumerator passes over have nothing to add. -/
theorem initRefHash_eq (db : Database) :
    (initRefHash db).msgReferences = db.allMsgHeaders.foldl addMsgRefsToHash (some []) := by
  have iterates := MsgEnumerator.iteratesOver_yields (withReferences db.allMsgHeaders)
  have short : (MsgEnumerator.yields (withReferences db.allMsgHeaders) db.allMsgHeaders).length <
      db.allMsgHeaders.length + 1 := Nat.lt_succ_of_le (length_filter_le _ _)
  have visited := iterates.visitAll_eq addMsgRefsToHash short (some [])
  rw [initRefHash, visited, MsgEnumerator.yields, foldl_filter]
  change db.allMsgHeaders.foldl _ _ = _
  apply foldl_ext
  intro hash hdr _
  split
  · rfl
  · rename_i passed
    have none : hdr.numReferences = 0 := by
      simp only [MsgEnumerator.passesOver, withReferences, Option.any_some] at passed
      simp at passed
      exact passed.1
    rw [addMsgRefsToHash, none]
    rfl

lemma counts_addAll (counted : ∀ hdr ∈ headers, AllCounted hdr) {hash : List RefHashElement}
    {before : Bytes → Nat} (counts : Counts hash before) :
    ∃ filled, headers.foldl addMsgRefsToHash (some hash) = some filled ∧
      Counts filled fun reference => before reference + occurrences headers reference := by
  induction headers generalizing hash before with
  | nil => exact ⟨hash, rfl, counts⟩
  | cons hdr headers ih =>
    rw [forall_mem_cons] at counted
    obtain ⟨filled, same, later⟩ := ih counted.2 (counts.incrementAll hdr.references hdr.threadId)
    refine ⟨filled, ?_, ?_⟩
    · rw [foldl_cons, addMsgRefsToHash_some counted.1, same]
    · intro reference
      rw [later reference]
      simp only [occurrences, flatMap_cons, timesIn_append, Nat.add_assoc]

/-- The headers have different keys, and the hash, if there is one, counts their references. -/
structure Mirrors (db : Database) : Prop where
  distinct : (db.allMsgHeaders.map MsgHdr.key).Nodup
  counted : ∀ hdr ∈ db.allMsgHeaders, AllCounted hdr
  counts : ∀ hash, db.msgReferences = some hash → Counts hash (occurrences db.allMsgHeaders)

lemma initRefHash_counts (counted : ∀ hdr ∈ db.allMsgHeaders, AllCounted hdr) :
    ∃ hash, (initRefHash db).msgReferences = some hash ∧
      Counts hash (occurrences db.allMsgHeaders) := by
  obtain ⟨hash, same, counts⟩ := counts_addAll counted counts_nil
  refine ⟨hash, (initRefHash_eq db).trans same, ?_⟩
  simpa only [Nat.zero_add] using counts

lemma Mirrors.getRefFromHash (mirrors : Mirrors db) (reference : Bytes) :
    Mirrors (getRefFromHash db reference).1 ∧
      (RefHash.getRefFromHash db reference).1.allMsgHeaders = db.allMsgHeaders := by
  rw [RefHash.getRefFromHash]
  by_cases unmade : db.msgReferences = none
  · rw [if_pos unmade]
    refine ⟨⟨mirrors.distinct, mirrors.counted, ?_⟩, rfl⟩
    obtain ⟨made, same, counts⟩ := initRefHash_counts mirrors.counted
    intro hash found
    exact Option.some.inj (same.symm.trans found) ▸ counts
  · rw [if_neg unmade]
    exact ⟨mirrors, rfl⟩

lemma Mirrors.lookups (mirrors : Mirrors db) (lookups : List Bytes) :
    Mirrors (lookups.foldl (fun db reference => (RefHash.getRefFromHash db reference).1) db) ∧
      (lookups.foldl (fun db reference =>
        (RefHash.getRefFromHash db reference).1) db).allMsgHeaders = db.allMsgHeaders := by
  induction lookups generalizing db with
  | nil => exact ⟨mirrors, rfl⟩
  | cons reference lookups ih =>
    obtain ⟨next, same⟩ := mirrors.getRefFromHash reference
    obtain ⟨last, kept⟩ := ih next
    exact ⟨last, kept.trans same⟩

lemma Mirrors.addRow (mirrors : Mirrors db) (absent : hdr.key ∉ db.allMsgHeaders.map MsgHdr.key)
    (counted : AllCounted hdr) :
    Mirrors ⟨db.allMsgHeaders ++ [hdr], addMsgRefsToHash db.msgReferences hdr⟩ := by
  refine ⟨?_, ?_, ?_⟩
  · rw [map_append, map_singleton, ← concat_eq_append]
    exact mirrors.distinct.concat absent
  · rw [forall_mem_append, forall_mem_singleton]
    exact ⟨mirrors.counted, counted⟩
  · intro hash found
    cases made : db.msgReferences with
    | none =>
      rw [made, addMsgRefsToHash, eachReference_none hdr fun _ => rfl] at found
      cases found
    | some before =>
      rw [made, addMsgRefsToHash_some counted, Option.some.injEq] at found
      subst found
      have added := (mirrors.counts before made).incrementAll hdr.references hdr.threadId
      intro reference
      rw [added reference]
      simp only [occurrences, flatMap_append, timesIn_append, flatMap_singleton]

lemma Mirrors.addNewHdrToDB (mirrors : Mirrors db) (counted : AllCounted newHdr)
    (threading : Threading) : Mirrors (addNewHdrToDB true db newHdr threading) := by
  rw [RefHash.addNewHdrToDB]
  by_cases present : newHdr.key ∈ db.allMsgHeaders.map MsgHdr.key
  · rw [if_pos present]
    exact mirrors
  · rw [if_neg present]
    obtain ⟨threaded, same⟩ := mirrors.lookups threading.lookups
    dsimp only
    rw [← same] at present
    by_cases succeeds : threading.succeeds = true
    · rw [if_pos succeeds, if_pos rfl]
      exact threaded.addRow present counted
    · rw [if_neg succeeds]
      exact threaded

lemma occurrences_removeItem (distinct : (headers.map MsgHdr.key).Nodup) (mem : hdr ∈ headers)
    (reference) :
    occurrences (removeItem MsgHdr.key headers hdr.key) reference =
      occurrences headers reference - timesIn hdr.references reference := by
  obtain ⟨before, after, rfl⟩ := append_of_mem mem
  rw [removeItem_present distinct]
  simp only [occurrences, flatMap_append, flatMap_cons, timesIn_append]
  omega

/-- The header is in the table with its references, or none of them is a reference of another one
that the hash counts. -/
def Removable (db : Database) (msgHdr : MsgHdr) : Prop :=
  (∃ hdr ∈ db.allMsgHeaders, hdr.key = msgHdr.key ∧ hdr.references = msgHdr.references) ∨
    (msgHdr.key ∉ db.allMsgHeaders.map MsgHdr.key ∧
      (db.msgReferences = none ∨
        ∀ reference ∈ msgHdr.references, ∀ hdr ∈ db.allMsgHeaders, reference ∉ hdr.references))

/-- What is counted after the references are taken out. -/
theorem Mirrors.removeHeaderFromDB_counts (mirrors : Mirrors db) (msgHdr : MsgHdr)
    {hash : List RefHashElement}
    (found : (removeHeaderFromDB true db msgHdr).msgReferences = some hash) :
    Counts hash fun reference => occurrences db.allMsgHeaders reference -
      timesIn (msgHdr.references.take msgHdr.numReferences.toNat) reference := by
  change removeMsgRefsFromHash db.msgReferences msgHdr = some hash at found
  cases made : db.msgReferences with
  | none =>
    rw [made, removeMsgRefsFromHash, eachReference_none msgHdr fun _ => rfl] at found
    cases found
  | some before =>
    rw [made, removeMsgRefsFromHash_some, Option.some.injEq] at found
    subst found
    exact (mirrors.counts before made).decrementAll _

lemma Mirrors.removeHeaderFromDB (mirrors : Mirrors db) {msgHdr : MsgHdr}
    (removable : Removable db msgHdr) : Mirrors (removeHeaderFromDB true db msgHdr) := by
  have kept : ∀ hdr ∈ removeItem MsgHdr.key db.allMsgHeaders msgHdr.key,
      hdr ∈ db.allMsgHeaders := fun hdr mem => (mem_filter.mp mem).1
  refine ⟨?_, fun hdr mem => mirrors.counted hdr (kept hdr mem), ?_⟩
  · exact mirrors.distinct.sublist (filter_sublist.map MsgHdr.key)
  · intro hash found reference
    rw [mirrors.removeHeaderFromDB_counts msgHdr found reference]
    apply congrArg countedAs
    change _ - _ = occurrences (removeItem MsgHdr.key db.allMsgHeaders msgHdr.key) reference
    rcases removable with ⟨hdr, mem, isKey, same⟩ | ⟨absent, unmade | others⟩
    · have all : AllCounted msgHdr := by
        rw [AllCounted, ← same]
        exact mirrors.counted hdr mem
      rw [all.numReferences, ← isKey, occurrences_removeItem mirrors.distinct mem, same]
    · change removeMsgRefsFromHash db.msgReferences msgHdr = some hash at found
      rw [unmade, removeMsgRefsFromHash, eachReference_none msgHdr fun _ => rfl] at found
      cases found
    · rw [removeItem_absent absent]
      by_cases listed : reference ∈ msgHdr.references.take msgHdr.numReferences.toNat
      · have none : occurrences db.allMsgHeaders reference = 0 := by
          apply timesIn_eq_zero_iff.mpr
          intro mem
          obtain ⟨hdr, inTable, isReference⟩ := mem_flatMap.mp mem
          exact others reference (mem_of_mem_take listed) hdr inTable isReference
        rw [none, Nat.zero_sub]
      · rw [timesIn_eq_zero_iff.mpr listed, Nat.sub_zero]

lemma Mirrors.setFlagsAndThread (mirrors : Mirrors db)
    (key flags threadId : UInt32) : Mirrors (setFlagsAndThread db key flags threadId) := by
  have keys : (RefHash.setFlagsAndThread db key flags threadId).allMsgHeaders.map MsgHdr.key =
      db.allMsgHeaders.map MsgHdr.key := by
    rw [RefHash.setFlagsAndThread, map_map]
    apply map_congr_left
    intro hdr _
    rw [Function.comp_apply]
    split
    · rfl
    · rfl
  have references : (RefHash.setFlagsAndThread db key flags threadId).allMsgHeaders.map
      MsgHdr.references = db.allMsgHeaders.map MsgHdr.references := by
    rw [RefHash.setFlagsAndThread, map_map]
    apply map_congr_left
    intro hdr _
    rw [Function.comp_apply]
    split
    · rfl
    · rfl
  refine ⟨keys ▸ mirrors.distinct, ?_, ?_⟩
  · intro hdr mem
    have listed : hdr.references ∈ db.allMsgHeaders.map MsgHdr.references :=
      references ▸ mem_map_of_mem mem
    obtain ⟨other, inTable, same⟩ := mem_map.mp listed
    rw [AllCounted, ← same]
    exact mirrors.counted other inTable
  · intro hash found reference
    rw [mirrors.counts hash found reference, occurrences, occurrences, flatMap_def,
      flatMap_def, references]

/-- What keeps the hash up to date. -/
def Balanced (db : Database) : Step → Prop
  | .addNewHdrToDB newHdr _ => AllCounted newHdr
  | .removeHeaderFromDB msgHdr => Removable db msgHdr
  | .getRefFromHash _ => True
  | .setFlagsAndThread _ _ _ => True

lemma Mirrors.next (mirrors : Mirrors db) (step : Step)
    (balanced : Balanced db step) : Mirrors (next true db step) := by
  cases step with
  | getRefFromHash reference => exact (mirrors.getRefFromHash reference).1
  | addNewHdrToDB newHdr threading => exact mirrors.addNewHdrToDB balanced threading
  | removeHeaderFromDB msgHdr => exact mirrors.removeHeaderFromDB balanced
  | setFlagsAndThread key flags threadId => exact mirrors.setFlagsAndThread key flags threadId

/-- A database whose hash has not been made yet. -/
structure Opened (db : Database) : Prop where
  unmade : db.msgReferences = none
  distinct : (db.allMsgHeaders.map MsgHdr.key).Nodup
  counted : ∀ hdr ∈ db.allMsgHeaders, AllCounted hdr

/-- After any balanced steps the hash, if there is one, counts the references of the headers in the
table, as a hash that is made anew does. -/
theorem msgReferences_mirror {db : Database} (opened : Opened db) {steps : List Step}
    (balanced : Admissible (next true) Balanced db steps) {hash : List RefHashElement}
    (made : (run (next true) db steps).msgReferences = some hash) :
    (∀ reference, countOf hash reference =
        countedAs (occurrences (run (next true) db steps).allMsgHeaders reference)) ∧
      ∃ fresh, (initRefHash (run (next true) db steps)).msgReferences = some fresh ∧
        ∀ reference, countOf hash reference = countOf fresh reference := by
  have start : Mirrors db := by
    refine ⟨opened.distinct, opened.counted, ?_⟩
    intro hash found
    cases opened.unmade.symm.trans found
  have mirrors : Mirrors (run (next true) db steps) :=
    run_invariant (next true) Balanced (fun _ step mirrors => mirrors.next step) start balanced
  obtain ⟨fresh, madeAnew, counts⟩ := initRefHash_counts mirrors.counted
  refine ⟨mirrors.counts hash made, fresh, madeAnew, ?_⟩
  intro reference
  rw [mirrors.counts hash made reference, counts reference]

/-- A message with the reference `<a>`. -/
def answer (key : UInt32) : MsgHdr := .ofRow key 0 key [0x3C, 0x61, 0x3E] [0x62]

/-- Two answers are added, and the first one is removed. -/
def answered : List Step :=
  [.getRefFromHash [0x61], .addNewHdrToDB (answer 1) ⟨[[0x61]], 1, true⟩,
    .addNewHdrToDB (answer 2) ⟨[[0x61]], 1, true⟩, .removeHeaderFromDB (answer 1)]

theorem msgReferences_mirror_answered :
    (∀ reference, countOf [(⟨[0x61], 1, 1⟩ : RefHashElement)] reference =
        countedAs (occurrences (run (next true) ⟨[], none⟩ answered).allMsgHeaders reference)) ∧
      ∃ fresh, (initRefHash (run (next true) ⟨[], none⟩ answered)).msgReferences = some fresh ∧
        ∀ reference, countOf [(⟨[0x61], 1, 1⟩ : RefHashElement)] reference =
          countOf fresh reference := by
  have opened : Opened ⟨[], none⟩ := ⟨rfl, nodup_nil, fun _ none => (nomatch none)⟩
  have first : AllCounted (answer 1) := by decide
  have second : AllCounted (answer 2) := by decide
  have balanced : Admissible (next true) Balanced ⟨[], none⟩ answered := by
    refine ⟨trivial, first, second, .inl ⟨answer 1, ?_, rfl, rfl⟩, trivial⟩
    decide
  exact msgReferences_mirror opened balanced rfl

/-- A duplicate that was never put into the table is removed: the reference of the message that is
there is no longer in the hash. -/
theorem removeHeaderFromDB_duplicate :
    ¬ ∀ hash, (run (next true) ⟨[answer 1], none⟩
          [.getRefFromHash [0x61], .removeHeaderFromDB (answer 2)]).msgReferences = some hash →
        ∀ reference, countOf hash reference =
          countedAs (occurrences (run (next true) ⟨[answer 1], none⟩
            [.getRefFromHash [0x61], .removeHeaderFromDB (answer 2)]).allMsgHeaders reference) := by
  intro mirror
  exact absurd (mirror [] rfl [0x61]) (by decide)

end CommCentral.MsgDB.RefHash
