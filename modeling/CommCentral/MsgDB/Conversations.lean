import CommCentral.MsgDB.RefHash
import Mathlib.Data.List.Perm.Basic
import Mathlib.Logic.Relation

/-! The threads that `ThreadNewHdr` puts new headers in, with correct and strict threading on. -/
namespace CommCentral.MsgDB.Conversations

open Lib RefHash List

/-- A message with the list of its references. -/
structure Mail where
  key : UInt32
  messageId : Bytes
  references : List Bytes
  nonempty : ∀ reference ∈ references, reference ≠ []

instance : DecidableEq Mail := fun a b =>
  decidable_of_iff (a.key = b.key ∧ a.messageId = b.messageId ∧ a.references = b.references) (by
    cases a; cases b; simp)

structure Header extends Mail where
  flags : UInt32
  threadId : UInt32
deriving DecidableEq

/-- What the hash of the references reads of it. -/
def Header.toMsgHdr (hdr : Header) : RefHash.MsgHdr where
  key := hdr.key
  flags := hdr.flags
  threadId := hdr.threadId
  references := hdr.references
  nonempty := hdr.nonempty

/-- The headers in the table of all headers, the hash, and the keys of the threads that have a
table. -/
structure Database where
  allMsgHeaders : List Header
  msgReferences : Option (List RefHashElement)
  threads : List UInt32
deriving DecidableEq

def getRefFromHash (db : Database) (reference : Bytes) : Database × Option UInt32 :=
  let (hashed, threadId) :=
    RefHash.getRefFromHash ⟨db.allMsgHeaders.map Header.toMsgHdr, db.msgReferences⟩ reference
  ({ db with msgReferences := hashed.msgReferences }, threadId)

/-- The key of the thread, if it has a table. -/
def getThreadForThreadId (db : Database) (threadId : UInt32) : Option UInt32 :=
  if threadId ∈ db.threads then some threadId else none

/-- `FindRow` also finds the row of the new header. -/
def getMsgHdrForMessageID (db : Database) (newHdr : Header) (msgID : Bytes) : Option Header :=
  (db.allMsgHeaders ++ [newHdr]).find? fun hdr => hdr.messageId = msgID

/-- `GetThreadForReference`: the thread, and the header that has the id. -/
def getThreadForReference (db : Database) (newHdr : Header) (msgID : Bytes) :
    Database × Option UInt32 × Option Header :=
  match getMsgHdrForMessageID db newHdr msgID with
  | some msgHdr => (db, getThreadForThreadId db msgHdr.threadId, some msgHdr)
  | none =>
    let (db, threadId) := getRefFromHash db msgID
    (db, threadId.bind (getThreadForThreadId db), none)

def getThreadForMessageId (db : Database) (msgId : Bytes) : Database × Option UInt32 :=
  let (db, threadId) := getRefFromHash db msgId
  (db, threadId.bind (getThreadForThreadId db))

/-- The loop of `ThreadNewHdr` over the references, from the last one: the id of the message, which
is taken away where it claims to be a reply to itself, and the thread. -/
def referenceLoop (newHdr : Header) : (remaining : Nat) → Database →
    Database × Bytes × Option UInt32
  | 0, db => (db, newHdr.messageId, none)
  | i + 1, db =>
    let reference := newHdr.toMsgHdr.getStringReference i
    if reference = [] then (db, newHdr.messageId, none)
    else
      match getThreadForReference db newHdr reference with
      | (db, some thread, replyToHdr) =>
        if replyToHdr.any fun hdr => hdr.key = newHdr.key then (db, [], none)
        else (db, newHdr.messageId, some thread)
      | (db, none, _) => referenceLoop newHdr i db

/-- The key of a new thread: 1 is the id of the table of all headers. -/
def newThreadKey (key : UInt32) : UInt32 := if key = 1 then 0xFFFFFFFE else key

/-- `ThreadNewHdr`: the thread of the header. `AddChild`, which gives it its place there, is left
out. -/
def threadNewHdr (db : Database) (newHdr : Header) : Database × UInt32 :=
  match referenceLoop newHdr newHdr.toMsgHdr.numReferences.toNat db with
  | (db, _, some thread) => (db, thread)
  | (db, messageId, none) =>
    match getThreadForMessageId db messageId with
    | (db, some thread) => (db, thread)
    | (db, none) =>
      let threadKey := newThreadKey newHdr.key
      ({ db with threads := threadKey :: db.threads }, threadKey)

def addNewHdrToDB (db : Database) (newHdr : Header) : Database :=
  if newHdr.key ∈ db.allMsgHeaders.map (·.key) then db
  else
    let (db, threadId) := threadNewHdr db newHdr
    let newHdr := { newHdr with threadId }
    { db with
      allMsgHeaders := db.allMsgHeaders ++ [newHdr]
      msgReferences := addMsgRefsToHash db.msgReferences newHdr.toMsgHdr }

def getThreadId (db : Database) (key : UInt32) : Option UInt32 :=
  (db.allMsgHeaders.find? fun hdr => hdr.key = key).map Header.threadId

def Mail.listed (mail : Mail) : List Bytes := mail.references.take (mail.references.length % 2 ^ 16)

lemma listed_eq (hdr : Header) :
    hdr.references.take hdr.toMsgHdr.numReferences.toNat = hdr.listed := by
  rw [RefHash.MsgHdr.numReferences, UInt16.toNat_ofNat']
  rfl

/-- The hash has the references that the headers list, each with the thread of one of them. -/
structure Indexes (hash : List RefHashElement) (headers : List Header) : Prop where
  sound : ∀ reference threadId, valueOf hash reference = some threadId →
    ∃ hdr ∈ headers, reference ∈ hdr.listed ∧ hdr.threadId = threadId
  complete : ∀ hdr ∈ headers, ∀ reference ∈ hdr.listed, (valueOf hash reference).isSome

lemma Indexes.add {hash : List RefHashElement} (indexes : Indexes hash headers) (hdr : Header) :
    ∃ filled, addMsgRefsToHash (some hash) hdr.toMsgHdr = some filled ∧
      Indexes filled (headers ++ [hdr]) := by
  have filled : addMsgRefsToHash (some hash) hdr.toMsgHdr =
      some (hdr.listed.foldl (fun hash reference => increment hash reference hdr.threadId)
        hash) := by
    rw [addMsgRefsToHash, eachReference_eq, drop_zero]
    change (hdr.references.take _).foldl _ _ = _
    rw [listed_eq]
    exact foldl_hom some fun _ _ => rfl
  refine ⟨_, filled, ?_, ?_⟩
  · intro reference threadId found
    rw [valueOf_incrementAll] at found
    by_cases mem : reference ∈ hdr.listed
    · rw [if_pos mem, Option.some.injEq] at found
      cases before : valueOf hash reference with
      | none =>
        rw [before] at found
        exact ⟨hdr, mem_append_right _ (mem_singleton_self hdr), mem, found⟩
      | some value =>
        rw [before] at found
        obtain ⟨other, isOther, lists, same⟩ := indexes.sound reference value before
        exact ⟨other, mem_append_left _ isOther, lists, same.trans found⟩
    · rw [if_neg mem] at found
      obtain ⟨other, isOther, lists, same⟩ := indexes.sound reference threadId found
      exact ⟨other, mem_append_left _ isOther, lists, same⟩
  · intro other isOther reference lists
    rw [valueOf_incrementAll]
    split
    · rfl
    · rename_i absent
      rcases mem_append.mp isOther with before | isNew
      · exact indexes.complete other before reference lists
      · rw [mem_singleton.mp isNew] at lists
        exact absurd lists absent

lemma Indexes.addAll {hash : List RefHashElement} {headers : List Header}
    (indexes : Indexes hash headers) (others) :
    ∃ filled, (others.map Header.toMsgHdr).foldl addMsgRefsToHash (some hash) = some filled ∧
      Indexes filled (headers ++ others) := by
  induction others generalizing hash headers with
  | nil => exact ⟨hash, rfl, headers.append_nil.symm ▸ indexes⟩
  | cons hdr others ih =>
    obtain ⟨next, same, added⟩ := indexes.add hdr
    obtain ⟨filled, rest, all⟩ := ih added
    rw [append_assoc] at all
    exact ⟨filled, by rw [map_cons, foldl_cons, same, rest], all⟩

lemma indexes_nil : Indexes [] [] := ⟨nofun, nofun⟩

/-- What every new header keeps: the hash, if there is one, is right, and the threads of the headers
have tables. -/
structure Sound (db : Database) : Prop where
  indexed : ∀ hash, db.msgReferences = some hash → Indexes hash db.allMsgHeaders
  tables : ∀ hdr ∈ db.allMsgHeaders, hdr.threadId ∈ db.threads

lemma getRefFromHash_eq (sound : Sound db) (reference) :
    ∃ hash, Indexes hash db.allMsgHeaders ∧
      getRefFromHash db reference =
        ({ db with msgReferences := some hash }, valueOf hash reference) := by
  rw [getRefFromHash, RefHash.getRefFromHash]
  cases made : db.msgReferences with
  | none =>
    obtain ⟨hash, filled, indexes⟩ := indexes_nil.addAll db.allMsgHeaders
    refine ⟨hash, indexes, ?_⟩
    rw [← initRefHash_eq ⟨_, none⟩] at filled
    rw [if_pos rfl]
    dsimp only
    rw [filled]
    rfl
  | some hash =>
    refine ⟨hash, sound.indexed hash made, ?_⟩
    rw [if_neg (Option.some_ne_none hash)]
    rfl

/-- A look into the hash may have made it. -/
def Looked (db after : Database) : Prop :=
  Sound after ∧ ∃ msgReferences, after = { db with msgReferences }

lemma Looked.refl (sound : Sound db) : Looked db db := ⟨sound, _, rfl⟩

lemma Sound.looked (sound : Sound db) {hash : List RefHashElement}
    (indexes : Indexes hash db.allMsgHeaders) :
    Looked db { db with msgReferences := some hash } := by
  refine ⟨⟨?_, sound.tables⟩, _, rfl⟩
  intro other isHash
  exact Option.some.inj isHash ▸ indexes

lemma Sound.getThreadForThreadId (sound : Sound db) (mem : hdr ∈ db.allMsgHeaders) :
    getThreadForThreadId db hdr.threadId = some hdr.threadId := if_pos (sound.tables hdr mem)

lemma getThreadForMessageId_spec (sound : Sound db) (msgId) :
    Looked db (getThreadForMessageId db msgId).1 ∧
      (((getThreadForMessageId db msgId).2 = none ∧
          ∀ hdr ∈ db.allMsgHeaders, msgId ∉ hdr.listed) ∨
        ∃ hdr ∈ db.allMsgHeaders, msgId ∈ hdr.listed ∧
          (getThreadForMessageId db msgId).2 = some hdr.threadId) := by
  obtain ⟨hash, indexes, same⟩ := getRefFromHash_eq sound msgId
  have looked := sound.looked indexes
  rw [getThreadForMessageId, same]
  refine ⟨looked, ?_⟩
  cases found : valueOf hash msgId with
  | none =>
    refine .inl ⟨rfl, ?_⟩
    intro hdr mem lists
    have isSome := indexes.complete hdr mem msgId lists
    rw [found] at isSome
    cases isSome
  | some threadId =>
    obtain ⟨hdr, mem, lists, rfl⟩ := indexes.sound msgId threadId found
    exact .inr ⟨hdr, mem, lists, looked.1.getThreadForThreadId mem⟩

/-- A header has an id, or counts it among its references. -/
def Mail.Mentions (mail : Mail) (msgID : Bytes) : Prop :=
  mail.messageId = msgID ∨ msgID ∈ mail.listed

lemma getThreadForReference_spec (sound : Sound db)
    (fresh : newHdr.key ∉ db.allMsgHeaders.map (·.key)) (other : newHdr.messageId ≠ msgID) :
    ∃ after thread replyToHdr,
      getThreadForReference db newHdr msgID = (after, thread, replyToHdr) ∧ Looked db after ∧
        (∀ hdr ∈ replyToHdr, hdr.key ≠ newHdr.key) ∧
        ((thread = none ∧ ∀ hdr ∈ db.allMsgHeaders, ¬ hdr.Mentions msgID) ∨
          ∃ hdr ∈ db.allMsgHeaders, hdr.Mentions msgID ∧ thread = some hdr.threadId) := by
  rw [getThreadForReference]
  cases found : getMsgHdrForMessageID db newHdr msgID with
  | some msgHdr =>
    have isId := find?_some found
    have hasId : msgHdr.messageId = msgID := of_decide_eq_true isId
    have mem : msgHdr ∈ db.allMsgHeaders := by
      rcases mem_append.mp (mem_of_find?_eq_some found) with old | isNew
      · exact old
      · rw [mem_singleton.mp isNew] at hasId
        exact absurd hasId other
    refine ⟨db, _, _, rfl, .refl sound, ?_, .inr ⟨msgHdr, mem, .inl hasId, ?_⟩⟩
    · rintro _ ⟨⟩ same
      exact fresh (same ▸ mem_map_of_mem mem)
    · exact sound.getThreadForThreadId mem
  | none =>
    obtain ⟨looked, threads⟩ := getThreadForMessageId_spec sound msgID
    refine ⟨_, _, _, rfl, looked, nofun, ?_⟩
    rcases threads with ⟨none, unlisted⟩ | ⟨hdr, mem, lists, thread⟩
    · refine .inl ⟨none, ?_⟩
      rintro hdr mem (hasId | lists)
      · have absent := find?_eq_none.mp found hdr (mem_append_left _ mem)
        exact absent (decide_eq_true hasId)
      · exact unlisted hdr mem lists
    · exact .inr ⟨hdr, mem, .inr lists, thread⟩

lemma referenceLoop_spec (sound : Sound db) (fresh : newHdr.key ∉ db.allMsgHeaders.map (·.key))
    (notOwn : newHdr.messageId ∉ newHdr.references) {remaining : Nat}
    (inside : remaining ≤ newHdr.references.length) :
    ∃ after thread, referenceLoop newHdr remaining db = (after, newHdr.messageId, thread) ∧
      Looked db after ∧
      ((thread = none ∧ ∀ reference ∈ newHdr.references.take remaining,
          ∀ hdr ∈ db.allMsgHeaders, ¬ hdr.Mentions reference) ∨
        ∃ reference ∈ newHdr.references.take remaining, ∃ hdr ∈ db.allMsgHeaders,
          hdr.Mentions reference ∧ thread = some hdr.threadId) := by
  induction remaining generalizing db with
  | zero => exact ⟨db, none, rfl, .refl sound, .inl ⟨rfl, nofun⟩⟩
  | succ i ih =>
    have isReference : newHdr.toMsgHdr.getStringReference i = newHdr.references[i] := by
      rw [RefHash.MsgHdr.getStringReference, getD_eq_getElem?_getD]
      change newHdr.references[i]?.getD [] = _
      rw [getElem?_eq_getElem inside, Option.getD_some]
    have member := getElem_mem inside
    have earlier : newHdr.references.take (i + 1) =
        newHdr.references.take i ++ [newHdr.references[i]] :=
      take_succ_eq_append_getElem inside
    have isOther : newHdr.messageId ≠ newHdr.references[i] := fun same => notOwn (same ▸ member)
    obtain ⟨next, thread, replyToHdr, found, looked, notSelf, threads⟩ :=
      getThreadForReference_spec sound fresh isOther
    rw [referenceLoop, isReference, if_neg (newHdr.nonempty _ member), found, earlier]
    rcases threads with ⟨rfl, unmentioned⟩ | ⟨hdr, isHdr, mentions, rfl⟩
    · obtain ⟨nextSound, msgReferences, rfl⟩ := looked
      obtain ⟨after, thread, goesOn, later, threads⟩ :=
        ih nextSound fresh (Nat.le_of_succ_le inside)
      refine ⟨after, thread, goesOn, later, ?_⟩
      rcases threads with ⟨none, others⟩ | ⟨reference, listed, found⟩
      · refine .inl ⟨none, forall_mem_append.mpr ⟨others, ?_⟩⟩
        exact forall_mem_singleton.mpr unmentioned
      · exact .inr ⟨reference, mem_append_left _ listed, found⟩
    · have kept : (replyToHdr.any fun hdr => hdr.key = newHdr.key) = false := by
        cases replyToHdr with
        | none => rfl
        | some hdr => exact decide_eq_false (notSelf hdr rfl)
      refine ⟨next, some hdr.threadId, ?_, looked, .inr ⟨_, ?_, hdr, isHdr, mentions, rfl⟩⟩
      · dsimp only
        rw [kept]
        rfl
      · exact mem_append_right _ (mem_singleton_self _)

/-- The new header counts a reference that the other one mentions, or is counted by it. -/
def Linked (mail newMail : Mail) : Prop :=
  (∃ reference ∈ newMail.listed, mail.Mentions reference) ∨ newMail.messageId ∈ mail.listed

/-- The thread is that of a header to which there is a link, or a new one if there is none. -/
def Threads (db : Database) (newHdr : Header) (threadId : UInt32) : Prop :=
  (∃ hdr ∈ db.allMsgHeaders, Linked hdr.toMail newHdr.toMail ∧ threadId = hdr.threadId) ∨
    (∀ hdr ∈ db.allMsgHeaders, ¬ Linked hdr.toMail newHdr.toMail) ∧
      threadId = newThreadKey newHdr.key

lemma threadNewHdr_spec (sound : Sound db) (fresh : newHdr.key ∉ db.allMsgHeaders.map (·.key))
    (notOwn : newHdr.messageId ∉ newHdr.references) :
    ∃ after threadId, threadNewHdr db newHdr = (after, threadId) ∧
      after.allMsgHeaders = db.allMsgHeaders ∧ Sound after ∧ threadId ∈ after.threads ∧
      Threads db newHdr threadId := by
  have count : newHdr.toMsgHdr.numReferences.toNat ≤ newHdr.references.length := by
    rw [RefHash.MsgHdr.numReferences, UInt16.toNat_ofNat']
    exact Nat.mod_le _ _
  obtain ⟨next, thread, found, ⟨nextSound, msgReferences, rfl⟩, threads⟩ :=
    referenceLoop_spec sound fresh notOwn count
  rw [listed_eq] at threads
  rw [threadNewHdr, found]
  rcases threads with ⟨rfl, unmentioned⟩ | ⟨reference, listed, hdr, mem, mentions, rfl⟩
  · obtain ⟨⟨afterSound, msgReferences, after⟩, threads⟩ :=
      getThreadForMessageId_spec nextSound newHdr.messageId
    dsimp only
    generalize getThreadForMessageId _ newHdr.messageId = looking at after threads afterSound ⊢
    obtain ⟨after, thread⟩ := looking
    dsimp only at after threads afterSound
    subst after
    rcases threads with ⟨rfl, unlisted⟩ | ⟨hdr, mem, lists, rfl⟩
    · refine ⟨_, _, rfl, rfl, ⟨afterSound.indexed, ?_⟩, mem_cons_self, .inr ⟨?_, rfl⟩⟩
      · exact fun hdr mem => mem_cons_of_mem _ (afterSound.tables hdr mem)
      · rintro hdr mem (⟨reference, listed, mentions⟩ | lists)
        · exact unmentioned reference listed hdr mem mentions
        · exact unlisted hdr mem lists
    · exact ⟨_, _, rfl, rfl, afterSound, sound.tables hdr mem,
        .inl ⟨hdr, mem, .inr lists, rfl⟩⟩
  · exact ⟨_, _, rfl, rfl, nextSound, sound.tables hdr mem,
      .inl ⟨hdr, mem, .inl ⟨reference, listed, mentions⟩, rfl⟩⟩

lemma addNewHdrToDB_spec (sound : Sound db) (fresh : newHdr.key ∉ db.allMsgHeaders.map (·.key))
    (notOwn : newHdr.messageId ∉ newHdr.references) :
    Sound (addNewHdrToDB db newHdr) ∧ ∃ threadId, Threads db newHdr threadId ∧
      (addNewHdrToDB db newHdr).allMsgHeaders =
        db.allMsgHeaders ++ [{ newHdr with threadId }] := by
  obtain ⟨after, threadId, threaded, same, afterSound, table, threads⟩ :=
    threadNewHdr_spec sound fresh notOwn
  rw [addNewHdrToDB, if_neg fresh, threaded]
  refine ⟨⟨?_, ?_⟩, threadId, threads, congrArg (· ++ _) same⟩
  · intro hash isHash
    dsimp only at isHash ⊢
    cases made : after.msgReferences with
    | none =>
      rw [made, addMsgRefsToHash, eachReference_none _ fun _ => rfl] at isHash
      cases isHash
    | some before =>
      obtain ⟨filled, added, indexes⟩ :=
        (afterSound.indexed before made).add { newHdr with threadId }
      rw [made, added, Option.some.injEq] at isHash
      exact isHash ▸ indexes
  · intro hdr mem
    rcases mem_append.mp mem with old | isNew
    · exact afterSound.tables hdr old
    · exact mem_singleton.mp isNew ▸ table

def RepliesTo (reply parent : Mail) : Prop :=
  reply.references = parent.references ++ [parent.messageId]

/-- Messages with different keys and ids, each of which begins a conversation or is a reply in one.
`nsMsgKey_None` is no key. -/
structure Forest (mails : List Mail) : Prop where
  keys : (mails.map Mail.key).Nodup
  real : ∀ mail ∈ mails, mail.key ≠ 0xFFFFFFFF
  ids : (mails.map Mail.messageId).Nodup
  replies : ∀ mail ∈ mails, mail.references = [] ∨ ∃ parent ∈ mails, RepliesTo mail parent

def SameConversation (mails : List Mail) : Mail → Mail → Prop :=
  Relation.EqvGen fun reply parent => reply ∈ mails ∧ parent ∈ mails ∧ RepliesTo reply parent

/-- The id of the message that begins the conversation. -/
def Mail.firstId (mail : Mail) : Bytes := mail.references.headD mail.messageId

lemma RepliesTo.firstId_eq {reply parent : Mail} (replies : RepliesTo reply parent) :
    reply.firstId = parent.firstId := by
  rw [Mail.firstId, Mail.firstId, replies]
  cases parent.references with
  | nil => rfl
  | cons first others => rfl

lemma SameConversation.firstId_eq {mails : List Mail} {mail other : Mail}
    (same : SameConversation mails mail other) : mail.firstId = other.firstId := by
  induction same with
  | rel reply parent step => exact step.2.2.firstId_eq
  | refl => rfl
  | symm _ _ _ ih => exact ih.symm
  | trans _ _ _ _ _ ih later => exact ih.trans later

lemma RepliesTo.length_eq (replies : RepliesTo reply parent) :
    reply.references.length = parent.references.length + 1 := by
  rw [replies, length_append, length_singleton]

namespace Forest

variable (forest : Forest mails)
include forest

section

variable (mem : mail ∈ mails)
include mem

lemma eq_of_id (isOther : other ∈ mails) (same : mail.messageId = other.messageId) :
    mail = other :=
  inj_on_of_nodup_map forest.ids mem isOther same

lemma eq_of_key (isOther : other ∈ mails) (same : mail.key = other.key) : mail = other :=
  inj_on_of_nodup_map forest.keys mem isOther same

lemma exists_first : ∃ first ∈ mails, first.references = [] ∧
    first.messageId = mail.firstId ∧ SameConversation mails mail first := by
  induction length : mail.references.length generalizing mail with
  | zero =>
    have none := length_eq_zero_iff.mp length
    refine ⟨mail, mem, none, ?_, .refl mail⟩
    rw [Mail.firstId, none]
    rfl
  | succ count ih =>
    rcases forest.replies mail mem with none | ⟨parent, isParent, replies⟩
    · rw [none] at length
      cases length
    · have shorter := replies.length_eq.symm.trans length
      obtain ⟨first, isFirst, none, isId, same⟩ := ih isParent (Nat.succ.inj shorter)
      refine ⟨first, isFirst, none, isId.trans replies.firstId_eq.symm, ?_⟩
      exact .trans _ _ _ (.rel _ _ ⟨mem, isParent, replies⟩) same

lemma sameConversation_iff (isOther : other ∈ mails) :
    SameConversation mails mail other ↔ mail.firstId = other.firstId := by
  constructor
  · exact SameConversation.firstId_eq
  · intro same
    obtain ⟨first, isFirst, -, isId, begins⟩ := forest.exists_first mem
    obtain ⟨second, isSecond, -, isId', begins'⟩ := forest.exists_first isOther
    have one := forest.eq_of_id isFirst isSecond (isId.trans (same.trans isId'.symm))
    subst one
    exact .trans _ _ _ begins (.symm _ _ begins')

/-- The references are the ids of earlier messages of the conversation. -/
theorem exists_ancestor (inside : reference ∈ mail.references) :
    ∃ ancestor ∈ mails, ancestor.messageId = reference ∧
      ancestor.firstId = mail.firstId ∧ ancestor.references.length < mail.references.length := by
  induction length : mail.references.length generalizing mail with
  | zero =>
    rw [length_eq_zero_iff.mp length] at inside
    cases inside
  | succ count ih =>
    rcases forest.replies mail mem with none | ⟨parent, isParent, replies⟩
    · rw [none] at inside
      cases inside
    · have shorter := Nat.succ.inj (replies.length_eq.symm.trans length)
      rw [replies] at inside
      rcases mem_append.mp inside with earlier | isId
      · obtain ⟨ancestor, isAncestor, hasId, same, less⟩ := ih isParent earlier shorter
        exact ⟨ancestor, isAncestor, hasId, same.trans replies.firstId_eq.symm,
          Nat.lt_succ_of_lt less⟩
      · refine ⟨parent, isParent, (mem_singleton.mp isId).symm, replies.firstId_eq.symm, ?_⟩
        rw [shorter]
        exact Nat.lt_succ_self count

lemma earlier_of_mem (isOther : other ∈ mails) (inside : other.messageId ∈ mail.references) :
    other.firstId = mail.firstId ∧ other.references.length < mail.references.length := by
  obtain ⟨ancestor, isAncestor, hasId, same, less⟩ := forest.exists_ancestor mem inside
  rw [forest.eq_of_id isOther isAncestor hasId.symm]
  exact ⟨same, less⟩

lemma notOwn : mail.messageId ∉ mail.references := fun inside =>
  Nat.lt_irrefl _ (forest.earlier_of_mem mem mem inside).2

lemma firstId_of_linked (isOther : other ∈ mails) (linked : Linked mail other) :
    mail.firstId = other.firstId := by
  rcases linked with ⟨reference, listed, isId | lists⟩ | lists
  · have inside := mem_of_mem_take listed
    exact (forest.earlier_of_mem isOther mem (isId.symm ▸ inside)).1
  · obtain ⟨first, isFirst, hasId, same, -⟩ :=
      forest.exists_ancestor isOther (mem_of_mem_take listed)
    obtain ⟨second, isSecond, hasId', same', -⟩ :=
      forest.exists_ancestor mem (mem_of_mem_take lists)
    have one := forest.eq_of_id isFirst isSecond (hasId.trans hasId'.symm)
    subst one
    exact same'.symm.trans same
  · exact (forest.earlier_of_mem mem isOther (mem_of_mem_take lists)).1.symm

end

end Forest

/-- The count of the references, which is kept in sixteen bits, is not 0 where there are some. -/
def Mail.CountsReferences (mail : Mail) : Prop :=
  mail.references.length % 2 ^ 16 = 0 → mail.references = []

instance (mail : Mail) : Decidable mail.CountsReferences := inferInstanceAs (Decidable (_ → _))

lemma Mail.CountsReferences.firstId_listed {mail : Mail} (counts : mail.CountsReferences)
    (some : mail.references ≠ []) : mail.firstId ∈ mail.listed := by
  have count : 0 < mail.references.length % 2 ^ 16 :=
    Nat.pos_of_ne_zero fun zero => some (counts zero)
  rw [Mail.firstId, Mail.listed]
  generalize mail.references.length % 2 ^ 16 = counted at count ⊢
  obtain ⟨fewer, rfl⟩ := Nat.exists_eq_succ_of_ne_zero (Nat.ne_of_gt count)
  cases references : mail.references with
  | nil => exact absurd references some
  | cons first others => exact mem_cons_self

/-- In a conversation any two messages are linked. -/
theorem Forest.linked_of_firstId (forest : Forest mails) (mem : mail ∈ mails)
    (isOther : other ∈ mails) (different : mail ≠ other) (counts : mail.CountsReferences)
    (counts' : other.CountsReferences) (same : mail.firstId = other.firstId) :
    Linked mail other := by
  have begins : ∀ mail : Mail, mail.references = [] → mail.messageId = mail.firstId := by
    intro mail none
    rw [Mail.firstId, none]
    rfl
  by_cases first : other.references = []
  · have some : mail.references ≠ [] := by
      intro none
      have sameId := (begins mail none).trans (same.trans (begins other first).symm)
      exact different (forest.eq_of_id mem isOther sameId)
    have listed := counts.firstId_listed some
    rw [same, ← begins other first] at listed
    exact .inr listed
  · refine .inl ⟨other.firstId, counts'.firstId_listed first, ?_⟩
    by_cases none : mail.references = []
    · exact .inl ((begins mail none).trans same)
    · exact .inr (same ▸ counts.firstId_listed none)

/-- The headers in the table are those of messages in the forest. -/
structure Ready (mails : List Mail) (db : Database) : Prop extends Sound db where
  members : ∀ hdr ∈ db.allMsgHeaders, hdr.toMail ∈ mails

/-- What holds of the threads: those of a conversation are one, whose key comes from one of its
messages. -/
structure Grouped (db : Database) : Prop where
  together : ∀ hdr ∈ db.allMsgHeaders, ∀ other ∈ db.allMsgHeaders,
    hdr.firstId = other.firstId → hdr.threadId = other.threadId
  owner : ∀ hdr ∈ db.allMsgHeaders, ∃ owner ∈ db.allMsgHeaders,
    owner.firstId = hdr.firstId ∧ hdr.threadId = newThreadKey owner.key

section Runs

variable (forest : Forest mails)
include forest

lemma Ready.addNewHdrToDB (ready : Ready mails db) {newHdr : Header}
    (mem : newHdr.toMail ∈ mails) (fresh : newHdr.key ∉ db.allMsgHeaders.map (·.key)) :
    Ready mails (addNewHdrToDB db newHdr) ∧ ∃ threadId, Threads db newHdr threadId ∧
      (Conversations.addNewHdrToDB db newHdr).allMsgHeaders =
        db.allMsgHeaders ++ [{ newHdr with threadId }] := by
  obtain ⟨sound, threadId, threads, same⟩ :=
    addNewHdrToDB_spec ready.toSound fresh (forest.notOwn mem)
  refine ⟨⟨sound, ?_⟩, threadId, threads, same⟩
  rw [same]
  exact forall_mem_append.mpr ⟨ready.members, forall_mem_singleton.mpr mem⟩

lemma Grouped.addNewHdrToDB (grouped : Grouped db) (ready : Ready mails db)
    (counts : ∀ mail ∈ mails, mail.CountsReferences) {newHdr : Header}
    (mem : newHdr.toMail ∈ mails) (fresh : newHdr.key ∉ db.allMsgHeaders.map (·.key)) :
    Grouped (addNewHdrToDB db newHdr) := by
  obtain ⟨-, threadId, threads, same⟩ := ready.addNewHdrToDB forest mem fresh
  have sameThread : ∀ hdr ∈ db.allMsgHeaders, hdr.firstId = newHdr.firstId →
      hdr.threadId = threadId := by
    intro hdr isHdr sameFirst
    rcases threads with ⟨linkedHdr, isLinked, linked, rfl⟩ | ⟨unlinked, -⟩
    · have first := forest.firstId_of_linked (ready.members linkedHdr isLinked) mem linked
      exact grouped.together hdr isHdr linkedHdr isLinked (sameFirst.trans first.symm)
    · have different : hdr.toMail ≠ newHdr.toMail := by
        intro isNew
        have sameKey : hdr.key = newHdr.key := congrArg Mail.key isNew
        exact fresh (sameKey ▸ mem_map_of_mem isHdr)
      have inForest := ready.members hdr isHdr
      have linked := forest.linked_of_firstId inForest mem different
        (counts _ inForest) (counts _ mem) sameFirst
      exact absurd linked (unlinked hdr isHdr)
  constructor
  · rw [same]
    intro hdr isHdr other isOther sameFirst
    rcases mem_append.mp isHdr with old | isNew
    · rcases mem_append.mp isOther with old' | isNew'
      · exact grouped.together hdr old other old' sameFirst
      · cases mem_singleton.mp isNew'
        exact sameThread hdr old sameFirst
    · cases mem_singleton.mp isNew
      rcases mem_append.mp isOther with old' | isNew'
      · exact (sameThread other old' sameFirst.symm).symm
      · cases mem_singleton.mp isNew'
        rfl
  · rw [same]
    intro hdr isHdr
    rcases mem_append.mp isHdr with old | isNew
    · obtain ⟨owner, isOwner, sameFirst, key⟩ := grouped.owner hdr old
      exact ⟨owner, mem_append_left _ isOwner, sameFirst, key⟩
    · cases mem_singleton.mp isNew
      rcases threads with ⟨linkedHdr, isLinked, linked, rfl⟩ | ⟨-, rfl⟩
      · obtain ⟨owner, isOwner, sameFirst, key⟩ := grouped.owner linkedHdr isLinked
        have first := forest.firstId_of_linked (ready.members linkedHdr isLinked) mem linked
        exact ⟨owner, mem_append_left _ isOwner, sameFirst.trans first, key⟩
      · exact ⟨_, mem_append_right _ (mem_singleton_self _), rfl, rfl⟩

/-- Where the headers in the table and those still to come have different keys, the next one is new
and the others stay so. -/
theorem Ready.next_distinct (ready : Ready mails db) {newHdr : Header} {order : List Header}
    (mem : newHdr.toMail ∈ mails)
    (distinct : (db.allMsgHeaders.map (·.key) ++ (newHdr :: order).map (·.key)).Nodup) :
    newHdr.key ∉ db.allMsgHeaders.map (·.key) ∧
      ((Conversations.addNewHdrToDB db newHdr).allMsgHeaders.map (·.key) ++
        order.map (·.key)).Nodup := by
  rw [map_cons, append_cons] at distinct
  have fresh : newHdr.key ∉ db.allMsgHeaders.map (·.key) := by
    have before := (nodup_append.mp distinct).1
    rw [← concat_eq_append] at before
    exact ((nodup_concat _ _).mp before).1
  obtain ⟨-, threadId, -, same⟩ := ready.addNewHdrToDB forest mem fresh
  rw [same, map_append]
  exact ⟨fresh, distinct⟩

/-- Headers that arrive one after another are put last, and those before keep their threads. -/
theorem Ready.addAll (ready : Ready mails db) {order : List Header}
    (members : ∀ hdr ∈ order, hdr.toMail ∈ mails)
    (distinct : (db.allMsgHeaders.map (·.key) ++ order.map (·.key)).Nodup) :
    db.allMsgHeaders <+: (order.foldl Conversations.addNewHdrToDB db).allMsgHeaders ∧
      (order.foldl Conversations.addNewHdrToDB db).allMsgHeaders.map Header.toMail =
        db.allMsgHeaders.map Header.toMail ++ order.map Header.toMail := by
  induction order generalizing db with
  | nil => exact ⟨prefix_rfl, (append_nil _).symm⟩
  | cons newHdr order ih =>
    rw [forall_mem_cons] at members
    obtain ⟨fresh, later⟩ := ready.next_distinct forest members.1 distinct
    obtain ⟨next, threadId, -, same⟩ := ready.addNewHdrToDB forest members.1 fresh
    obtain ⟨kept, mails⟩ := ih next members.2 later
    rw [same] at kept mails
    refine ⟨(prefix_append _ _).trans kept, ?_⟩
    rw [foldl_cons, mails, map_append, map_cons, append_assoc]
    rfl

lemma Grouped.addAll (grouped : Grouped db) (ready : Ready mails db)
    (counts : ∀ mail ∈ mails, mail.CountsReferences) {order : List Header}
    (members : ∀ hdr ∈ order, hdr.toMail ∈ mails)
    (distinct : (db.allMsgHeaders.map (·.key) ++ order.map (·.key)).Nodup) :
    Grouped (order.foldl Conversations.addNewHdrToDB db) := by
  induction order generalizing db with
  | nil => exact grouped
  | cons newHdr order ih =>
    rw [forall_mem_cons] at members
    obtain ⟨fresh, later⟩ := ready.next_distinct forest members.1 distinct
    have next := (ready.addNewHdrToDB forest members.1 fresh).1
    exact ih (grouped.addNewHdrToDB forest ready counts members.1 fresh) next members.2 later

end Runs

lemma getThreadId_of_mem {db : Database} (distinct : (db.allMsgHeaders.map (·.key)).Nodup)
    {hdr : Header} (mem : hdr ∈ db.allMsgHeaders) :
    getThreadId db hdr.key = some hdr.threadId := by
  have found : db.allMsgHeaders.find? (fun other => other.key = hdr.key) = some hdr :=
    itemAt_of_mem distinct mem
  rw [getThreadId, found]
  rfl

/-- New threads have different keys, but for the one key that takes the place of another. -/
theorem eq_of_newThreadKey {key other : UInt32} (same : newThreadKey key = newThreadKey other) :
    key = other ∨ (key = 1 ∧ other = 0xFFFFFFFE) ∨ (key = 0xFFFFFFFE ∧ other = 1) := by
  rw [newThreadKey, newThreadKey] at same
  by_cases isOne : key = 1
  · by_cases isOne' : other = 1
    · exact .inl (isOne.trans isOne'.symm)
    · rw [if_pos isOne, if_neg isOne'] at same
      exact .inr (.inl ⟨isOne, same.symm⟩)
  · by_cases isOne' : other = 1
    · rw [if_neg isOne, if_pos isOne'] at same
      exact .inr (.inr ⟨same, isOne'⟩)
    · rw [if_neg isOne, if_neg isOne'] at same
      exact .inl same

/-- A database without messages. A hash that has been made is empty. -/
structure Opened (db : Database) : Prop where
  none : db.allMsgHeaders = []
  unlisted : ∀ hash, db.msgReferences = some hash → hash = []

lemma Opened.ready {db : Database} (opened : Opened db) (mails) : Ready mails db where
  indexed := by
    intro hash isHash
    rw [opened.unlisted hash isHash, opened.none]
    exact indexes_nil
  tables := opened.none ▸ nofun
  members := opened.none ▸ nofun

lemma Opened.grouped {db : Database} (opened : Opened db) : Grouped db where
  together := opened.none ▸ nofun
  owner := opened.none ▸ nofun

/-- Two messages are in one thread exactly if they are in one conversation. -/
def ThreadsAreConversations (db : Database) (headers : List Header) : Prop :=
  ∀ hdr ∈ headers, (getThreadId db hdr.key).isSome ∧ ∀ other ∈ headers,
    (getThreadId db hdr.key = getThreadId db other.key ↔
      SameConversation (headers.map Header.toMail) hdr.toMail other.toMail)

/-- The two keys whose new threads have one key are not in different conversations. -/
def KeysApart (mails : List Mail) : Prop :=
  ∀ mail ∈ mails, ∀ other ∈ mails, mail.key = 1 → other.key = 0xFFFFFFFE →
    SameConversation mails mail other

section Orders

variable (opened : Opened db) {order : List Header} (forest : Forest (headers.map Header.toMail))
  (perm : order.Perm headers)
include opened forest perm

lemma order_fits : (∀ hdr ∈ order, hdr.toMail ∈ headers.map Header.toMail) ∧
    (db.allMsgHeaders.map (·.key) ++ order.map (·.key)).Nodup := by
  refine ⟨fun hdr mem => mem_map_of_mem (perm.mem_iff.mp mem), ?_⟩
  have keys := forest.keys
  rw [map_map] at keys
  rw [opened.none, map_nil, nil_append]
  exact (perm.map _).nodup_iff.mpr keys

/-- After all messages have arrived, they are those in the table. -/
theorem arrived : ((order.foldl addNewHdrToDB db).allMsgHeaders.map (·.key)).Nodup ∧
    ∀ mail, mail ∈ (order.foldl addNewHdrToDB db).allMsgHeaders.map Header.toMail ↔
      mail ∈ headers.map Header.toMail := by
  obtain ⟨members, distinct⟩ := order_fits opened forest perm
  obtain ⟨-, same⟩ := (opened.ready _).addAll forest members distinct
  rw [opened.none, map_nil, nil_append] at same distinct
  constructor
  · have keys : (order.foldl addNewHdrToDB db).allMsgHeaders.map (·.key) = order.map (·.key) := by
      have mapped := congrArg (List.map Mail.key) same
      rwa [map_map, map_map] at mapped
    exact keys ▸ distinct
  · intro mail
    rw [same]
    exact (perm.map _).mem_iff

lemma first_two (isOrder : order = hdr :: other :: rest)
    (unlinked : ¬ Linked hdr.toMail other.toMail) :
    getThreadId (order.foldl addNewHdrToDB db) hdr.key = some (newThreadKey hdr.key) ∧
      getThreadId (order.foldl addNewHdrToDB db) other.key = some (newThreadKey other.key) := by
  have keys := (arrived opened forest perm).1
  obtain ⟨members, distinct⟩ := order_fits opened forest perm
  subst isOrder
  have ready := opened.ready (headers.map Header.toMail)
  have isHdr := members hdr mem_cons_self
  have isOther := members other (mem_cons_of_mem _ mem_cons_self)
  obtain ⟨fresh, distinct⟩ := ready.next_distinct forest isHdr distinct
  obtain ⟨ready, threadId, threads, rows⟩ := ready.addNewHdrToDB forest isHdr fresh
  rw [opened.none, nil_append] at rows
  have begins : threadId = newThreadKey hdr.key := by
    rcases threads with ⟨row, mem, -⟩ | ⟨-, isNew⟩
    · rw [opened.none] at mem
      cases mem
    · exact isNew
  obtain ⟨fresh, distinct⟩ := ready.next_distinct forest isOther distinct
  obtain ⟨ready, threadId', threads, rows'⟩ := ready.addNewHdrToDB forest isOther fresh
  rw [rows] at rows'
  have begins' : threadId' = newThreadKey other.key := by
    rcases threads with ⟨row, mem, linked, -⟩ | ⟨-, isNew⟩
    · rw [rows, mem_singleton] at mem
      subst mem
      exact absurd linked unlinked
    · exact isNew
  have others : ∀ row ∈ rest, row.toMail ∈ headers.map Header.toMail := fun row mem =>
    members row (mem_cons_of_mem _ (mem_cons_of_mem _ mem))
  obtain ⟨kept, -⟩ := ready.addAll forest others distinct
  rw [rows', singleton_append] at kept
  rw [foldl_cons, foldl_cons] at keys ⊢
  subst begins begins'
  constructor
  · exact getThreadId_of_mem keys (kept.subset mem_cons_self)
  · exact getThreadId_of_mem keys (kept.subset (mem_cons_of_mem _ mem_cons_self))

lemma threads_are_conversations (counts : ∀ hdr ∈ headers, hdr.CountsReferences)
    (apart : KeysApart (headers.map Header.toMail)) :
    ThreadsAreConversations (order.foldl addNewHdrToDB db) headers := by
  obtain ⟨keys, mails⟩ := arrived opened forest perm
  obtain ⟨members, distinct⟩ := order_fits opened forest perm
  have grouped := opened.grouped.addAll forest (opened.ready _) (forall_mem_map.mpr counts)
    members distinct
  have row : ∀ hdr ∈ headers, ∃ row ∈ (order.foldl addNewHdrToDB db).allMsgHeaders,
      row.toMail = hdr.toMail ∧
        getThreadId (order.foldl addNewHdrToDB db) hdr.key = some row.threadId := by
    intro hdr isHdr
    obtain ⟨row, isRow, same⟩ := mem_map.mp ((mails _).mpr (mem_map_of_mem isHdr))
    have sameKey : row.key = hdr.key := congrArg Mail.key same
    exact ⟨row, isRow, same, sameKey ▸ getThreadId_of_mem keys isRow⟩
  intro hdr isHdr
  obtain ⟨first, isFirst, sameFirst, thread⟩ := row hdr isHdr
  refine ⟨thread ▸ rfl, ?_⟩
  intro other isOther
  obtain ⟨second, isSecond, sameSecond, thread'⟩ := row other isOther
  rw [forest.sameConversation_iff (mem_map_of_mem isHdr) (mem_map_of_mem isOther), thread,
    thread', Option.some.injEq, ← sameFirst, ← sameSecond]
  constructor
  · intro sameThread
    obtain ⟨owner, isOwner, ofFirst, key⟩ := grouped.owner first isFirst
    obtain ⟨owner', isOwner', ofSecond, key'⟩ := grouped.owner second isSecond
    rw [← ofFirst, ← ofSecond]
    have isOwner := (mails _).mp (mem_map_of_mem isOwner)
    have isOwner' := (mails _).mp (mem_map_of_mem isOwner')
    rcases eq_of_newThreadKey (key.symm.trans (sameThread.trans key')) with
      same | ⟨isOne, isOther⟩ | ⟨isOther, isOne⟩
    · rw [forest.eq_of_key isOwner isOwner' same]
    · exact (apart _ isOwner _ isOwner' isOne isOther).firstId_eq
    · exact (apart _ isOwner' _ isOwner isOne isOther).firstId_eq.symm
  · exact grouped.together first isFirst second isSecond

end Orders

/-- Any two messages can be the first to arrive. -/
theorem exists_order {hdr other : Header} (isHdr : hdr ∈ headers) (isOther : other ∈ headers)
    (different : hdr ≠ other) : ∃ rest, (hdr :: other :: rest).Perm headers := by
  refine ⟨(headers.erase hdr).erase other, ?_⟩
  have later : other ∈ headers.erase hdr := (mem_erase_of_ne different.symm).mpr isOther
  exact ((perm_cons_erase later).symm.cons hdr).trans (perm_cons_erase isHdr).symm

section

variable (opened : Opened db) (forest : Forest (headers.map Header.toMail))
  (grouped : ∀ order : List Header, order.Perm headers → ThreadsAreConversations (order.foldl addNewHdrToDB db) headers)
include opened forest grouped

/-- In every order is too much for a message that counts none of its references: it does not find
the thread of the message that it replies to, or not that of the first message. -/
theorem countsReferences_of_threads : ∀ hdr ∈ headers, hdr.CountsReferences := by
  intro hdr isHdr zero
  by_contra some
  have isMail := mem_map_of_mem (f := Header.toMail) isHdr
  have unlisted : hdr.listed = [] := by
    rw [Mail.listed, zero]
    rfl
  -- an earlier message of the conversation that arrives first has the same new key
  have sameKey : ∀ mail ∈ headers.map Header.toMail, mail.firstId = hdr.firstId →
      mail.references.length < hdr.references.length →
      newThreadKey mail.key = newThreadKey hdr.key := by
    intro mail isEarlier sameFirst shorter
    obtain ⟨earlier, mem, rfl⟩ := mem_map.mp isEarlier
    have different : earlier ≠ hdr := by
      rintro rfl
      exact Nat.lt_irrefl _ shorter
    have unlinked : ¬ Linked earlier.toMail hdr.toMail := by
      rintro (⟨reference, listed, -⟩ | lists)
      · rw [unlisted] at listed
        cases listed
      · have longer := (forest.earlier_of_mem isEarlier isMail (mem_of_mem_take lists)).2
        exact Nat.lt_asymm shorter longer
    obtain ⟨rest, perm⟩ := exists_order mem isHdr different
    obtain ⟨one, other⟩ := first_two opened forest perm rfl unlinked
    have together := ((grouped _ perm earlier mem).2 hdr isHdr).mpr
      ((forest.sameConversation_iff isEarlier isMail).mpr sameFirst)
    rw [one, other, Option.some.injEq] at together
    exact together
  obtain ⟨parent, isParent, replies⟩ := (forest.replies _ isMail).resolve_left some
  obtain ⟨first, isFirst, none, isId, begins⟩ := forest.exists_first isMail
  have several : 1 < hdr.references.length := by
    have positive := length_pos_iff.mpr some
    omega
  have length := replies.length_eq
  have shorter : parent.references.length < hdr.references.length := by omega
  have ofParent := sameKey parent isParent replies.firstId_eq.symm shorter
  have fewer : first.references.length < hdr.references.length := by
    rw [none]
    exact Nat.lt_of_succ_lt several
  have ofFirst := sameKey first isFirst begins.firstId_eq.symm fewer
  -- three messages have different keys, so that not all their threads can have one
  have apart : ∀ mail ∈ headers.map Header.toMail, ∀ other ∈ headers.map Header.toMail,
      mail.references.length ≠ other.references.length → mail.key ≠ other.key := by
    intro mail mem other isOther different sameKey
    have same := forest.eq_of_key mem isOther sameKey
    exact different (congrArg _ (congrArg Mail.references same))
  have one := apart parent isParent _ isMail (Nat.ne_of_lt shorter)
  have two := apart first isFirst _ isMail (by rw [none, length_nil]; omega)
  have three := apart first isFirst parent isParent (by rw [none, length_nil]; omega)
  rcases eq_of_newThreadKey ofParent with same | ⟨isOne, isOther⟩ | ⟨isOther, isOne⟩
  · exact one same
  · rcases eq_of_newThreadKey ofFirst with same | ⟨isOne', -⟩ | ⟨-, isOne'⟩
    · exact two same
    · exact three (isOne'.trans isOne.symm)
    · rw [isOther] at isOne'
      cases isOne'
  · rcases eq_of_newThreadKey ofFirst with same | ⟨-, isOther'⟩ | ⟨isOther', -⟩
    · exact two same
    · rw [isOne] at isOther'
      cases isOther'
    · exact three (isOther'.trans isOther.symm)

lemma keysApart_of_threads : KeysApart (headers.map Header.toMail) := by
  intro mail isMail other isOther isOne isLast
  by_contra apart
  obtain ⟨hdr, isHdr, rfl⟩ := mem_map.mp isMail
  obtain ⟨otherHdr, isOtherHdr, rfl⟩ := mem_map.mp isOther
  have different : hdr ≠ otherHdr := by
    rintro rfl
    exact apart (.refl _)
  have unlinked : ¬ Linked hdr.toMail otherHdr.toMail := fun linked => apart
    ((forest.sameConversation_iff isMail isOther).mpr
      (forest.firstId_of_linked isMail isOther linked))
  obtain ⟨rest, perm⟩ := exists_order isHdr isOtherHdr different
  obtain ⟨one, two⟩ := first_two opened forest perm rfl unlinked
  apply apart
  apply ((grouped _ perm hdr isHdr).2 otherHdr isOtherHdr).mp
  rw [one, two, isOne, isLast]
  rfl

end

def beginning (key : UInt32) (messageId : Bytes) : Header where
  key := key
  messageId := messageId
  references := []
  nonempty := nofun
  flags := 0
  threadId := 0xFFFFFFFF

/-- A reply to `<a>`. -/
def answer : Header where
  key := 3
  messageId := [0x62]
  references := [[0x61]]
  nonempty := by decide
  flags := 0
  threadId := 0xFFFFFFFF

end CommCentral.MsgDB.Conversations
