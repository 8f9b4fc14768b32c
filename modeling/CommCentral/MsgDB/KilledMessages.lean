import CommCentral.MsgDB.ThreadTree

/-! Whether a message or one of its ancestors is ignored (`GetIsKilled`), with the checks against
broken threads. -/
namespace CommCentral.MsgDB

open Lib Mork List

/-- `nsMsgMessageFlags::Ignored` -/
def ignoredFlag : UInt32 := 0x40000

/-- The members of an `nsMsgThread` apart from its database. -/
structure ThreadRows where
  table : MorkTable Nat
  threadRootKey : Nat
  numChildren : Nat

/-- The headers with their flags and thread ids, and the threads by their ids. -/
structure ThreadedDatabase where
  db : MsgDatabase
  flags : Nat → UInt32
  threadId : Nat → Nat
  threads : Nat → Option ThreadRows

namespace ThreadedDatabase

def getThreadForThreadId (database : ThreadedDatabase) (threadId : Nat) : Option MsgThread :=
  (database.threads threadId).map fun rows =>
    ⟨database.db, rows.table, rows.threadRootKey, rows.numChildren⟩

/-- `GetThreadContainingMsgHdr`: the thread and the id it is kept under. -/
def getThreadContainingMsgHdr (database : ThreadedDatabase) (msgHdr : MsgHdr) :
    Option (Nat × MsgThread) :=
  let threadId := database.threadId msgHdr.messageKey
  let result := if threadId ≠ msgKeyNone then database.getThreadForThreadId threadId else none
  match result with
  | some thread => some (threadId, thread)
  | none =>
    (database.getThreadForThreadId msgHdr.messageKey).map fun thread => (msgHdr.messageKey, thread)

/-- What an operation has made of a thread. -/
def putThread (database : ThreadedDatabase) (threadId : Nat) (thread : MsgThread) :
    ThreadedDatabase :=
  { database with
    db := thread.db
    threads := Function.update database.threads threadId
      (some ⟨thread.table, thread.threadRootKey, thread.numChildren⟩) }

end ThreadedDatabase

def MsgThread.reparentInThread (thread : MsgThread) (hdr : MsgHdr) : MsgThread :=
  if thread.numChildren = 1 then thread.setThreadParent hdr.messageKey msgKeyNone
  else
    let parent := (List.range thread.numChildren).findSome? fun childIndex =>
      (thread.getChildHdrAt childIndex).filter fun curHdr => thread.db.isParentOf curHdr hdr
    match parent with
    | some curHdr => thread.setThreadParent hdr.messageKey curHdr.messageKey
    | none =>
      match thread.getRootHdr with
      | (thread, some rootHdr) =>
        thread.setThreadParent hdr.messageKey
          (if rootHdr.messageKey = hdr.messageKey then msgKeyNone else rootHdr.messageKey)
      | (thread, none) => thread

/-- Where `IsAncestorKilled` returns. -/
inductive KilledCheck
  | ignored
  | noParent
  | ownParent
  | parentNotInThread
  | noAncestorsLeft
deriving Repr, DecidableEq

/-- The result of `IsAncestorKilled` is true only for a message that is ignored. -/
def KilledCheck.isKilled (check : KilledCheck) : Bool := check = .ignored

namespace ThreadedDatabase

def isIgnored (database : ThreadedDatabase) (key : Nat) : Bool :=
  database.flags key &&& ignoredFlag != 0

/-- `ReparentInThread`, if the message has a thread. -/
def reparented (database : ThreadedDatabase) (hdr : MsgHdr) : ThreadedDatabase :=
  match database.getThreadContainingMsgHdr hdr with
  | none => database
  | some (threadId, thread) => database.putThread threadId (thread.reparentInThread hdr)

def isAncestorKilled (database : ThreadedDatabase) (ancestorsToCheck : Nat) (hdr : MsgHdr) :
    KilledCheck × ThreadedDatabase :=
  if database.isIgnored hdr.messageKey then (.ignored, database)
  else if hdr.threadParent = hdr.messageKey then (.ownParent, database.reparented hdr)
  else if hdr.threadParent = msgKeyNone then (.noParent, database)
  else
    match database.db.getMsgHdrForKey hdr.threadParent with
    | none => (.noParent, database)
    | some parentHdr =>
      if (database.getThreadContainingMsgHdr hdr).any fun (_, thread) =>
          (thread.getChild hdr.threadParent).isNone then
        (.parentNotInThread, database.reparented hdr)
      else
        match ancestorsToCheck with
        | 0 => (.noAncestorsLeft, database)
        | ancestorsToCheck + 1 => isAncestorKilled database ancestorsToCheck parentHdr

/-- `GetIsKilled`, which fails in a thread without messages. -/
def getIsKilled (database : ThreadedDatabase) (hdr : MsgHdr) :
    Option (KilledCheck × ThreadedDatabase) :=
  let thread := database.getThreadContainingMsgHdr hdr
  let numChildren := (thread.map fun (_, thread) => thread.numChildren).getD 1
  if numChildren = 0 then none else some (database.isAncestorKilled (numChildren - 1) hdr)

/-- Every message of a thread is found to be in it, and the thread is a tree. -/
structure HasTree (database : ThreadedDatabase) (thread : MsgThread) (root : Nat) : Prop where
  tree : ParentTree thread.parentOf thread.childKeys root
  inThread : ∀ hdr ∈ thread.children, ∃ threadId,
    database.getThreadContainingMsgHdr hdr = some (threadId, thread)

/-- The message or one of its ancestors is ignored. -/
def KilledAbove (database : ThreadedDatabase) (thread : MsgThread) (key : Nat) : Prop :=
  ∃ above, Relation.ReflTransGen (Up thread.parentOf) key above ∧ database.isIgnored above = true

variable {database : ThreadedDatabase} {hdr : MsgHdr}

lemma getThreadContainingMsgHdr_db {threadId : Nat}
    (found : database.getThreadContainingMsgHdr hdr = some (threadId, thread)) :
    thread.db = database.db := by
  have byId : ∀ {threadId : Nat}, database.getThreadForThreadId threadId = some thread →
      thread.db = database.db := by
    intro threadId looked
    obtain ⟨rows, -, rfl⟩ := Option.map_eq_some_iff.mp looked
    rfl
  rw [getThreadContainingMsgHdr] at found
  split at found
  · rename_i looked
    cases found
    split at looked
    · exact byId looked
    · cases looked
  · obtain ⟨other, looked, same⟩ := Option.map_eq_some_iff.mp found
    cases same
    exact byId looked

lemma killedAbove_ignored (ignored : database.isIgnored hdr.messageKey = true) :
    database.KilledAbove thread hdr.messageKey := ⟨hdr.messageKey, .refl, ignored⟩

lemma killedAbove_parent (notIgnored : ¬ database.isIgnored key = true)
    (isParent : thread.parentOf key = some parent) :
    database.KilledAbove thread key ↔ database.KilledAbove thread parent := by
  constructor
  · rintro ⟨above, climbs, ignored⟩
    rcases climbs.cases_head with rfl | ⟨next, isUp, rest⟩
    · exact absurd ignored notIgnored
    · cases isParent.symm.trans isUp
      exact ⟨above, rest, ignored⟩
  · rintro ⟨above, climbs, ignored⟩
    exact ⟨above, .head isParent climbs, ignored⟩

lemma not_killedAbove_root (notIgnored : ¬ database.isIgnored key = true)
    (top : thread.parentOf key = none) : ¬ database.KilledAbove thread key := by
  rintro ⟨above, climbs, ignored⟩
  rcases climbs.cases_head with rfl | ⟨next, isUp, rest⟩
  · exact notIgnored ignored
  · cases top.symm.trans isUp

lemma isAncestorKilled_ignored (ignored : database.isIgnored hdr.messageKey = true)
    (ancestorsToCheck : Nat) :
    database.isAncestorKilled ancestorsToCheck hdr = (.ignored, database) := by
  rw [isAncestorKilled, if_pos ignored]

lemma isAncestorKilled_root (notIgnored : ¬ database.isIgnored hdr.messageKey = true)
    (none : hdr.threadParent = msgKeyNone) (real : hdr.messageKey ≠ msgKeyNone)
    (ancestorsToCheck : Nat) :
    database.isAncestorKilled ancestorsToCheck hdr = (.noParent, database) := by
  have notOwn : hdr.threadParent ≠ hdr.messageKey := fun same => real (same.symm.trans none)
  rw [isAncestorKilled, if_neg notIgnored, if_neg notOwn, if_pos none]

/-- In a tree the walk goes on to the parent: none of the guards is met. -/
theorem isAncestorKilled_parent (has : database.HasTree thread root)
    (mem : hdr ∈ thread.children) (notIgnored : ¬ database.isIgnored hdr.messageKey = true)
    (notNone : hdr.threadParent ≠ msgKeyNone) :
    ∃ parentHdr ∈ thread.children, parentHdr.messageKey = hdr.threadParent ∧
      ∀ ancestorsToCheck, database.isAncestorKilled (ancestorsToCheck + 1) hdr =
        database.isAncestorKilled ancestorsToCheck parentHdr := by
  obtain ⟨⟨parentHdr, inside, isParent⟩, notOwn⟩ := MsgThread.exists_parent has.tree mem notNone
  refine ⟨parentHdr, inside, isParent, ?_⟩
  intro ancestorsToCheck
  obtain ⟨threadId, found⟩ := has.inThread hdr mem
  have parentFound : database.db.getMsgHdrForKey hdr.threadParent = some parentHdr := by
    rw [← getThreadContainingMsgHdr_db found, ← isParent]
    exact MsgThread.mem_children inside
  have claimant : thread.getChild hdr.threadParent = some parentHdr :=
    isParent ▸ MsgThread.getChild_child inside
  rw [isAncestorKilled, if_neg notIgnored, if_neg notOwn.symm, if_neg notNone, parentFound]
  simp only [found, Option.any_some, claimant, Option.isNone_some, Bool.false_eq_true, if_false]

lemma isAncestorKilled_spec (has : database.HasTree thread root) {count ancestorsToCheck : Nat}
    (mem : hdr ∈ thread.children) (ends : Ends thread.parentOf hdr.messageKey count root)
    (enough : count ≤ ancestorsToCheck) :
    (database.isAncestorKilled ancestorsToCheck hdr = (.ignored, database) ∧
        database.KilledAbove thread hdr.messageKey) ∨
      (database.isAncestorKilled ancestorsToCheck hdr = (.noParent, database) ∧
        ¬ database.KilledAbove thread hdr.messageKey) := by
  induction count using Nat.strong_induction_on generalizing hdr ancestorsToCheck with
  | _ count ih =>
    by_cases ignored : database.isIgnored hdr.messageKey = true
    · exact .inl ⟨isAncestorKilled_ignored ignored ancestorsToCheck, killedAbove_ignored ignored⟩
    have parent := MsgThread.parentOf_child mem
    by_cases none : hdr.threadParent = msgKeyNone
    · rw [if_pos none] at parent
      obtain ⟨inDb, -⟩ := MsgDatabase.getMsgHdrForKey_some (MsgThread.mem_children mem)
      have real := thread.db.real hdr inDb
      exact .inr ⟨isAncestorKilled_root ignored none real ancestorsToCheck,
        not_killedAbove_root ignored parent⟩
    · rw [if_neg none] at parent
      obtain ⟨fewer, rfl, rest⟩ := ends.rest parent
      obtain ⟨budget, rfl⟩ := Nat.exists_eq_add_of_le' (Nat.le_of_add_left_le enough)
      obtain ⟨parentHdr, inside, isParent, goesOn⟩ := isAncestorKilled_parent has mem ignored none
      rw [goesOn budget, killedAbove_parent ignored parent, ← isParent]
      rw [← isParent] at rest
      exact ih fewer (Nat.lt_succ_self fewer) inside rest (Nat.le_of_succ_le_succ enough)

/-- `GetIsKilled` returns at the first ignored message or at the root, never at one of the guards
or for lack of ancestors to check; it changes nothing, and finds whether the message or one of its
ancestors is ignored. -/
theorem getIsKilled_exact (has : database.HasTree thread root) (member : hdr ∈ thread.children) :
    ∃ check, database.getIsKilled hdr = some (check, database) ∧
      (check = .ignored ∨ check = .noParent) ∧
      (check.isKilled = true ↔ ∃ above,
        Relation.ReflTransGen (Up thread.parentOf) hdr.messageKey above ∧
          database.isIgnored above = true) := by
  obtain ⟨threadId, found⟩ := has.inThread hdr member
  have inside := mem_map_of_mem (f := MsgHdr.messageKey) member
  obtain ⟨count, ends⟩ := has.tree.ends inside
  have fewer : count < thread.numChildren := by
    have short := has.tree.count_lt ends inside
    rw [MsgThread.childKeys, length_map, MsgThread.children] at short
    have counted := length_filterMap_le thread.getChildHdrAt (List.range thread.numChildren)
    rw [length_range] at counted
    exact Nat.lt_of_lt_of_le short counted
  rw [getIsKilled, found]
  dsimp only [Option.map_some, Option.getD_some]
  rw [if_neg (Nat.ne_zero_of_lt fewer)]
  rcases isAncestorKilled_spec has member ends (Nat.le_sub_one_of_lt fewer) with
    ⟨same, killed⟩ | ⟨same, notKilled⟩
  · exact ⟨.ignored, congrArg some same, .inl rfl, iff_of_true rfl killed⟩
  · exact ⟨.noParent, congrArg some same, .inr rfl, iff_of_false Bool.false_ne_true notKilled⟩

def ignoredRoot : ThreadedDatabase where
  db := MsgThread.shuffled.db
  flags := fun key => if key = 1 then ignoredFlag else 0
  threadId := fun _ => 1
  threads := fun threadId => if threadId = 1 then some ⟨MsgThread.shuffled.table, 2, 3⟩ else none

theorem getIsKilled_exact_ignoredRoot :
    ∃ check, ignoredRoot.getIsKilled ⟨3, 2, true, "c", ["b"]⟩ = some (check, ignoredRoot) ∧
      (check = .ignored ∨ check = .noParent) ∧
      (check.isKilled = true ↔ ∃ above,
        Relation.ReflTransGen (Up MsgThread.shuffled.parentOf) 3 above ∧
          ignoredRoot.isIgnored above = true) :=
  getIsKilled_exact ⟨MsgThread.shuffled_tree, fun _ _ => ⟨1, rfl⟩⟩ (by decide)

end ThreadedDatabase

end CommCentral.MsgDB
