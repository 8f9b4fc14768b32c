import CommCentral.Lib.Ascent
import CommCentral.MsgDB.MsgThread

/-! The root of a thread after it was rerooted. -/
namespace CommCentral.MsgDB

open Lib

namespace MsgThread

/-- The thread parent of a message, up to the root of the thread or a message without one. -/
def threadAncestor (thread : MsgThread) (key : Nat) : Option Nat :=
  (thread.db.getMsgHdrForKey key).bind fun hdr =>
    if hdr.threadParent = msgKeyNone ∨ hdr.threadParent = thread.threadRootKey then none
    else some hdr.threadParent

/-- The key of the ancestor that the loop stops at. -/
def nextRoot (thread : MsgThread) (hdr : MsgHdr) : Nat :=
  (thread.threadAncestor hdr.messageKey).getD hdr.messageKey

variable {thread : MsgThread}

section

variable (found : thread.db.getMsgHdrForKey newParentOfOldRoot.messageKey = some newParentOfOldRoot)
include found

lemma threadAncestor_eq : thread.threadAncestor newParentOfOldRoot.messageKey =
      if newParentOfOldRoot.threadParent = msgKeyNone ∨
        newParentOfOldRoot.threadParent = thread.threadRootKey then none
      else some newParentOfOldRoot.threadParent := by
  rw [threadAncestor, found]
  rfl

/-- The loop ends in its first round: its condition reads what the round has just written. -/
theorem rerootLoop_spec (fuel : Nat) :
    ∃ ancestorHdr, thread.rerootLoop (fuel + 1) newParentOfOldRoot newParentOfOldRoot.messageKey =
      some (ancestorHdr, thread.nextRoot newParentOfOldRoot) := by
  rw [nextRoot, threadAncestor_eq found, rerootLoop]
  by_cases stops : newParentOfOldRoot.threadParent = msgKeyNone ∨
      newParentOfOldRoot.threadParent = thread.threadRootKey
  · have stays : ¬ (newParentOfOldRoot.threadParent ≠ msgKeyNone ∧
        newParentOfOldRoot.threadParent ≠ thread.threadRootKey ∧
        newParentOfOldRoot.threadParent ≠ newParentOfOldRoot.messageKey) := by
      rintro ⟨notNone, notRoot, _⟩
      exact stops.elim notNone notRoot
    simp only [if_pos stops, if_neg stays]
    exact ⟨_, rfl⟩
  · obtain ⟨notNone, notRoot⟩ := not_or.mp stops
    simp only [if_neg stops, Option.getD_some]
    by_cases self : newParentOfOldRoot.threadParent = newParentOfOldRoot.messageKey
    · have stays : ¬ (newParentOfOldRoot.threadParent ≠ msgKeyNone ∧
          newParentOfOldRoot.threadParent ≠ thread.threadRootKey ∧
          newParentOfOldRoot.threadParent ≠ newParentOfOldRoot.messageKey) :=
        fun goesUp => goesUp.2.2 self
      simp only [if_neg stays]
      exact ⟨_, by rw [self]⟩
    · have goesUp : newParentOfOldRoot.threadParent ≠ msgKeyNone ∧
          newParentOfOldRoot.threadParent ≠ thread.threadRootKey ∧
          newParentOfOldRoot.threadParent ≠ newParentOfOldRoot.messageKey :=
        ⟨notNone, notRoot, self⟩
      simp only [if_pos goesUp]
      cases thread.db.getMsgHdrForKey newParentOfOldRoot.threadParent with
      | none => exact ⟨_, rfl⟩
      | some ancestorHdr =>
        have repeated : ¬ (newParentOfOldRoot.threadParent ≠ msgKeyNone ∧
            newParentOfOldRoot.threadParent ≠ thread.threadRootKey ∧
            newParentOfOldRoot.threadParent ≠ newParentOfOldRoot.threadParent) :=
          fun again => again.2.2 rfl
        simp only [if_neg repeated]
        exact ⟨_, rfl⟩

end

variable (oldTopLevelHdr : MsgHdr)

lemma threadRootKey_reparentChild (newParentKey : Nat) (thread) (childIndex : Nat) :
    (reparentChild oldTopLevelHdr newParentKey thread childIndex).threadRootKey =
      thread.threadRootKey := by
  rw [reparentChild]
  cases thread.getChildHdrAt childIndex with
  | none => rfl
  | some curHdr =>
    dsimp only
    split <;> rfl

lemma threadRootKey_reparent (newParentKey : Nat) (thread : MsgThread) :
    (thread.reparentNonReferenceChildrenOf oldTopLevelHdr newParentKey).threadRootKey =
      thread.threadRootKey := by
  rw [reparentNonReferenceChildrenOf]
  generalize List.range thread.numChildren = indices
  induction indices generalizing thread with
  | nil => rfl
  | cons childIndex later ih => rw [List.foldl_cons, ih, threadRootKey_reparentChild]

lemma rerootThread_spec (found : thread.db.getMsgHdrForKey newParentOfOldRoot.messageKey =
    some newParentOfOldRoot) (oldRoot : MsgHdr) (fuel : Nat) :
    ∃ after rv, thread.rerootThread (fuel + 1) newParentOfOldRoot oldRoot = some (after, rv) ∧
      after.threadRootKey = thread.nextRoot newParentOfOldRoot := by
  obtain ⟨ancestorHdr, looped⟩ := rerootLoop_spec found fuel
  rw [rerootThread, looped]
  cases ancestorHdr with
  | none | some ancestorHdr => exact ⟨_, _, rfl, threadRootKey_reparent _ _ _⟩

/-- The root is the last message of the chain of thread parents exactly where the chain has no more
than one step. -/
theorem rerootThread_oldestAncestor_iff
    (found : thread.db.getMsgHdrForKey newParentOfOldRoot.messageKey = some newParentOfOldRoot)
    {count last : Nat}
    (chain : Ends thread.threadAncestor newParentOfOldRoot.messageKey count last)
    (oldRoot : MsgHdr) (fuel : Nat) :
    ∃ after rv, thread.rerootThread (fuel + 1) newParentOfOldRoot oldRoot = some (after, rv) ∧
      (after.threadRootKey = last ↔ count ≤ 1) := by
  obtain ⟨after, rv, rerooted, root⟩ := rerootThread_spec found oldRoot fuel
  refine ⟨after, rv, rerooted, ?_⟩
  rw [root, nextRoot]
  cases parent : thread.threadAncestor newParentOfOldRoot.messageKey with
  | none =>
    obtain ⟨zero, isLast⟩ := chain.at_top parent
    rw [zero, isLast]
    exact ⟨fun _ => Nat.zero_le _, fun _ => rfl⟩
  | some key =>
    obtain ⟨fewer, rfl, rest⟩ := chain.rest parent
    rw [Option.getD_some, eq_comm, chain.eq_parent_iff parent]
    omega

/-- A thread of four messages, each of which replies to the one before. -/
def replies : List MsgHdr :=
  [⟨1, msgKeyNone, true, "a", ["d"]⟩, ⟨2, 1, true, "b", ["a"]⟩, ⟨3, 2, true, "c", ["b"]⟩,
    ⟨4, 3, true, "d", ["c"]⟩]

def repliesThread : MsgThread where
  db := { hdrs := replies, keys := by decide, real := by decide }
  table := ⟨[1, 2, 3, 4], none, [], 0, 0, false, true, false⟩
  threadRootKey := 1
  numChildren := 4

/-- The third message is one step below the second, which replies to the root. -/
theorem rerootThread_oneStep : ∃ after rv,
    repliesThread.rerootThread 1 ⟨3, 2, true, "c", ["b"]⟩ ⟨1, msgKeyNone, true, "a", ["d"]⟩ =
        some (after, rv) ∧ (after.threadRootKey = 2 ↔ 1 ≤ 1) :=
  rerootThread_oldestAncestor_iff (by decide) (.up (by decide) (.here (by decide))) _ 0

/-- The fourth is two steps below it, and the loop stops at the third. -/
theorem rerootThread_twoSteps :
    Ends repliesThread.threadAncestor 4 2 2 ∧
      (repliesThread.rerootThread 4 ⟨4, 3, true, "d", ["c"]⟩ ⟨1, msgKeyNone, true, "a", ["d"]⟩).map
        (fun (after, _) => after.threadRootKey) = some 3 := by
  have second : Ends repliesThread.threadAncestor 2 0 2 := .here (by decide)
  have third : Ends repliesThread.threadAncestor 3 1 2 := .up (by decide) second
  exact ⟨.up (by decide) third, by decide +kernel⟩

end MsgThread

end CommCentral.MsgDB
