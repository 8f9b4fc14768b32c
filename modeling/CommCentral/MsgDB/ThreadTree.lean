import CommCentral.MsgDB.FirstUnread

/-! Threads whose messages make a tree by their thread parents, and the root that `GetRootHdr` gets
of them. -/
namespace CommCentral.MsgDB

open Lib List

namespace MsgThread

def getChild (thread : MsgThread) (msgKey : Nat) : Option MsgHdr :=
  if msgKey ∈ thread.table.rowArray then thread.db.getMsgHdrForKey msgKey else none

/-- `GetChildHdrForKey`. The messages in the table of a thread have its id, so that none is moved to
another thread. -/
def getChildHdrForKey (thread : MsgThread) (desiredKey : Nat) : Option MsgHdr :=
  (List.range thread.numChildren).findSome? fun childIndex =>
    (thread.getChildHdrAt childIndex).filter fun hdr => hdr.messageKey = desiredKey

/-- The loop body of `ReparentMsgsWithInvalidParent`. -/
def reparentMsg (threadParentKey : Nat) (thread : MsgThread) (childIndex : Nat) : MsgThread :=
  match thread.getChildHdrAt childIndex with
  | none => thread
  | some curChild =>
    if curChild.threadParent = msgKeyNone then thread
    else
      match thread.getChild curChild.threadParent with
      | none => thread.setThreadParent curChild.messageKey threadParentKey
      | some _ =>
        if curChild.messageKey = curChild.threadParent then
          thread.setThreadParent curChild.messageKey
            (if thread.threadRootKey = curChild.messageKey then msgKeyNone
            else thread.threadRootKey)
        else thread

def reparentMsgsWithInvalidParent (thread : MsgThread) (numChildren threadParentKey : Nat) :
    MsgThread :=
  (List.range numChildren).foldl (reparentMsg threadParentKey) thread

/-- The loop body of `GetRootHdr`: the first message without a thread parent is the root. -/
def takeRoot (found : MsgThread × Option MsgHdr) (childIndex : Nat) : MsgThread × Option MsgHdr :=
  match found.1.getChildHdrAt childIndex with
  | none => found
  | some curChild =>
    if curChild.threadParent = msgKeyNone ∧ found.2 = none then
      let thread := found.1.setThreadRootKey curChild.messageKey
      (thread.reparentMsgsWithInvalidParent thread.numChildren curChild.messageKey, some curChild)
    else found

def getRootHdr (thread : MsgThread) : MsgThread × Option MsgHdr :=
  let (thread, result) :=
    if thread.threadRootKey = msgKeyNone then (thread, none)
    else
      match thread.getChildHdrForKey thread.threadRootKey with
      | some hdr =>
        if hdr.threadParent = msgKeyNone then (thread, some hdr)
        else (List.range thread.numChildren).foldl takeRoot (thread, none)
      | none => (List.range thread.numChildren).foldl takeRoot (thread, none)
  (thread, result.or (thread.getChildHdrAt 0))

/-- The thread parent of the message with a key, if it has one. -/
def parentOf (thread : MsgThread) (key : Nat) : Option Nat :=
  (thread.db.getMsgHdrForKey key).bind fun hdr =>
    if hdr.threadParent = msgKeyNone then none else some hdr.threadParent

def childKeys (thread : MsgThread) : List Nat := thread.children.map MsgHdr.messageKey

/-- One message has no thread parent, those of the others are in the thread, and there is no cycle.
`SetThreadKey` sets a root key, which need not be that of the root any more. -/
structure ThreadTree (thread : MsgThread) (root : Nat) : Prop where
  tree : ParentTree thread.parentOf thread.childKeys root
  rootKey : thread.threadRootKey ≠ msgKeyNone

variable {thread : MsgThread}

lemma parentOf_child (mem : hdr ∈ thread.children) :
    thread.parentOf hdr.messageKey =
      if hdr.threadParent = msgKeyNone then none else some hdr.threadParent := by
  rw [parentOf, mem_children mem, Option.bind_some]

lemma mem_children_iff : hdr ∈ thread.children ↔
    ∃ childIndex < thread.numChildren, thread.getChildHdrAt childIndex = some hdr := by
  rw [children, mem_filterMap]
  simp only [mem_range]

lemma getChild_child (mem : hdr ∈ thread.children) :
    thread.getChild hdr.messageKey = some hdr := by
  obtain ⟨childIndex, inside, found⟩ := mem_children_iff.mp mem
  rw [getChildHdrAt, if_neg (Nat.not_le_of_lt inside)] at found
  obtain ⟨key, row, looked⟩ := Option.bind_eq_some_iff.mp found
  have same := (MsgDatabase.getMsgHdrForKey_some looked).2
  have inTable : hdr.messageKey ∈ thread.table.rowArray := same ▸ mem_of_getElem? row
  rw [getChild, if_pos inTable]
  exact mem_children mem

section

variable (tree : ParentTree thread.parentOf thread.childKeys root) (mem : hdr ∈ thread.children)
include tree mem

lemma threadParent_iff : hdr.threadParent = msgKeyNone ↔ hdr.messageKey = root := by
  have parent := parentOf_child mem
  constructor
  · intro none
    by_contra notRoot
    obtain ⟨other, -, isParent⟩ := tree.parents hdr.messageKey (mem_map_of_mem mem) notRoot
    rw [if_pos none, isParent] at parent
    cases parent
  · intro isRoot
    by_contra some
    rw [if_neg some, isRoot, tree.top] at parent
    cases parent

lemma exists_parent (notNone : hdr.threadParent ≠ msgKeyNone) :
    (∃ parent ∈ thread.children, parent.messageKey = hdr.threadParent) ∧
      hdr.messageKey ≠ hdr.threadParent := by
  have isParent := (parentOf_child mem).trans (if_neg notNone)
  have inside := mem_map_of_mem (f := MsgHdr.messageKey) mem
  refine ⟨mem_map.mp (tree.parent_mem inside isParent), ?_⟩
  intro same
  refine tree.acyclic hdr.messageKey inside (.single ?_)
  rw [Up, isParent, same]

end

namespace ThreadTree

section

variable (tree : ThreadTree thread root)
include tree

lemma reparent_eq (threadParentKey : Nat) :
    thread.reparentMsgsWithInvalidParent thread.numChildren threadParentKey = thread := by
  have keeps : ∀ childIndex < thread.numChildren,
      reparentMsg threadParentKey thread childIndex = thread := by
    intro childIndex inside
    rw [reparentMsg]
    cases found : thread.getChildHdrAt childIndex with
    | none => rfl
    | some curChild =>
      have member := mem_children_iff.mpr ⟨childIndex, inside, found⟩
      dsimp only
      split
      · rfl
      · rename_i notNone
        obtain ⟨⟨parent, parentMember, isParent⟩, different⟩ := exists_parent tree.tree member notNone
        rw [← isParent, getChild_child parentMember, isParent]
        exact if_neg different
  rw [reparentMsgsWithInvalidParent]
  have inside : ∀ childIndex ∈ List.range thread.numChildren, childIndex < thread.numChildren :=
    fun _ member => mem_range.mp member
  generalize List.range thread.numChildren = indices at inside
  induction indices with
  | nil => rfl
  | cons childIndex later ih =>
    rw [forall_mem_cons] at inside
    rw [foldl_cons, keeps childIndex inside.1]
    exact ih inside.2

lemma root_ne_none : root ≠ msgKeyNone := by
  obtain ⟨hdr, mem, rfl⟩ := mem_map.mp tree.tree.root_mem
  obtain ⟨inDb, -⟩ := MsgDatabase.getMsgHdrForKey_some (mem_children mem)
  exact thread.db.real hdr inDb

lemma setThreadRootKey : ThreadTree (thread.setThreadRootKey root) root :=
  ⟨tree.tree, tree.root_ne_none⟩

lemma takeRoot_eq (inside : childIndex < thread.numChildren)
    (found : thread.getChildHdrAt childIndex = some hdr) :
    takeRoot (thread, none) childIndex =
      if hdr.messageKey = root then (thread.setThreadRootKey root, some hdr)
      else (thread, none) := by
  have isRoot := threadParent_iff tree.tree (mem_children_iff.mpr ⟨childIndex, inside, found⟩)
  rw [takeRoot, found]
  dsimp only
  by_cases none : hdr.threadParent = msgKeyNone
  · rw [if_pos ⟨none, rfl⟩, if_pos (isRoot.mp none), isRoot.mp none]
    exact congrArg (·, some hdr) (tree.setThreadRootKey.reparent_eq root)
  · rw [if_neg fun both => none both.1, if_neg fun same => none (isRoot.mpr same)]

lemma takeRoots_eq {indices : List Nat}
    (inside : ∀ childIndex ∈ indices, childIndex < thread.numChildren) (passed : ∃ childIndex ∈
      indices, ∃ hdr, thread.getChildHdrAt childIndex = some hdr ∧ hdr.messageKey = root) :
    ∃ rootHdr, rootHdr ∈ thread.children ∧ rootHdr.messageKey = root ∧
      indices.foldl takeRoot (thread, none) = (thread.setThreadRootKey root, some rootHdr) := by
  have stays : ∀ (indices : List Nat) (found : MsgThread) (hdr : MsgHdr),
      indices.foldl takeRoot (found, some hdr) = (found, some hdr) := by
    intro indices found hdr
    induction indices with
    | nil => rfl
    | cons childIndex later ih =>
      have kept : takeRoot (found, some hdr) childIndex = (found, some hdr) := by
        rw [takeRoot]
        cases found.getChildHdrAt childIndex with
        | none => rfl
        | some curChild => exact if_neg fun both => absurd both.2 (Option.some_ne_none _)
      rw [foldl_cons, kept, ih]
  induction indices with
  | nil =>
    obtain ⟨childIndex, none, -⟩ := passed
    exact absurd none not_mem_nil
  | cons childIndex later ih =>
    rw [forall_mem_cons] at inside
    rw [foldl_cons]
    cases found : thread.getChildHdrAt childIndex with
    | none =>
      have skipped : takeRoot (thread, none) childIndex = (thread, none) := by
        rw [takeRoot, found]
      rw [skipped]
      apply ih inside.2
      obtain ⟨rootIndex, mem, rootHdr, isRoot, same⟩ := passed
      rcases mem_cons.mp mem with rfl | mem
      · cases found.symm.trans isRoot
      · exact ⟨rootIndex, mem, rootHdr, isRoot, same⟩
    | some hdr =>
      rw [tree.takeRoot_eq inside.1 found]
      by_cases isRoot : hdr.messageKey = root
      · rw [if_pos isRoot, stays]
        exact ⟨hdr, mem_children_iff.mpr ⟨childIndex, inside.1, found⟩, isRoot, rfl⟩
      · rw [if_neg isRoot]
        apply ih inside.2
        obtain ⟨rootIndex, mem, rootHdr, rootFound, same⟩ := passed
        rcases mem_cons.mp mem with rfl | mem
        · cases found.symm.trans rootFound
          exact absurd same isRoot
        · exact ⟨rootIndex, mem, rootHdr, rootFound, same⟩

end

lemma getChildHdrForKey_some {desiredKey : Nat}
    (found : thread.getChildHdrForKey desiredKey = some hdr) :
    hdr ∈ thread.children ∧ hdr.messageKey = desiredKey := by
  obtain ⟨childIndex, inside, looked⟩ := exists_of_findSome?_eq_some found
  obtain ⟨isChild, isKey⟩ := Option.filter_eq_some_iff.mp looked
  exact ⟨mem_children_iff.mpr ⟨childIndex, mem_range.mp inside, isChild⟩,
    of_decide_eq_true isKey⟩

lemma getRootHdr_eq (tree : ThreadTree thread root) :
    ∃ rootHdr, rootHdr ∈ thread.children ∧ rootHdr.messageKey = root ∧
      thread.getRootHdr = (thread.setThreadRootKey root, some rootHdr) := by
  have searched : ∃ rootHdr, rootHdr ∈ thread.children ∧ rootHdr.messageKey = root ∧
      (List.range thread.numChildren).foldl takeRoot (thread, none) =
        (thread.setThreadRootKey root, some rootHdr) := by
    apply tree.takeRoots_eq
    · exact fun _ mem => mem_range.mp mem
    · obtain ⟨rootHdr, mem, isRoot⟩ := mem_map.mp tree.tree.root_mem
      obtain ⟨childIndex, inside, found⟩ := mem_children_iff.mp mem
      exact ⟨childIndex, mem_range.mpr inside, rootHdr, found, isRoot⟩
  obtain ⟨rootHdr, mem, isRoot, same⟩ := searched
  rw [getRootHdr, if_neg tree.rootKey]
  cases looked : thread.getChildHdrForKey thread.threadRootKey with
  | none =>
    dsimp only
    rw [same]
    exact ⟨rootHdr, mem, isRoot, rfl⟩
  | some hdr =>
    obtain ⟨inThread, isKey⟩ := getChildHdrForKey_some looked
    dsimp only
    by_cases none : hdr.threadParent = msgKeyNone
    · rw [if_pos none]
      have isRoot := (threadParent_iff tree.tree inThread).mp none
      refine ⟨hdr, inThread, isRoot, ?_⟩
      rw [← isRoot, isKey]
      rfl
    · rw [if_neg none, same]
      exact ⟨rootHdr, mem, isRoot, rfl⟩

end ThreadTree

/-- A message, a reply and a reply to that, which stands first in the table. The root key is that
of the reply. -/
def shuffled : MsgThread where
  db :=
    { hdrs := [⟨1, msgKeyNone, true, "a", []⟩, ⟨2, 1, true, "b", ["a"]⟩, ⟨3, 2, true, "c", ["b"]⟩]
      keys := by decide
      real := by decide }
  table := ⟨[3, 1, 2], none, [], 0, 0, false, true, false⟩
  threadRootKey := 2
  numChildren := 3

lemma shuffled_tree : ParentTree shuffled.parentOf shuffled.childKeys 1 := by
  have earlier : ∀ hdr ∈ shuffled.db.hdrs, hdr.threadParent ≠ msgKeyNone →
      hdr.threadParent < hdr.messageKey := by decide
  have less : ∀ key parent, shuffled.parentOf key = some parent → parent < key := by
    intro key parent isParent
    obtain ⟨hdr, found, same⟩ := Option.bind_eq_some_iff.mp isParent
    obtain ⟨mem, rfl⟩ := MsgDatabase.getMsgHdrForKey_some found
    split at same
    · cases same
    · rename_i notNone
      cases same
      exact earlier hdr mem notNone
  exact
    { distinct := by decide
      root_mem := by decide
      top := by decide
      parents := by decide
      acyclic := fun key _ => @not_transGen_of_rank _ _ id less key }

end MsgThread

end CommCentral.MsgDB
