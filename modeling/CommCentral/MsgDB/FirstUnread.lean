import CommCentral.Lib.Ascent
import CommCentral.Lib.FirstLeast
import CommCentral.MsgDB.MsgThread
import Mathlib.Data.List.MinMax
import Mathlib.Data.List.TakeWhile
import Mathlib.Tactic.Choose

/-! The first unread child of a thread (`GetFirstUnreadChild`). -/
namespace CommCentral.MsgDB

open Lib List

def MsgDatabase.parentKey (db : MsgDatabase) (key : Nat) : Option Nat :=
  (db.getMsgHdrForKey key).map MsgHdr.threadParent

/-- The number of ancestors, where all of them are in the database and come to an end. -/
def MsgDatabase.Depth (db : MsgDatabase) (hdr : MsgHdr) (depth : Nat) : Prop :=
  Ends db.parentKey hdr.threadParent depth msgKeyNone

namespace MsgThread

def children (thread : MsgThread) : List MsgHdr :=
  (List.range thread.numChildren).filterMap thread.getChildHdrAt

def unreadChildren (thread : MsgThread) : List MsgHdr := thread.children.filter (!·.isRead)

/-- The thread parents make a tree of the children. -/
structure IsTree (thread : MsgThread) : Prop where
  root : ∃ hdr ∈ thread.children, hdr.messageKey = thread.threadRootKey ∧
    hdr.threadParent = msgKeyNone
  parents : ∀ hdr ∈ thread.children, hdr.messageKey = thread.threadRootKey ∨
    ∃ parent ∈ thread.children, parent.messageKey = hdr.threadParent
  depths : ∀ hdr ∈ thread.children, ∃ depth, thread.db.Depth hdr depth

/-- An unread child of minimal depth, and the root if that is unread. -/
structure Shallowest (thread : MsgThread) (found : MsgHdr) : Prop where
  unread : found ∈ thread.unreadChildren
  least : ∃ depth, thread.db.Depth found depth ∧
    ∀ hdr ∈ thread.unreadChildren, ∀ depth', thread.db.Depth hdr depth' → depth ≤ depth'
  root : ∀ hdr ∈ thread.unreadChildren, hdr.messageKey = thread.threadRootKey →
    found.messageKey = thread.threadRootKey

/-- `GetFirstUnreadChild` comes to an end, in a tree with an unread child of minimal depth. -/
def FindsFirstUnread (thread : MsgThread) : Prop :=
  ∃ fuel result, thread.getFirstUnreadChild fuel = some result ∧
    (thread.IsTree → thread.unreadChildren ≠ [] →
      ∃ found, result.hdr = some found ∧ thread.Shallowest found)

def beforeRoot (thread : MsgThread) (hdrs : List MsgHdr) : List MsgHdr :=
  hdrs.takeWhile fun hdr => hdr.messageKey ≠ thread.threadRootKey

/-- The unread children whose ancestors are counted. -/
def countedChildren (thread : MsgThread) : List MsgHdr := thread.beforeRoot thread.unreadChildren

/-- The first unread child whose depth is least modulo 256 has the least depth. -/
def LeastModulo (thread : MsgThread) : Prop :=
  ∃ before found after depth, thread.unreadChildren = before ++ found :: after ∧
    thread.db.Depth found depth ∧ depth % 256 < 0xff ∧
    (∀ hdr ∈ thread.unreadChildren, ∀ depth', thread.db.Depth hdr depth' →
      depth ≤ depth' ∧ depth % 256 ≤ depth' % 256) ∧
    ∀ hdr ∈ before, ∀ depth', thread.db.Depth hdr depth' → depth % 256 < depth' % 256

/-- The ancestors that are counted come to an end, and a `uint8_t` is enough to compare them. -/
def CountsAncestors (thread : MsgThread) : Prop :=
  (∀ hdr ∈ thread.countedChildren, ∃ depth, thread.db.Depth hdr depth) ∧
    (thread.IsTree → thread.unreadChildren ≠ [] →
      (∃ hdr ∈ thread.unreadChildren, hdr.messageKey = thread.threadRootKey) ∨ thread.LeastModulo)

lemma countAncestors_of_ends {db : MsgDatabase} {parentId depth last : Nat}
    (ends : Ends db.parentKey parentId depth last) (isLast : last = msgKeyNone) {fuel : Nat}
    (enough : depth < fuel) {level : Nat} (byte : level < 256) :
    countAncestors db fuel parentId level = some ((level + depth) % 256) := by
  induction ends generalizing fuel level with
  | here top =>
    obtain ⟨fuel, rfl⟩ := Nat.exists_eq_succ_of_ne_zero (Nat.ne_of_gt enough)
    rw [countAncestors, if_pos isLast, Nat.add_zero, Nat.mod_eq_of_lt byte]
  | @up parentId _ _ _ isParent ends ih =>
    obtain ⟨fuel, rfl⟩ := Nat.exists_eq_succ_of_ne_zero (Nat.ne_of_gt (Nat.zero_lt_of_lt enough))
    obtain ⟨parent, found, rfl⟩ := Option.map_eq_some_iff.mp isParent
    have notNone : parentId ≠ msgKeyNone := by
      rintro rfl
      exact absurd (db.getMsgHdrForKey_none.symm.trans found) (Option.some_ne_none _).symm
    rw [countAncestors, if_neg notNone, found]
    dsimp only
    rw [ih isLast (Nat.lt_of_succ_lt_succ enough) (Nat.mod_lt _ (by decide)), Nat.mod_add_mod]
    congr 2
    omega

lemma ends_of_countAncestors {db : MsgDatabase}
    (counted : countAncestors db fuel parentId level = some result) :
    ∃ depth, Ends db.parentKey parentId depth msgKeyNone ∧ depth < fuel := by
  induction fuel generalizing parentId level with
  | zero => exact absurd counted.symm (Option.some_ne_none _)
  | succ fuel ih =>
    rw [countAncestors] at counted
    by_cases none : parentId = msgKeyNone
    · subst none
      refine ⟨0, .here ?_, Nat.zero_lt_succ fuel⟩
      rw [MsgDatabase.parentKey, db.getMsgHdrForKey_none]
      rfl
    · rw [if_neg none] at counted
      cases found : db.getMsgHdrForKey parentId with
      | none =>
        rw [found] at counted
        obtain ⟨depth, ends, enough⟩ := ih counted
        exact ⟨depth, ends, Nat.lt_succ_of_lt enough⟩
      | some parent =>
        rw [found] at counted
        obtain ⟨depth, ends, enough⟩ := ih counted
        refine ⟨depth + 1, .up ?_ ends, Nat.succ_lt_succ enough⟩
        rw [MsgDatabase.parentKey, found]
        rfl

/-- The loop over the children, as far as the unread ones go. -/
def scanUnread (thread : MsgThread) (fuel : Nat) : List MsgHdr → (minLevel : Nat) →
    (retHdr : Option MsgHdr) → Option (Option MsgHdr)
  | [], _, retHdr => some retHdr
  | child :: later, minLevel, retHdr =>
    if child.messageKey = thread.threadRootKey then some (some child)
    else
      (countAncestors thread.db fuel child.threadParent 0).bind fun level =>
        if level < minLevel then thread.scanUnread fuel later level (some child)
        else thread.scanUnread fuel later minLevel retHdr

variable {thread : MsgThread}

lemma getChildHdrAt_some (found : thread.getChildHdrAt index = some hdr) :
    thread.db.getMsgHdrForKey hdr.messageKey = some hdr := by
  rw [getChildHdrAt] at found
  split at found
  · exact absurd found.symm (Option.some_ne_none _)
  · obtain ⟨key, _, looked⟩ := Option.bind_eq_some_iff.mp found
    rw [(MsgDatabase.getMsgHdrForKey_some looked).2]
    exact looked

lemma firstUnreadLoop_eq (thread : MsgThread) (fuel : Nat) (indices : List Nat) (minLevel : Nat)
    (found : FirstUnread) :
    (thread.firstUnreadLoop fuel indices minLevel found).map FirstUnread.hdr =
      thread.scanUnread fuel ((indices.filterMap thread.getChildHdrAt).filter (!·.isRead)) minLevel
        found.hdr := by
  induction indices generalizing minLevel found with
  | nil => rfl
  | cons childIndex later ih =>
    rw [firstUnreadLoop]
    cases isChild : thread.getChildHdrAt childIndex with
    | none =>
      rw [filterMap_cons_none isChild]
      exact ih minLevel _
    | some child =>
      rw [filterMap_cons_some isChild]
      have looked : thread.db.isRead child.messageKey = some child.isRead := by
        rw [MsgDatabase.isRead, getChildHdrAt_some isChild]
        rfl
      dsimp only
      rw [looked]
      cases read : child.isRead with
      | true =>
        rw [filter_cons_of_neg (by rw [read]; decide)]
        exact ih minLevel _
      | false =>
        rw [filter_cons_of_pos (by rw [read]; decide), scanUnread]
        dsimp only
        split
        · rfl
        · cases countAncestors thread.db fuel child.threadParent 0 with
          | none => rfl
          | some level =>
            dsimp only [Option.bind_some]
            split
            · exact ih level _
            · exact ih minLevel _

lemma getFirstUnreadChild_eq (thread : MsgThread) (fuel : Nat) :
    (thread.getFirstUnreadChild fuel).map FirstUnread.hdr =
      thread.scanUnread fuel thread.unreadChildren 0xff none :=
  firstUnreadLoop_eq thread fuel _ _ _

lemma mem_children (mem : hdr ∈ thread.children) :
    thread.db.getMsgHdrForKey hdr.messageKey = some hdr := by
  obtain ⟨index, _, found⟩ := mem_filterMap.mp mem
  exact getChildHdrAt_some found

lemma mem_unreadChildren (mem : hdr ∈ thread.unreadChildren) : hdr ∈ thread.children :=
  (mem_filter.mp mem).1

lemma beforeRoot_cons (thread : MsgThread) (child : MsgHdr) (later : List MsgHdr) :
    thread.beforeRoot (child :: later) =
      if child.messageKey = thread.threadRootKey then [] else child :: thread.beforeRoot later := by
  rw [beforeRoot, takeWhile_cons]
  by_cases isRoot : child.messageKey = thread.threadRootKey
  · have stops : ¬ decide (child.messageKey ≠ thread.threadRootKey) = true :=
      fun notRoot => (of_decide_eq_true notRoot : _ ≠ _) isRoot
    rw [if_pos isRoot, if_neg stops]
  · rw [if_neg isRoot, if_pos (decide_eq_true isRoot), beforeRoot]

lemma beforeRoot_of_noRoot {hdrs : List MsgHdr}
    (noRoot : ∀ hdr ∈ hdrs, hdr.messageKey ≠ thread.threadRootKey) :
    thread.beforeRoot hdrs = hdrs :=
  takeWhile_eq_self_iff.mpr fun hdr mem => decide_eq_true (noRoot hdr mem)

variable {depths : MsgHdr → Nat} {hdrs : List MsgHdr}

lemma scanUnread_noRoot (ends : ∀ hdr ∈ hdrs, thread.db.Depth hdr (depths hdr) ∧ depths hdr < fuel)
    (noRoot : ∀ hdr ∈ hdrs, hdr.messageKey ≠ thread.threadRootKey) (minLevel : Nat) (retHdr) :
    thread.scanUnread fuel hdrs minLevel retHdr =
      some (firstLeast (fun hdr => depths hdr % 256) hdrs minLevel retHdr) := by
  induction hdrs generalizing minLevel retHdr with
  | nil => rfl
  | cons child later ih =>
    obtain ⟨⟨depth, enough⟩, laterEnds⟩ := forall_mem_cons.mp ends
    obtain ⟨notRoot, laterNoRoot⟩ := forall_mem_cons.mp noRoot
    have counted := countAncestors_of_ends depth rfl enough (Nat.zero_lt_succ 255)
    rw [Nat.zero_add] at counted
    rw [scanUnread, if_neg notRoot, counted, Option.bind_some, firstLeast]
    split
    · exact ih laterEnds laterNoRoot _ _
    · exact ih laterEnds laterNoRoot _ _

lemma scanUnread_root
    (ends : ∀ hdr ∈ thread.beforeRoot hdrs,
      thread.db.Depth hdr (depths hdr) ∧ depths hdr < fuel)
    (root : ∃ hdr ∈ hdrs, hdr.messageKey = thread.threadRootKey) (minLevel : Nat)
    (retHdr : Option MsgHdr) :
    ∃ found ∈ hdrs, thread.scanUnread fuel hdrs minLevel retHdr = some (some found) ∧
      found.messageKey = thread.threadRootKey := by
  induction hdrs generalizing minLevel retHdr with
  | nil =>
    obtain ⟨_, mem, _⟩ := root
    exact absurd mem not_mem_nil
  | cons child later ih =>
    rw [scanUnread]
    by_cases isRoot : child.messageKey = thread.threadRootKey
    · rw [if_pos isRoot]
      exact ⟨child, mem_cons_self, rfl, isRoot⟩
    · rw [beforeRoot_cons, if_neg isRoot] at ends
      obtain ⟨⟨depth, enough⟩, laterEnds⟩ := forall_mem_cons.mp ends
      have laterRoot : ∃ hdr ∈ later, hdr.messageKey = thread.threadRootKey := by
        obtain ⟨hdr, mem, key⟩ := root
        rcases mem_cons.mp mem with isChild | inLater
        · exact absurd (isChild ▸ key) isRoot
        · exact ⟨hdr, inLater, key⟩
      rw [if_neg isRoot, countAncestors_of_ends depth rfl enough (Nat.zero_lt_succ 255),
        Option.bind_some]
      split
      · obtain ⟨found, mem, scanned⟩ := ih laterEnds laterRoot _ _
        exact ⟨found, mem_cons_of_mem _ mem, scanned⟩
      · obtain ⟨found, mem, scanned⟩ := ih laterEnds laterRoot _ _
        exact ⟨found, mem_cons_of_mem _ mem, scanned⟩

/-- A scan that ends has counted the ancestors of all children before the root. -/
theorem depth_of_scanUnread {retHdr found : Option MsgHdr}
    (scanned : thread.scanUnread fuel hdrs minLevel retHdr = some found) :
    ∀ hdr ∈ thread.beforeRoot hdrs, ∃ depth, thread.db.Depth hdr depth ∧ depth < fuel := by
  induction hdrs generalizing minLevel retHdr with
  | nil => exact nofun
  | cons child later ih =>
    rw [scanUnread] at scanned
    by_cases isRoot : child.messageKey = thread.threadRootKey
    · rw [beforeRoot_cons, if_pos isRoot]
      exact nofun
    · rw [if_neg isRoot] at scanned
      obtain ⟨level, counted, scanned⟩ := Option.bind_eq_some_iff.mp scanned
      rw [beforeRoot_cons, if_neg isRoot]
      refine forall_mem_cons.mpr ⟨ends_of_countAncestors counted, ?_⟩
      split at scanned
      · exact ih scanned
      · exact ih scanned

/-- Where the ancestors come to an end, one number of rounds is enough for all of them. -/
theorem exists_depths (ends : ∀ hdr ∈ hdrs, ∃ depth, thread.db.Depth hdr depth) :
    ∃ (depths : MsgHdr → Nat) (fuel : Nat),
      ∀ hdr ∈ hdrs, thread.db.Depth hdr (depths hdr) ∧ depths hdr < fuel := by
  choose! depths isDepth using ends
  refine ⟨depths, (hdrs.map depths).foldr max 0 + 1, ?_⟩
  intro hdr mem
  exact ⟨isDepth hdr mem, Nat.lt_succ_of_le
    (le_max_of_le' 0 (mem_map_of_mem mem) (Nat.le_refl _))⟩

lemma IsTree.depth_root (tree : thread.IsTree) (mem : hdr ∈ thread.children)
    (isRoot : hdr.messageKey = thread.threadRootKey) : thread.db.Depth hdr 0 := by
  obtain ⟨root, rootMember, rootKey, noParent⟩ := tree.root
  have same : some hdr = some root := by
    rw [← mem_children mem, ← mem_children rootMember, isRoot, rootKey]
  cases same
  rw [MsgDatabase.Depth, noParent]
  refine .here ?_
  rw [MsgDatabase.parentKey, MsgDatabase.getMsgHdrForKey_none]
  rfl

/-- The first child of the least level is one of minimal depth exactly if its depth is least. -/
theorem shallowest_iff_leastModulo
    (noRoot : ∀ hdr ∈ thread.unreadChildren, hdr.messageKey ≠ thread.threadRootKey)
    (isDepth : ∀ hdr ∈ thread.unreadChildren, thread.db.Depth hdr (depths hdr)) :
    (∃ found, firstLeast (fun hdr => depths hdr % 256) thread.unreadChildren 0xff none =
      some found ∧ thread.Shallowest found) ↔ thread.LeastModulo := by
  have unique : ∀ hdr ∈ thread.unreadChildren, ∀ depth, thread.db.Depth hdr depth →
      depth = depths hdr := fun hdr mem depth ends => (ends.unique (isDepth hdr mem)).1
  constructor
  · rintro ⟨found, isFound, shallowest⟩
    obtain ⟨depth, ends, least⟩ := shallowest.least
    have same := unique found shallowest.unread depth ends
    rcases firstLeast_cases (fun hdr => depths hdr % 256) thread.unreadChildren 0xff none with
      ⟨_, nothing⟩ | ⟨before, item, after, split, below, isLeast, isItem⟩
    · exact absurd (nothing.symm.trans isFound) (Option.some_ne_none _).symm
    · cases isItem.symm.trans isFound
      have members : ∀ hdr ∈ before, hdr ∈ thread.unreadChildren := by
        intro hdr mem
        rw [split]
        exact mem_append_left _ mem
      refine ⟨before, found, after, depth, split, ends, same ▸ below, ?_, ?_⟩
      · intro hdr mem depth' ends'
        refine ⟨least hdr mem depth' ends', ?_⟩
        rw [same, unique hdr mem depth' ends']
        rw [split, mem_append, mem_cons] at mem
        rcases mem with inBefore | isSame | inAfter
        · exact Nat.le_of_lt (isLeast.earlier hdr inBefore)
        · exact Nat.le_of_eq (congrArg (fun hdr => depths hdr % 256) isSame.symm)
        · exact isLeast.later hdr inAfter
      · intro hdr mem depth' ends'
        rw [same, unique hdr (members hdr mem) depth' ends']
        exact isLeast.earlier hdr mem
  · rintro ⟨before, found, after, depth, split, ends, below, least, earlier⟩
    have mem : found ∈ thread.unreadChildren := by
      rw [split]
      exact mem_append_right _ mem_cons_self
    have same := unique found mem depth ends
    subst same
    have isLeast : IsFirstLeast (fun hdr => depths hdr % 256) before found after := by
      constructor
      · intro hdr inBefore
        refine earlier hdr inBefore _ (isDepth hdr ?_)
        rw [split]
        exact mem_append_left _ inBefore
      · intro hdr inAfter
        have inUnread : hdr ∈ thread.unreadChildren := by
          rw [split]
          exact mem_append_right _ (mem_cons_of_mem _ inAfter)
        exact (least hdr inUnread _ (isDepth hdr inUnread)).2
    refine ⟨found, ?_, mem, ⟨_, ends, fun hdr inUnread depth' ends' =>
      (least hdr inUnread depth' ends').1⟩, ?_⟩
    · rw [split]
      exact firstLeast_of_split isLeast below none
    · exact fun hdr inUnread isRoot => absurd isRoot (noRoot hdr inUnread)

/-- The scan does what it is for if and only if all ancestors that it counts come to an end and
their number is compared rightly. -/
theorem findsFirstUnread_iff (thread : MsgThread) :
    thread.FindsFirstUnread ↔ thread.CountsAncestors := by
  by_cases root : ∃ hdr ∈ thread.unreadChildren, hdr.messageKey = thread.threadRootKey
  · constructor
    · rintro ⟨fuel, result, ran, _⟩
      have scanned := getFirstUnreadChild_eq thread fuel
      rw [ran] at scanned
      refine ⟨?_, fun _ _ => .inl root⟩
      intro hdr mem
      obtain ⟨depth, ends, _⟩ := depth_of_scanUnread scanned.symm hdr mem
      exact ⟨depth, ends⟩
    · rintro ⟨ends, _⟩
      obtain ⟨depths, fuel, isDepth⟩ := exists_depths ends
      obtain ⟨found, mem, scanned, isRoot⟩ := scanUnread_root isDepth root 0xff none
      rw [← getFirstUnreadChild_eq] at scanned
      obtain ⟨result, ran, isFound⟩ := Option.map_eq_some_iff.mp scanned
      refine ⟨fuel, result, ran, ?_⟩
      intro tree _
      refine ⟨found, isFound, mem, ?_, fun _ _ _ => isRoot⟩
      exact ⟨0, tree.depth_root (mem_unreadChildren mem) isRoot, fun _ _ _ _ => Nat.zero_le _⟩
  · have noRoot : ∀ hdr ∈ thread.unreadChildren, hdr.messageKey ≠ thread.threadRootKey :=
      fun hdr mem isRoot => root ⟨hdr, mem, isRoot⟩
    have counted : thread.countedChildren = thread.unreadChildren := beforeRoot_of_noRoot noRoot
    constructor
    · rintro ⟨fuel, result, ran, finds⟩
      have scanned := getFirstUnreadChild_eq thread fuel
      rw [ran] at scanned
      have ends := depth_of_scanUnread scanned.symm
      refine ⟨fun hdr mem => (ends hdr mem).imp fun _ => And.left, ?_⟩
      intro tree some
      change ∀ hdr ∈ thread.countedChildren, _ at ends
      rw [counted] at ends
      choose! depths isDepth using ends
      rw [scanUnread_noRoot isDepth noRoot, Option.map_some, Option.some.injEq] at scanned
      obtain ⟨found, isFound, shallowest⟩ := finds tree some
      exact .inr ((shallowest_iff_leastModulo noRoot fun hdr mem => (isDepth hdr mem).1).mp
        ⟨found, scanned.symm.trans isFound, shallowest⟩)
    · rintro ⟨ends, least⟩
      rw [counted] at ends
      obtain ⟨depths, fuel, isDepth⟩ := exists_depths ends
      have scanned := scanUnread_noRoot isDepth noRoot 0xff none
      rw [← getFirstUnreadChild_eq] at scanned
      obtain ⟨result, ran, isFound⟩ := Option.map_eq_some_iff.mp scanned
      refine ⟨fuel, result, ran, ?_⟩
      intro tree some
      obtain ⟨found, isLeast, shallowest⟩ :=
        (shallowest_iff_leastModulo noRoot fun hdr mem => (isDepth hdr mem).1).mpr
          ((least tree some).resolve_left root)
      exact ⟨found, isFound.trans isLeast, shallowest⟩

/-- An unread message whose thread parent, the message 9, is no longer there. -/
def danglingThread : MsgThread where
  db := { hdrs := [⟨1, msgKeyNone, true, "a", []⟩, ⟨2, 9, false, "c", ["a", "b"]⟩]
          keys := by decide, real := by decide }
  table := ⟨[1, 2], none, [], 0, 0, false, true, false⟩
  threadRootKey := 1
  numChildren := 2

lemma countAncestors_missing {db : MsgDatabase} (isKey : parentId ≠ msgKeyNone)
    (missing : db.getMsgHdrForKey parentId = none) (fuel level : Nat) :
    countAncestors db fuel parentId level = none := by
  induction fuel with
  | zero => rfl
  | succ fuel ih =>
    rw [countAncestors, if_neg isKey, missing]
    exact ih

/-- The scan of this thread does not end. -/
theorem findsFirstUnread_dangling :
    (∀ fuel, danglingThread.getFirstUnreadChild fuel = none) ∧ ¬ danglingThread.FindsFirstUnread := by
  have never : ∀ fuel, danglingThread.getFirstUnreadChild fuel = none := by
    intro fuel
    have unread : danglingThread.unreadChildren = [⟨2, 9, false, "c", ["a", "b"]⟩] := by
      decide +kernel
    rw [← Option.map_eq_none_iff, getFirstUnreadChild_eq, unread, scanUnread,
      countAncestors_missing (by decide) (by decide)]
    rfl
  refine ⟨never, ?_⟩
  rintro ⟨fuel, result, ran, _⟩
  exact absurd ((never fuel).symm.trans ran) (Option.some_ne_none _).symm

end MsgThread

end CommCentral.MsgDB
