import CommCentral.Lib.Iterator
import CommCentral.MsgDB.ThreadTree

/-! The enumerator over the children of a message in its thread (`nsMsgThreadEnumerator`), and the
walk through a thread that makes one for each message. -/
namespace CommCentral.MsgDB

open Lib List

/-- The members of `nsMsgThreadEnumerator`. `EnumerateMessages` gives it no filter. -/
structure ThreadEnumerator where
  resultHdr : Option MsgHdr
  threadParentKey : Nat
  firstMsgKey : Nat
  childIndex : Int
  done : Bool
  needToPrefetch : Bool
  foundChildren : Bool

namespace ThreadEnumerator

def msgKeyFirstChildIndex (thread : MsgThread) (inMsgKey : Nat) : Int :=
  let isChild := fun curChildIndex =>
    (thread.getChildHdrAt curChildIndex).any fun curHdr => curHdr.threadParent = inMsgKey
  match (List.range thread.numChildren).find? isChild with
  | some firstChildIndex => firstChildIndex
  | none => -1

/-- The constructor, and what becomes of the thread. -/
def new (thread : MsgThread) (startKey : Nat) : MsgThread × ThreadEnumerator :=
  let (thread, rootHdr) := thread.getRootHdr
  let start : ThreadEnumerator :=
    { resultHdr := none
      threadParentKey := startKey
      firstMsgKey := (rootHdr.map MsgHdr.messageKey).getD msgKeyNone
      childIndex := 0
      done := false
      needToPrefetch := true
      foundChildren := false }
  if startKey ≠ msgKeyNone ∧ (thread.getChildHdrForKey startKey).isSome then
    let childIndex := msgKeyFirstChildIndex thread startKey
    (thread, { start with childIndex := childIndex, done := childIndex < 0 })
  else (thread, start)

/-- The condition under which the loop of `Prefetch` stops. -/
def isResult (threadParentKey firstMsgKey : Nat) (hdr : MsgHdr) : Bool :=
  hdr.threadParent = threadParentKey ∨
    (hdr.threadParent = msgKeyNone ∧ threadParentKey = firstMsgKey ∧
      hdr.messageKey ≠ threadParentKey)

/-- The loop of `Prefetch`: the header it stops at, and the index of the next one. -/
def prefetchLoop (thread : MsgThread) (threadParentKey firstMsgKey : Nat) :
    (remaining childIndex : Nat) → Option MsgHdr × Nat
  | 0, childIndex => (none, childIndex)
  | remaining + 1, childIndex =>
    match (thread.getChildHdrAt childIndex).filter (isResult threadParentKey firstMsgKey) with
    | some hdr => (some hdr, childIndex + 1)
    | none => prefetchLoop thread threadParentKey firstMsgKey remaining (childIndex + 1)

def prefetch (thread : MsgThread) (enumerator : ThreadEnumerator) :
    MsgThread × ThreadEnumerator × Bool :=
  let (thread, enumerator) :=
    if enumerator.threadParentKey = msgKeyNone then
      let (thread, rootHdr) := thread.getRootHdr
      (thread, { enumerator with resultHdr := rootHdr, childIndex := 0 })
    else if enumerator.done then (thread, { enumerator with resultHdr := none })
    else
      let (resultHdr, childIndex) :=
        if enumerator.childIndex < thread.numChildren then
          let (resultHdr, childIndex) :=
            prefetchLoop thread enumerator.threadParentKey enumerator.firstMsgKey
              (thread.numChildren - enumerator.childIndex).toNat enumerator.childIndex.toNat
          (resultHdr, (childIndex : Int))
        else (none, enumerator.childIndex)
      let enumerator := { enumerator with resultHdr := resultHdr, childIndex := childIndex }
      if resultHdr = none ∧ enumerator.threadParentKey = enumerator.firstMsgKey ∧
          ¬ enumerator.foundChildren ∧ 1 < thread.numChildren then
        (thread.reparentMsgsWithInvalidParent thread.numChildren enumerator.threadParentKey,
          enumerator)
      else (thread, enumerator)
  match enumerator.resultHdr with
  | none => (thread, { enumerator with done := true }, false)
  | some _ => (thread, { enumerator with needToPrefetch := false, foundChildren := true }, true)

/-- `HasMoreElements` and `GetNext` -/
def call (state : MsgThread × ThreadEnumerator) :
    IteratorCall → (MsgThread × ThreadEnumerator) × IteratorAnswer MsgHdr
  | .hasMoreElements =>
    let (thread, enumerator) :=
      if state.2.needToPrefetch then
        let (thread, enumerator, _) := prefetch state.1 state.2
        (thread, enumerator)
      else state
    ((thread, enumerator), .more (!enumerator.done))
  | .getNext =>
    let (thread, enumerator, rv) :=
      if state.2.needToPrefetch then prefetch state.1 state.2 else (state.1, state.2, true)
    if rv then
      match enumerator.resultHdr with
      | some hdr => ((thread, { enumerator with needToPrefetch := true }), .item (some hdr))
      | none => ((thread, enumerator), .item none)
    else ((thread, enumerator), .item none)

section Children

variable (thread : MsgThread) (threadParentKey firstMsgKey : Nat)

/-- The headers from an index on at which the loop stops. -/
def resultsFrom (childIndex : Nat) : List MsgHdr :=
  (List.range' childIndex (thread.numChildren - childIndex)).filterMap fun childIndex =>
    (thread.getChildHdrAt childIndex).filter (isResult threadParentKey firstMsgKey)

variable {childIndex : Nat}

lemma resultsFrom_step (inside : childIndex < thread.numChildren) :
    resultsFrom thread threadParentKey firstMsgKey childIndex =
      ((thread.getChildHdrAt childIndex).filter (isResult threadParentKey firstMsgKey)).toList ++
        resultsFrom thread threadParentKey firstMsgKey (childIndex + 1) := by
  obtain ⟨more, left⟩ := Nat.exists_eq_add_of_lt inside
  have first : thread.numChildren - childIndex = thread.numChildren - (childIndex + 1) + 1 := by
    omega
  rw [resultsFrom, first, range'_succ, filterMap_cons]
  cases (thread.getChildHdrAt childIndex).filter (isResult threadParentKey firstMsgKey) with
  | none => rfl
  | some hdr => rfl

lemma resultsFrom_end (beyond : thread.numChildren ≤ childIndex) :
    resultsFrom thread threadParentKey firstMsgKey childIndex = [] := by
  rw [resultsFrom, Nat.sub_eq_zero_of_le beyond]
  rfl

lemma prefetchLoop_spec {remaining childIndex : Nat}
    (all : childIndex + remaining = thread.numChildren) :
    ∃ later ≤ thread.numChildren,
      ((prefetchLoop thread threadParentKey firstMsgKey remaining childIndex = (none, later) ∧
          resultsFrom thread threadParentKey firstMsgKey childIndex = []) ∨
        ∃ hdr, prefetchLoop thread threadParentKey firstMsgKey remaining childIndex =
            (some hdr, later) ∧
          resultsFrom thread threadParentKey firstMsgKey childIndex =
            hdr :: resultsFrom thread threadParentKey firstMsgKey later) := by
  induction remaining generalizing childIndex with
  | zero =>
    refine ⟨childIndex, Nat.le_of_eq all, .inl ⟨rfl, ?_⟩⟩
    exact resultsFrom_end thread threadParentKey firstMsgKey (Nat.le_of_eq all.symm)
  | succ remaining ih =>
    rw [prefetchLoop, resultsFrom_step thread threadParentKey firstMsgKey (by omega)]
    cases (thread.getChildHdrAt childIndex).filter (isResult threadParentKey firstMsgKey) with
    | none => exact ih (by omega)
    | some hdr => exact ⟨childIndex + 1, by omega, .inr ⟨hdr, rfl, rfl⟩⟩

/-- The headers before an index that the loop passes over may be left out. -/
theorem resultsFrom_skip (inside : childIndex ≤ thread.numChildren)
    (passed : ∀ earlier < childIndex,
      (thread.getChildHdrAt earlier).filter (isResult threadParentKey firstMsgKey) = none) :
    resultsFrom thread threadParentKey firstMsgKey 0 =
      resultsFrom thread threadParentKey firstMsgKey childIndex := by
  induction childIndex with
  | zero => rfl
  | succ childIndex ih =>
    have before := ih (Nat.le_of_succ_le inside)
      fun earlier less => passed earlier (Nat.lt_succ_of_lt less)
    rw [before, resultsFrom_step thread threadParentKey firstMsgKey inside,
      passed childIndex (Nat.lt_succ_self childIndex)]
    rfl

end Children

/-- The children of a message, in the order of the table. -/
def kids (thread : MsgThread) (key : Nat) : List MsgHdr :=
  thread.children.filter fun hdr => hdr.threadParent = key

section Tree

open MsgThread

variable {thread : MsgThread} {root : Nat}

/-- Only the root has no parent, so that no message is taken for a child of the root for lack of
one. -/
theorem isResult_eq (tree : ThreadTree thread root) (mem : hdr ∈ thread.children) :
    isResult key root hdr = decide (hdr.threadParent = key) := by
  apply decide_eq_decide.mpr
  constructor
  · rintro (same | ⟨none, isRoot, different⟩)
    · exact same
    · exact absurd ((threadParent_iff tree.tree mem).mp none) (isRoot ▸ different)
  · exact .inl

lemma resultsFrom_zero (tree : ThreadTree thread root) :
    resultsFrom thread key root 0 = kids thread key := by
  rw [resultsFrom, Nat.sub_zero, ← range_eq_range', ← filter_filterMap]
  apply filter_congr
  intro hdr mem
  exact isResult_eq tree mem

lemma resultsFrom_first (tree : ThreadTree thread root) :
    (msgKeyFirstChildIndex thread key = -1 ∧ kids thread key = []) ∨
      ∃ childIndex : Nat, msgKeyFirstChildIndex thread key = childIndex ∧
        childIndex ≤ thread.numChildren ∧
        kids thread key = resultsFrom thread key root childIndex := by
  have passed : ∀ childIndex < thread.numChildren,
      (!(thread.getChildHdrAt childIndex).any fun hdr => hdr.threadParent = key) = true →
      (thread.getChildHdrAt childIndex).filter (isResult key root) = none := by
    intro childIndex inside notChild
    cases found : thread.getChildHdrAt childIndex with
    | none => rfl
    | some hdr =>
      rw [found, Option.any_some, Bool.not_eq_true'] at notChild
      have member := mem_children_iff.mpr ⟨childIndex, inside, found⟩
      rw [Option.filter_some, isResult_eq tree member, notChild]
      rfl
  rw [msgKeyFirstChildIndex]
  cases found : (List.range thread.numChildren).find? fun childIndex =>
      (thread.getChildHdrAt childIndex).any fun hdr => hdr.threadParent = key with
  | none =>
    left
    refine ⟨rfl, ?_⟩
    rw [← resultsFrom_zero tree, resultsFrom_skip thread key root (Nat.le_refl _),
      resultsFrom_end thread key root (Nat.le_refl _)]
    intro childIndex inside
    exact passed childIndex inside (find?_range_eq_none.mp found childIndex inside)
  | some childIndex =>
    right
    obtain ⟨-, member, earlier⟩ := find?_range_eq_some.mp found
    have inside := mem_range.mp member
    refine ⟨childIndex, rfl, Nat.le_of_lt inside, ?_⟩
    rw [← resultsFrom_zero tree, resultsFrom_skip thread key root (Nat.le_of_lt inside)]
    intro index less
    exact passed index (Nat.lt_trans less inside) (earlier index less)

/-- What no call changes. -/
structure Common (thread : MsgThread) (key root : Nat) (state : MsgThread × ThreadEnumerator) :
    Prop where
  thread : state.1 = thread
  threadParentKey : state.2.threadParentKey = key
  firstMsgKey : state.2.firstMsgKey = root

/-- `Prefetch` has found no more headers. -/
structure Ended (thread : MsgThread) (key root : Nat) (state : MsgThread × ThreadEnumerator) :
    Prop where
  common : Common thread key root state
  flag : state.2.needToPrefetch = true
  done : state.2.done = true

/-- The enumerator is before the rest of the headers that it returns. -/
inductive Before (thread : MsgThread) (key root : Nat) (state : MsgThread × ThreadEnumerator)
    (items : List MsgHdr) : Prop
  | prefetched {hdr : MsgHdr} {childIndex : Nat} (common : Common thread key root state)
      (flag : state.2.needToPrefetch = false) (result : state.2.resultHdr = some hdr)
      (goesOn : state.2.done = false) (index : state.2.childIndex = childIndex)
      (inside : childIndex ≤ thread.numChildren)
      (rest : items = hdr :: resultsFrom thread key root childIndex)
  | pending {childIndex : Nat} (common : Common thread key root state)
      (flag : state.2.needToPrefetch = true) (goesOn : state.2.done = false)
      (index : state.2.childIndex = childIndex) (inside : childIndex ≤ thread.numChildren)
      (rest : items = resultsFrom thread key root childIndex)
  | ended (ended : Ended thread key root state) (rest : items = [])

lemma prefetch_pending (tree : ThreadTree thread root) (notNone : key ≠ msgKeyNone)
    {state : MsgThread × ThreadEnumerator} (common : Common thread key root state)
    (flag : state.2.needToPrefetch = true) (goesOn : state.2.done = false) {childIndex : Nat}
    (index : state.2.childIndex = childIndex) (inside : childIndex ≤ thread.numChildren) :
    (resultsFrom thread key root childIndex = [] ∧
        ∃ after, prefetch state.1 state.2 = (thread, after, false) ∧
          Ended thread key root (thread, after)) ∨
      ∃ hdr others after, resultsFrom thread key root childIndex = hdr :: others ∧
        prefetch state.1 state.2 = (thread, after, true) ∧ after.resultHdr = some hdr ∧
        after.done = false ∧
        Before thread key root (thread, after) (hdr :: others) ∧
        Before thread key root (thread, { after with needToPrefetch := true }) others := by
  obtain ⟨now, resultHdr, threadParentKey, firstMsgKey, index', done, needToPrefetch, found⟩ := state
  obtain ⟨rfl, rfl, rfl⟩ := common
  dsimp only at flag goesOn index notNone inside tree ⊢
  subst flag goesOn index
  have count : ((now.numChildren : Int) - childIndex).toNat = now.numChildren - childIndex := by
    omega
  by_cases less : childIndex < now.numChildren
  · have less' : (childIndex : Int) < now.numChildren := Int.ofNat_lt.mpr less
    obtain ⟨later, within, ⟨looped, none⟩ | ⟨hdr, looped, rest⟩⟩ :=
      @prefetchLoop_spec now threadParentKey firstMsgKey (now.numChildren - childIndex) childIndex
        (by omega)
    · left
      refine ⟨none, ?_⟩
      simp only [prefetch, if_neg notNone, Bool.false_eq_true, if_false, if_pos less', count,
        Int.toNat_natCast, looped, tree.reparent_eq, ite_self]
      exact ⟨_, rfl, ⟨⟨rfl, rfl, rfl⟩, rfl, rfl⟩⟩
    · right
      refine ⟨hdr, resultsFrom now threadParentKey firstMsgKey later, ?_⟩
      simp only [prefetch, if_neg notNone, Bool.false_eq_true, if_false, if_pos less', count,
        Int.toNat_natCast, looped, reduceCtorEq, false_and]
      refine ⟨_, rest, rfl, rfl, rfl, ?_, ?_⟩
      · exact .prefetched ⟨rfl, rfl, rfl⟩ rfl rfl rfl rfl within rfl
      · exact .pending ⟨rfl, rfl, rfl⟩ rfl rfl rfl within rfl
  · left
    have beyond := Nat.le_of_not_lt less
    have notLess : ¬ (childIndex : Int) < now.numChildren := by omega
    refine ⟨resultsFrom_end now threadParentKey firstMsgKey beyond, ?_⟩
    simp only [prefetch, if_neg notNone, Bool.false_eq_true, if_neg notLess,
      tree.reparent_eq, ite_self]
    exact ⟨_, rfl, ⟨⟨rfl, rfl, rfl⟩, rfl, rfl⟩⟩

lemma prefetch_ended (notNone : key ≠ msgKeyNone) {state : MsgThread × ThreadEnumerator}
    (ended : Ended thread key root state) :
    ∃ after, prefetch state.1 state.2 = (thread, after, false) ∧
      Ended thread key root (thread, after) := by
  obtain ⟨now, resultHdr, threadParentKey, firstMsgKey, index, done, needToPrefetch, found⟩ := state
  obtain ⟨⟨rfl, rfl, rfl⟩, flag, done⟩ := ended
  dsimp only at flag done notNone ⊢
  subst flag done
  simp only [prefetch, if_neg notNone, if_true]
  exact ⟨_, rfl, ⟨⟨rfl, rfl, rfl⟩, rfl, rfl⟩⟩

/-- A call that finds no more headers. -/
theorem call_failed {after : ThreadEnumerator}
    (flag : state.2.needToPrefetch = true)
    (fetched : prefetch state.1 state.2 = (thread, after, false))
    (ended : Ended thread key root (thread, after)) (next : IteratorCall) :
    Before thread key root (call state next).1 (listCall [] next).1 ∧
      (call state next).2 = (listCall [] next).2 := by
  cases next with
  | hasMoreElements =>
    have done : after.done = true := ended.done
    simp only [call, listCall, flag, if_true, fetched, done]
    exact ⟨.ended ended rfl, rfl⟩
  | getNext =>
    simp only [call, listCall, flag, if_true, fetched, Bool.false_eq_true, if_false]
    exact ⟨.ended ended rfl, rfl⟩

lemma call_before (tree : ThreadTree thread root) (notNone : key ≠ msgKeyNone)
    (state : MsgThread × ThreadEnumerator) (items : List MsgHdr) (next : IteratorCall)
    (before : Before thread key root state items) :
    Before thread key root (call state next).1 (listCall items next).1 ∧
      (call state next).2 = (listCall items next).2 := by
  cases before with
  | @prefetched hdr childIndex common flag result goesOn index inside rest =>
    cases next with
    | hasMoreElements =>
      simp only [call, listCall, flag, Bool.false_eq_true, if_false, goesOn, rest]
      exact ⟨.prefetched common flag result goesOn index inside rfl, rfl⟩
    | getNext =>
      simp only [call, listCall, flag, Bool.false_eq_true, if_false, if_true, result, rest]
      refine ⟨.pending ⟨common.thread, common.threadParentKey, common.firstMsgKey⟩ rfl goesOn index
        inside rfl, rfl⟩
  | @pending childIndex common flag goesOn index inside rest =>
    obtain ⟨none, after, fetched, ended⟩ |
        ⟨hdr, others, after, some, fetched, result, goesOn', before, later⟩ :=
      prefetch_pending tree notNone common flag goesOn index inside
    · rw [rest, none]
      exact call_failed flag fetched ended next
    · cases next with
      | hasMoreElements =>
        simp only [call, listCall, flag, if_true, fetched, goesOn', rest, some]
        exact ⟨before, rfl⟩
      | getNext =>
        obtain ⟨resultHdr, _, _, _, _, _, _⟩ := after
        dsimp only at result
        subst result
        simp only [call, listCall, flag, if_true, fetched, rest, some]
        exact ⟨later, rfl⟩
  | ended ended rest =>
    obtain ⟨after, fetched, still⟩ := prefetch_ended notNone ended
    rw [rest]
    exact call_failed ended.flag fetched still next

/-- `GetRootHdr` leaves the thread as it is. -/
structure Settled (thread : MsgThread) (root : Nat) : Prop where
  tree : ThreadTree thread root
  rootKey : thread.threadRootKey = root

lemma getChildHdrForKey_isSome (mem : key ∈ thread.childKeys) :
    (thread.getChildHdrForKey key).isSome := by
  obtain ⟨hdr, inThread, rfl⟩ := mem_map.mp mem
  obtain ⟨childIndex, inside, found⟩ := mem_children_iff.mp inThread
  apply findSome?_isSome_iff.mpr
  refine ⟨childIndex, mem_range.mpr inside, ?_⟩
  rw [found, Option.filter_some, if_pos (decide_eq_true rfl)]
  rfl

lemma childKey_ne_none (mem : key ∈ thread.childKeys) : key ≠ msgKeyNone := by
  obtain ⟨hdr, inThread, rfl⟩ := mem_map.mp mem
  obtain ⟨inDb, -⟩ := MsgDatabase.getMsgHdrForKey_some (mem_children inThread)
  exact thread.db.real hdr inDb

lemma new_before (settled : Settled thread root) (mem : key ∈ thread.childKeys) :
    ∃ start, new thread key = (thread, start) ∧
      Before thread key root (thread, start) (kids thread key) := by
  obtain ⟨rootHdr, -, isRoot, got⟩ := settled.tree.getRootHdr_eq
  have same : thread.setThreadRootKey root = thread := by
    rw [← settled.rootKey]
    rfl
  have known : key ≠ msgKeyNone ∧ (thread.getChildHdrForKey key).isSome :=
    ⟨childKey_ne_none mem, getChildHdrForKey_isSome mem⟩
  rw [new, got, same]
  dsimp only
  rw [if_pos known]
  refine ⟨_, rfl, ?_⟩
  obtain ⟨first, none⟩ | ⟨childIndex, first, inside, rest⟩ :=
    @resultsFrom_first thread root key settled.tree
  · exact .ended ⟨⟨rfl, rfl, isRoot⟩, rfl, by rw [first]; rfl⟩ none
  · refine .pending ⟨rfl, rfl, isRoot⟩ rfl ?_ first inside rest
    rw [first]
    exact decide_eq_false (Int.not_lt.mpr (Int.natCast_nonneg childIndex))

lemma new_setThreadRootKey (tree : ThreadTree thread root) (startKey : Nat) :
    new thread startKey = new (thread.setThreadRootKey root) startKey := by
  obtain ⟨rootHdr, -, isRoot, got⟩ := tree.getRootHdr_eq
  obtain ⟨rootHdr', -, isRoot', got'⟩ := tree.setThreadRootKey.getRootHdr_eq
  rw [new, new, got, got']
  simp only [Option.map_some, isRoot, isRoot']
  rfl

lemma Before.thread_eq (before : Before thread key root state items) : state.1 = thread := by
  cases before with
  | prefetched common | pending common => exact common.thread
  | ended ended => exact ended.common.thread

lemma childrenOf_eq (mem : key ∈ thread.childKeys) :
    childrenOf thread.parentOf thread.childKeys key =
      (kids thread key).map MsgHdr.messageKey := by
  rw [childrenOf, childKeys, filter_map, kids]
  congr 1
  apply filter_congr
  intro hdr inThread
  apply decide_eq_decide.mpr
  rw [parentOf_child inThread]
  split
  · rename_i none
    rw [none]
    exact iff_of_false (Option.some_ne_none _).symm (childKey_ne_none mem).symm
  · rw [Option.some.injEq]

end Tree

end ThreadEnumerator

/-- Descending into every child that an enumerator returns: the keys of the messages visited. -/
def descend : (fuel : Nat) → MsgThread × ThreadEnumerator → Option (MsgThread × List Nat)
  | 0, _ => none
  | fuel + 1, state =>
    match ThreadEnumerator.call state .hasMoreElements with
    | (state, .more true) =>
      match ThreadEnumerator.call state .getNext with
      | ((thread, enumerator), .item (some hdr)) => do
        let (thread, below) ← descend fuel (ThreadEnumerator.new thread hdr.messageKey)
        let (thread, later) ← descend fuel (thread, enumerator)
        some (thread, hdr.messageKey :: below ++ later)
      | (state, _) => some (state.1, [])
    | (state, _) => some (state.1, [])

def visitThread (fuel : Nat) (thread : MsgThread) (rootKey : Nat) : Option (List Nat) :=
  (descend fuel (ThreadEnumerator.new thread rootKey)).map fun (_, visited) => rootKey :: visited

section Visit

open MsgThread ThreadEnumerator

/-- The messages below one, each before what is below it. -/
def belowOf (thread : MsgThread) (depth key : Nat) : List Nat :=
  (childrenOf thread.parentOf thread.childKeys key).flatMap
    (preorder (childrenOf thread.parentOf thread.childKeys) depth)

/-- The loop of an enumerator, once the descents into the children come to an end. -/
theorem descend_items (tree : ThreadTree thread root) (notNone : key ≠ msgKeyNone) (below : ∀ hdr ∈
      items, ∃ enough, ∀ fuel, enough ≤ fuel → descend fuel (ThreadEnumerator.new thread
      hdr.messageKey) = some (thread, belowOf thread depth hdr.messageKey))
    (before : Before thread key root state items) :
    ∃ enough, ∀ fuel, enough ≤ fuel → descend fuel state =
      some (thread, (items.map MsgHdr.messageKey).flatMap
        (preorder (childrenOf thread.parentOf thread.childKeys) (depth + 1))) := by
  induction items generalizing state with
  | nil =>
    refine ⟨1, ?_⟩
    intro fuel enough
    obtain ⟨fuel, rfl⟩ := Nat.exists_eq_add_of_le' enough
    obtain ⟨still, answer⟩ := call_before tree notNone state [] .hasMoreElements before
    rw [descend]
    generalize ThreadEnumerator.call state .hasMoreElements = asking at still answer ⊢
    obtain ⟨asked, more⟩ := asking
    subst answer
    exact congrArg (fun thread => some (thread, [])) still.thread_eq
  | cons hdr items ih =>
    rw [forall_mem_cons] at below
    obtain ⟨enoughBelow, descended⟩ := below.1
    obtain ⟨asked, answer⟩ := call_before tree notNone state (hdr :: items) .hasMoreElements before
    generalize call : ThreadEnumerator.call state .hasMoreElements = asking at asked answer
    obtain ⟨state', more⟩ := asking
    subst answer
    obtain ⟨taken, answer⟩ := call_before tree notNone state' (hdr :: items) .getNext asked
    generalize call' : ThreadEnumerator.call state' .getNext = taking at taken answer
    obtain ⟨⟨now, enumerator⟩, item⟩ := taking
    subst answer
    obtain rfl : now = thread := taken.thread_eq
    obtain ⟨enoughLater, later⟩ := ih below.2 taken
    refine ⟨enoughBelow + enoughLater + 1, ?_⟩
    intro fuel enough
    obtain ⟨fuel, rfl⟩ := Nat.exists_eq_add_of_le' (Nat.le_trans (Nat.le_add_left 1 _) enough)
    rw [descend, call]
    simp only [listCall, isEmpty_cons, Bool.not_false, call', head?_cons]
    rw [descended fuel (by omega)]
    simp only [Option.bind_eq_bind, Option.bind_some]
    rw [later fuel (by omega)]
    rfl

/-- From a message with so many nodes above it the descent comes to an end. -/
theorem descend_new (settled : Settled thread root) (depth : Nat) {key count : Nat}
    (mem : key ∈ thread.childKeys) (ends : Ends thread.parentOf key count root)
    (deep : thread.childKeys.length ≤ count + depth) :
    ∃ enough, ∀ fuel, enough ≤ fuel →
      descend fuel (ThreadEnumerator.new thread key) = some (thread, belowOf thread depth key) := by
  induction depth generalizing key count with
  | zero =>
    have short := settled.tree.tree.count_lt ends mem
    omega
  | succ depth ih =>
    obtain ⟨start, made, before⟩ := new_before settled mem
    rw [made, belowOf, childrenOf_eq mem]
    apply descend_items settled.tree (childKey_ne_none mem) _ before
    intro hdr isKid
    have isChild : hdr.messageKey ∈ childrenOf thread.parentOf thread.childKeys key := by
      rw [childrenOf_eq mem]
      exact mem_map_of_mem isKid
    obtain ⟨inside, isParent⟩ := mem_childrenOf.mp isChild
    exact ih inside (.up isParent ends) (by omega)

/-- Starting at the root, every message of the thread is visited once. -/
theorem visitThread_perm (tree : ThreadTree thread root) :
    ∃ fuel visited, visitThread fuel thread root = some visited ∧
      visited.Perm thread.childKeys := by
  have settled : Settled (thread.setThreadRootKey root) root := ⟨tree.setThreadRootKey, rfl⟩
  obtain ⟨enough, descended⟩ := descend_new settled (thread.childKeys.length)
    tree.tree.root_mem (.here tree.tree.top) (Nat.le_of_eq (Nat.zero_add _).symm)
  refine ⟨enough, root :: belowOf thread thread.childKeys.length root, ?_, ?_⟩
  · rw [visitThread, new_setThreadRootKey tree, descended enough (Nat.le_refl _)]
    rfl
  · exact preorder_perm tree.tree (Nat.le_succ _)

theorem visitThread_perm_shuffled :
    ∃ fuel visited, visitThread fuel shuffled 1 = some visited ∧
      visited.Perm shuffled.childKeys := by
  exact visitThread_perm ⟨shuffled_tree, by decide⟩

end Visit

end CommCentral.MsgDB
