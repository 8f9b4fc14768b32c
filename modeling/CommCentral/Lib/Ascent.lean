import Mathlib.Data.Set.Finite.Basic
import Mathlib.Logic.Basic
import Mathlib.Logic.Relation

/-! Chains that are followed upwards by a partial function until it has no value. -/
namespace CommCentral.Lib
open List Option

universe u

variable {Node : Type u} {next : Node → Option Node}

/-- The chain from a node comes to its end after a number of steps. -/
inductive Ends (next : Node → Option Node) : Node → Nat → Node → Prop
  | here {node : Node} (top : next node = none) : Ends next node 0 node
  | up {node parent last : Node} {count : Nat} (isParent : next node = some parent)
      (ends : Ends next parent count last) : Ends next node (count + 1) last

variable {node parent last last' : Node} {count count' : Nat}

lemma Ends.top (ends : Ends next node count last) : next last = none := by
  induction ends with
  | here top => exact top
  | up _ _ ih => exact ih

/-- A chain has one end and one length, so that it meets no node twice. -/
theorem Ends.unique (ends : Ends next node count last) (ends' : Ends next node count' last') :
    count = count' ∧ last = last' := by
  induction ends generalizing count' with
  | here top =>
    cases ends' with
    | here => exact ⟨rfl, rfl⟩
    | up isParent _ => exact absurd (top.symm.trans isParent) (some_ne_none _).symm
  | up isParent _ ih =>
    cases ends' with
    | here top => exact absurd (top.symm.trans isParent) (some_ne_none _).symm
    | up isParent' ends' =>
      cases isParent.symm.trans isParent'
      obtain ⟨sameCount, sameLast⟩ := ih ends'
      exact ⟨congrArg (· + 1) sameCount, sameLast⟩

lemma Ends.rest (isParent : next node = some parent) (ends : Ends next node count last) :
    ∃ fewer, count = fewer + 1 ∧ Ends next parent fewer last := by
  cases ends with
  | here top => exact absurd (top.symm.trans isParent) (some_ne_none _).symm
  | up isParent' ends =>
    cases isParent.symm.trans isParent'
    exact ⟨_, rfl, ends⟩

lemma Ends.at_top (top : next node = none) (ends : Ends next node count last) :
    count = 0 ∧ last = node := by
  obtain ⟨sameCount, sameLast⟩ := ends.unique (.here top)
  exact ⟨sameCount, sameLast⟩

/-- The node next to the start of a chain is its end only after one step. -/
theorem Ends.eq_parent_iff (isParent : next node = some parent)
    (ends : Ends next node (count + 1) last) : last = parent ↔ count = 0 := by
  obtain ⟨fewer, same, rest⟩ := ends.rest isParent
  cases same
  constructor
  · intro isLast
    subst isLast
    exact (rest.at_top ends.top).1
  · intro zero
    subst zero
    cases rest with
    | here => rfl

/-! ### Trees that are given by the parents of their nodes

The chains up to the root, and the walk through the children of each node. -/

/-- The second node is the parent of the first. -/
def Up (up : Node → Option Node) (node parent : Node) : Prop := up node = some parent

/-- There is one root, the parents of all other nodes are among the nodes, and no node is above
itself. -/
structure ParentTree (up : Node → Option Node) (nodes : List Node) (root : Node) : Prop where
  distinct : nodes.Nodup
  root_mem : root ∈ nodes
  top : up root = none
  parents : ∀ node ∈ nodes, node ≠ root → ∃ parent ∈ nodes, up node = some parent
  acyclic : ∀ node ∈ nodes, ¬ Relation.TransGen (Up up) node node

lemma not_transGen_of_rank {up : Node → Option Node} {rank : Node → Nat}
    (less : ∀ node parent, up node = some parent → rank parent < rank node) (node : Node) :
    ¬ Relation.TransGen (Up up) node node := by
  have smaller : ∀ above, Relation.TransGen (Up up) node above → rank above < rank node := by
    intro above climbs
    induction climbs with
    | single isParent => exact less _ _ isParent
    | tail _ isParent ih => exact Nat.lt_trans (less _ _ isParent) ih
  intro cycle
  exact Nat.lt_irrefl _ (smaller node cycle)

namespace ParentTree

variable {up : Node → Option Node}

lemma parent_mem (tree : ParentTree up nodes root) (mem : node ∈ nodes)
    (isParent : up node = some parent) : parent ∈ nodes := by
  have notRoot : node ≠ root := by
    rintro rfl
    exact absurd (tree.top.symm.trans isParent) (some_ne_none _).symm
  obtain ⟨other, inNodes, isOther⟩ := tree.parents node mem notRoot
  rw [isParent, Option.some.injEq] at isOther
  exact isOther ▸ inNodes

/-- Every chain comes to the root. -/
theorem ends (tree : ParentTree up nodes root) (mem : node ∈ nodes) :
    ∃ count, Ends up node count root := by
  let above : {node // node ∈ nodes} → {node // node ∈ nodes} → Prop :=
    fun parent node => Relation.TransGen (Up up) node.1 parent.1
  have : Finite {node // node ∈ nodes} := finite_toSet nodes
  have : IsTrans _ above := ⟨fun _ _ _ first second => second.trans first⟩
  have : Std.Irrefl above := ⟨fun node => tree.acyclic node.1 node.2⟩
  have wellFounded : WellFounded above := Finite.wellFounded_of_trans_of_irrefl above
  refine wellFounded.induction (C := fun node => ∃ count, Ends up node.1 count root)
    ⟨node, mem⟩ ?_
  rintro ⟨node, mem⟩ ih
  by_cases isRoot : node = root
  · subst isRoot
    exact ⟨0, .here tree.top⟩
  · obtain ⟨parent, inNodes, isParent⟩ := tree.parents node mem isRoot
    obtain ⟨count, ends⟩ := ih ⟨parent, inNodes⟩ (.single isParent)
    exact ⟨count + 1, .up isParent ends⟩

lemma chain (tree : ParentTree up nodes root) {count : Nat} (ends : Ends up node count root)
    (mem : node ∈ nodes) :
    ∃ chain : List Node, chain.length = count + 1 ∧ chain.Nodup ∧ chain ⊆ nodes ∧
      ∀ above ∈ chain, ∃ fewer ≤ count, Ends up above fewer root := by
  induction count generalizing node with
  | zero =>
    refine ⟨[node], rfl, nodup_singleton node, ?_, ?_⟩
    · exact cons_subset.mpr ⟨mem, nil_subset _⟩
    · rw [forall_mem_singleton]
      exact ⟨0, Nat.le_refl 0, ends⟩
  | succ count ih =>
    obtain ⟨parent, isParent, rest⟩ :
        ∃ parent, up node = some parent ∧ Ends up parent count root := by
      cases ends with
      | up isParent rest => exact ⟨_, isParent, rest⟩
    obtain ⟨chain, length, distinct, inside, fewer⟩ := ih rest (tree.parent_mem mem isParent)
    have absent : node ∉ chain := by
      intro again
      obtain ⟨less, bound, shorter⟩ := fewer node again
      have same := (ends.unique shorter).1
      omega
    refine ⟨node :: chain, congrArg (· + 1) length, nodup_cons.mpr ⟨absent, distinct⟩, ?_, ?_⟩
    · exact cons_subset.mpr ⟨mem, inside⟩
    · rw [forall_mem_cons]
      refine ⟨⟨count + 1, Nat.le_refl _, ends⟩, ?_⟩
      intro above inChain
      obtain ⟨less, bound, shorter⟩ := fewer above inChain
      exact ⟨less, Nat.le_succ_of_le bound, shorter⟩

/-- A node has fewer nodes above it than there are nodes. -/
theorem count_lt (tree : ParentTree up nodes root) {count : Nat} (ends : Ends up node count root)
    (mem : node ∈ nodes) : count < nodes.length := by
  obtain ⟨chain, length, distinct, inside, -⟩ := tree.chain ends mem
  have atMost := distinct.length_le_of_subset inside
  rw [length] at atMost
  exact atMost

end ParentTree

section Walk

variable [DecidableEq Node]

def childrenOf (up : Node → Option Node) (nodes : List Node) (node : Node) : List Node :=
  nodes.filter fun child => up child = some node

/-- The nodes from a node on, each before what is below it, down to a depth. -/
def preorder (children : Node → List Node) : (depth : Nat) → Node → List Node
  | 0, _ => []
  | depth + 1, node => node :: (children node).flatMap (preorder children depth)

variable {up : Node → Option Node}

lemma mem_childrenOf :
    child ∈ childrenOf up nodes node ↔ child ∈ nodes ∧ up child = some node := by
  rw [childrenOf, mem_filter, decide_eq_true_eq]

/-- What the walk meets is a node below its start. -/
theorem mem_preorder {found : Node} (inside : node ∈ nodes)
    (met : found ∈ preorder (childrenOf up nodes) depth node) :
    found ∈ nodes ∧ Relation.ReflTransGen (Up up) found node := by
  induction depth generalizing node with
  | zero => exact absurd met not_mem_nil
  | succ depth ih =>
    rcases mem_cons.mp met with rfl | below
    · exact ⟨inside, .refl⟩
    · obtain ⟨child, isChild, met⟩ := mem_flatMap.mp below
      obtain ⟨inNodes, isParent⟩ := mem_childrenOf.mp isChild
      obtain ⟨foundInNodes, climbs⟩ := ih inNodes met
      exact ⟨foundInNodes, climbs.tail isParent⟩

/-- The children of what the walk meets are met one step deeper. -/
theorem child_mem_preorder (met : parent ∈ preorder (childrenOf up nodes) depth node)
    (inNodes : child ∈ nodes) (isParent : up child = some parent) :
    child ∈ preorder (childrenOf up nodes) (depth + 1) node := by
  induction depth generalizing node with
  | zero => exact absurd met not_mem_nil
  | succ depth ih =>
    right
    apply mem_flatMap.mpr
    rcases mem_cons.mp met with rfl | below
    · exact ⟨child, mem_childrenOf.mpr ⟨inNodes, isParent⟩, mem_cons_self⟩
    · obtain ⟨next, isNext, met⟩ := mem_flatMap.mp below
      exact ⟨next, isNext, ih met⟩

lemma preorder_subset (depth more : Nat) (node : Node) :
    preorder (childrenOf up nodes) depth node ⊆
      preorder (childrenOf up nodes) (depth + more) node := by
  induction depth generalizing node with
  | zero => exact nil_subset _
  | succ depth ih =>
    rw [Nat.succ_add]
    apply cons_subset_cons
    intro found below
    obtain ⟨child, isChild, met⟩ := mem_flatMap.mp below
    exact mem_flatMap.mpr ⟨child, isChild, ih child met⟩

lemma mem_preorder_of_ends {count : Nat} (tree : ParentTree up nodes root)
    (ends : Ends up node count root) (mem : node ∈ nodes) :
    node ∈ preorder (childrenOf up nodes) (count + 1) root := by
  induction count generalizing node with
  | zero =>
    cases ends with
    | here => exact mem_cons_self
  | succ count ih =>
    cases ends with
    | up isParent rest =>
      exact child_mem_preorder (ih rest (tree.parent_mem mem isParent)) mem isParent

/-- No node is met twice. -/
theorem nodup_preorder (tree : ParentTree up nodes root) (inside : node ∈ nodes) :
    (preorder (childrenOf up nodes) depth node).Nodup := by
  induction depth generalizing node with
  | zero => exact nodup_nil
  | succ depth ih =>
    have noCycle : ∀ child, up child = some node → ¬ Relation.ReflTransGen (Up up) node child :=
      fun child isParent climbs => tree.acyclic node inside (.tail' climbs isParent)
    refine nodup_cons.mpr ⟨?_, nodup_flatMap.mpr ⟨?_, ?_⟩⟩
    · intro again
      obtain ⟨child, isChild, met⟩ := mem_flatMap.mp again
      obtain ⟨inNodes, isParent⟩ := mem_childrenOf.mp isChild
      exact noCycle child isParent (mem_preorder inNodes met).2
    · intro child isChild
      exact ih (mem_childrenOf.mp isChild).1
    · -- a node below two children of one node would be on a cycle through that node
      have distinct : (childrenOf up nodes node).Nodup := tree.distinct.filter _
      refine distinct.pairwise_of_forall_ne ?_
      intro child isChild other isOther different
      obtain ⟨inNodes, isParent⟩ := mem_childrenOf.mp isChild
      obtain ⟨otherInNodes, otherIsParent⟩ := mem_childrenOf.mp isOther
      apply disjoint_left.mpr
      intro found met metAgain
      have oneUp : Relator.RightUnique (Up up) := fun _ _ _ first second =>
        Option.some.inj (first.symm.trans second)
      have climbs := (mem_preorder inNodes met).2
      have climbsAgain := (mem_preorder otherInNodes metAgain).2
      rcases climbs.total_of_right_unique oneUp climbsAgain with first | second
      · rcases first.cases_head with same | ⟨parent, isUp, rest⟩
        · exact different same
        · cases isParent.symm.trans isUp
          exact noCycle other otherIsParent rest
      · rcases second.cases_head with same | ⟨parent, isUp, rest⟩
        · exact different same.symm
        · cases otherIsParent.symm.trans isUp
          exact noCycle child isParent rest

/-- The walk from the root meets every node once. -/
theorem preorder_perm (tree : ParentTree up nodes root) (deep : nodes.length ≤ depth) :
    (preorder (childrenOf up nodes) depth root).Perm nodes := by
  apply (perm_ext_iff_of_nodup (nodup_preorder tree tree.root_mem) tree.distinct).mpr
  intro node
  constructor
  · intro met
    exact (mem_preorder tree.root_mem met).1
  · intro mem
    obtain ⟨count, ends⟩ := tree.ends mem
    have short := tree.count_lt ends mem
    obtain ⟨more, rfl⟩ := Nat.exists_eq_add_of_le (Nat.le_trans short deep)
    exact preorder_subset (count + 1) more root (mem_preorder_of_ends tree ends mem)

end Walk

end CommCentral.Lib
