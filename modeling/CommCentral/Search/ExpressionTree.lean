import CommCentral.Search.BoolExpression

/-! The tree that `ConstructExpressionTree` builds from a list of terms with groups, and what it
says about a message. -/
namespace CommCentral.Search
open List

variable {Term : Type}

/-- An expression, by which of its members are set. Only a group at the start of a list makes a
node without a left child; its operator is the one of the constructor. -/
inductive ExpressionTree (Term : Type)
  | empty
  | leaf (term : Term)
  | node (leftChild rightChild : ExpressionTree Term) (booleanAnd : Bool)
  | onlyRight (rightChild : ExpressionTree Term)
  deriving DecidableEq

/-- A term with its operator and its grouping flags. -/
structure GroupedTerm (Term : Type) extends SearchTerm Term where
  beginsGrouping : Bool
  endsGrouping : Bool

namespace ExpressionTree

/-- `AddSearchTerm` and `leftToRightAddTerm` -/
def addSearchTerm (origExpr : ExpressionTree Term) (newTerm : SearchTerm Term) :
    ExpressionTree Term :=
  match origExpr with
  | .empty => .leaf newTerm.term
  | _ => .node origExpr (.leaf newTerm.term) newTerm.booleanAnd

def addExpressionTree (origExpr expression : ExpressionTree Term) (boolOp : Bool) :
    ExpressionTree Term :=
  match origExpr with
  | .empty => expression
  | _ => .node origExpr expression boolOp

def rightChild : ExpressionTree Term → Option (ExpressionTree Term)
  | .node _ rightChild _ => some rightChild
  | .onlyRight rightChild => some rightChild
  | _ => none

/-- Write `m_rightChild`. A term is evaluated without a look at the children. -/
def setRightChild (tree rightChild : ExpressionTree Term) : ExpressionTree Term :=
  match tree with
  | .empty => .onlyRight rightChild
  | .leaf term => .leaf term
  | .node leftChild _ booleanAnd => .node leftChild rightChild booleanAnd
  | .onlyRight _ => .onlyRight rightChild

def offlineEvaluate (processSearchTerm : Term → Bool) : ExpressionTree Term → Bool
  | .empty => true
  | .leaf term => processSearchTerm term
  | .node leftChild rightChild isAnd =>
    let result := leftChild.offlineEvaluate processSearchTerm
    if (result && !isAnd) || (!result && isAnd) then result
    else rightChild.offlineEvaluate processSearchTerm
  | .onlyRight rightChild => rightChild.offlineEvaluate processSearchTerm

/-- The terms of an expression from left to right. -/
def terms : ExpressionTree Term → List Term
  | .empty => []
  | .leaf term => [term]
  | .node leftChild rightChild _ => leftChild.terms ++ rightChild.terms
  | .onlyRight rightChild => rightChild.terms

end ExpressionTree

/-- The terms, which are shared, the position in the list and the expression. -/
structure Construction (Term : Type) where
  termList : List (GroupedTerm Term)
  startPosInList : Nat
  finalExpression : ExpressionTree Term

def setBeginsGrouping (termList : List (GroupedTerm Term)) (position : Nat) (begins : Bool) :
    List (GroupedTerm Term) :=
  termList.modify position fun term => { term with beginsGrouping := begins }

/-- The loop of `ConstructExpressionTree`, which calls itself for a group. -/
def constructLoop : (fuel : Nat) → Construction Term → Option (Construction Term)
  | 0, _ => none
  | fuel + 1, ⟨termList, position, finalExpression⟩ =>
    match termList[position]? with
    | none => some ⟨termList, position, finalExpression⟩
    | some term =>
      if term.beginsGrouping then do
        let joined := finalExpression.addExpressionTree .empty term.booleanAnd
        let inner ← constructLoop fuel
          ⟨setBeginsGrouping termList position false, position, joined.rightChild.getD .empty⟩
        constructLoop fuel ⟨setBeginsGrouping inner.termList position true,
          inner.startPosInList + 1, joined.setRightChild inner.finalExpression⟩
      else
        let finalExpression := finalExpression.addSearchTerm term.toSearchTerm
        if term.endsGrouping then some ⟨termList, position, finalExpression⟩
        else constructLoop fuel ⟨termList, position + 1, finalExpression⟩

def constructExpressionTree (fuel : Nat) (termList : List (GroupedTerm Term)) :
    Option (Construction Term) :=
  constructLoop fuel ⟨termList, 0, .empty⟩

/-- A term, or a group of terms of which the first one holds the operator of the group. -/
inductive SearchItem (Term : Type)
  | single (term : SearchTerm Term)
  | group (first : SearchTerm Term) (others : List (SearchTerm Term))

/-- Terms of which the last one ends a group. -/
def closing : SearchTerm Term → List (SearchTerm Term) → List (GroupedTerm Term)
  | term, [] => [⟨term, false, true⟩]
  | term, next :: others => ⟨term, false, false⟩ :: closing next others

/-- The first term begins a group, too. -/
def opening (termList : List (GroupedTerm Term)) : List (GroupedTerm Term) :=
  setBeginsGrouping termList 0 true

/-- Left to right, each one with its own operator; the operator of the first one is ignored. -/
def foldJoined {Item : Type} (value booleanAnd : Item → Bool) : List Item → Bool
  | [] => true
  | first :: others => others.foldl
    (fun result item => if booleanAnd item then result && value item else result || value item)
    (value first)

namespace SearchItem

def termList : SearchItem Term → List (GroupedTerm Term)
  | single term => [⟨term, false, false⟩]
  | group first others => opening (closing first others)

def terms : SearchItem Term → List Term
  | single term => [term.term]
  | group first others => (first :: others).map SearchTerm.term

def booleanAnd : SearchItem Term → Bool
  | single term => term.booleanAnd
  | group first _ => first.booleanAnd

def value (processSearchTerm : Term → Bool) : SearchItem Term → Bool
  | single term => processSearchTerm term.term
  | group first others =>
    foldJoined (fun term => processSearchTerm term.term) SearchTerm.booleanAnd (first :: others)

end SearchItem

lemma setBeginsGrouping_middle (before after : List (GroupedTerm Term)) (term : GroupedTerm Term)
    (begins : Bool) :
    setBeginsGrouping (before ++ term :: after) before.length begins =
      before ++ { term with beginsGrouping := begins } :: after := by
  induction before with
  | nil => rfl
  | cons first before ih => exact congrArg (first :: ·) ih

lemma closing_cons (first : SearchTerm Term) (others : List (SearchTerm Term)) :
    ∃ later, closing first others = ⟨first, false, others.isEmpty⟩ :: later := by
  cases others with
  | nil => exact ⟨[], rfl⟩
  | cons next others => exact ⟨closing next others, rfl⟩

lemma length_closing (first : SearchTerm Term) (others : List (SearchTerm Term)) :
    (closing first others).length = others.length + 1 := by
  induction others generalizing first with
  | nil => rfl
  | cons next others ih => exact congrArg Nat.succ (ih next)

variable {before after : List (GroupedTerm Term)} {tree : ExpressionTree Term}

lemma constructLoop_closing (first) (others) (enough : others.length < fuel) :
    constructLoop fuel ⟨before ++ (closing first others ++ after), before.length, tree⟩ =
      some ⟨before ++ (closing first others ++ after), before.length + others.length,
        (first :: others).foldl ExpressionTree.addSearchTerm tree⟩ := by
  induction others generalizing first before tree fuel with
  | nil =>
    obtain ⟨fuel, rfl⟩ := Nat.exists_eq_add_of_lt enough
    simp [constructLoop, closing]
  | cons next others ih =>
    obtain ⟨fuel, rfl⟩ : ∃ rest, fuel = rest + 1 := ⟨fuel - 1, by omega⟩
    rw [length_cons] at enough
    have current : (before ++ (closing first (next :: others) ++ after))[before.length]? =
        some ⟨first, false, false⟩ := by
      rw [getElem?_append_right (Nat.le_refl _), Nat.sub_self]
      rfl
    have split : before ++ (closing first (next :: others) ++ after) =
        (before ++ [⟨first, false, false⟩]) ++ (closing next others ++ after) := by
      rw [closing, append_assoc]
      rfl
    have length : (before ++ [(⟨first, false, false⟩ : GroupedTerm Term)]).length =
        before.length + 1 := length_append
    rw [constructLoop, current]
    simp only [Bool.false_eq_true, if_false]
    rw [split, ← length, ih next (by omega), length, length_cons, Nat.add_right_comm,
      Nat.add_assoc]
    rfl

def ExpressionTree.addItem (tree : ExpressionTree Term) : SearchItem Term → ExpressionTree Term
  | .single term => tree.addSearchTerm term
  | .group first others => (tree.addExpressionTree .empty first.booleanAnd).setRightChild
      ((first :: others).foldl ExpressionTree.addSearchTerm .empty)

lemma rightChild_addExpressionTree (tree : ExpressionTree Term) (boolOp : Bool) :
    (tree.addExpressionTree .empty boolOp).rightChild.getD .empty = .empty := by
  cases tree <;> rfl

lemma constructLoop_items (items : List (SearchItem Term))
    (enough : (items.flatMap SearchItem.termList).length < fuel) :
    constructLoop fuel ⟨before ++ items.flatMap SearchItem.termList, before.length, tree⟩ =
      some ⟨before ++ items.flatMap SearchItem.termList,
        before.length + (items.flatMap SearchItem.termList).length,
        items.foldl ExpressionTree.addItem tree⟩ := by
  induction items generalizing before tree fuel with
  | nil =>
    obtain ⟨fuel, rfl⟩ := Nat.exists_eq_add_of_lt enough
    simp [constructLoop]
  | cons item items ih =>
    obtain ⟨fuel, rfl⟩ : ∃ rest, fuel = rest + 1 := ⟨fuel - 1, by omega⟩
    rw [flatMap_cons, length_append] at enough
    have passed : ∀ next, constructLoop fuel ⟨(before ++ item.termList) ++
          items.flatMap SearchItem.termList, (before ++ item.termList).length, next⟩ =
        some ⟨before ++ (item :: items).flatMap SearchItem.termList,
          before.length + ((item :: items).flatMap SearchItem.termList).length,
          items.foldl ExpressionTree.addItem next⟩ := by
      intro next
      have some : 0 < item.termList.length := by
        cases item with
        | single term => exact Nat.one_pos
        | group first others =>
          rw [SearchItem.termList, opening, setBeginsGrouping, length_modify, length_closing]
          exact Nat.succ_pos _
      rw [ih (by omega), flatMap_cons, append_assoc, length_append,
        length_append, Nat.add_assoc]
    rw [flatMap_cons, ← append_assoc]
    rw [constructLoop]
    cases item with
    | single term =>
      have current : (before ++ (SearchItem.single term).termList ++
          items.flatMap SearchItem.termList)[before.length]? = some ⟨term, false, false⟩ := by
        rw [append_assoc, getElem?_append_right (Nat.le_refl _), Nat.sub_self]
        rfl
      have next := passed (tree.addSearchTerm term)
      rw [length_append] at next
      rw [current]
      simp only [Bool.false_eq_true, if_false]
      rw [append_assoc] at next ⊢
      exact next
    | group first others =>
      obtain ⟨later, shape⟩ := closing_cons first others
      have opened : (SearchItem.group first others).termList =
          ⟨first, true, others.isEmpty⟩ :: later := by
        rw [SearchItem.termList, opening, shape]
        rfl
      have count : (SearchItem.group first others).termList.length = others.length + 1 := by
        rw [SearchItem.termList, opening, setBeginsGrouping, length_modify, length_closing]
      have current : (before ++ (SearchItem.group first others).termList ++
          items.flatMap SearchItem.termList)[before.length]? =
            some ⟨first, true, others.isEmpty⟩ := by
        rw [opened, append_assoc, getElem?_append_right (Nat.le_refl _), Nat.sub_self]
        rfl
      have closed : setBeginsGrouping (before ++ (SearchItem.group first others).termList ++
          items.flatMap SearchItem.termList) before.length false =
            before ++ (closing first others ++ items.flatMap SearchItem.termList) := by
        rw [opened, shape, append_assoc, cons_append, setBeginsGrouping_middle]
        rfl
      have reopened : setBeginsGrouping (before ++ (closing first others ++
          items.flatMap SearchItem.termList)) before.length true =
            before ++ (SearchItem.group first others).termList ++
              items.flatMap SearchItem.termList := by
        rw [opened, shape, append_assoc, cons_append, setBeginsGrouping_middle]
        rfl
      have next := passed (tree.addItem (.group first others))
      rw [length_append, count, ← Nat.add_assoc] at next
      rw [current]
      simp only [if_true, rightChild_addExpressionTree, closed]
      rw [constructLoop_closing first others (by omega)]
      simp only [Option.bind_eq_bind, Option.bind_some, reopened]
      rw [append_assoc] at next ⊢
      exact next

variable (processSearchTerm : Term → Bool)

/-- What the second operand of an operator does to the result of the first one. -/
def joined (booleanAnd result value : Bool) : Bool :=
  if booleanAnd then result && value else result || value

lemma evaluate_node (leftChild rightChild) (booleanAnd : Bool) :
    (ExpressionTree.node leftChild rightChild booleanAnd).offlineEvaluate processSearchTerm =
      joined booleanAnd (leftChild.offlineEvaluate processSearchTerm)
        (rightChild.offlineEvaluate processSearchTerm) := by
  rw [ExpressionTree.offlineEvaluate, joined]
  cases booleanAnd <;> cases leftChild.offlineEvaluate processSearchTerm <;> rfl

lemma evaluate_addSearchTerm (some : tree ≠ .empty) (newTerm) :
    (tree.addSearchTerm newTerm).offlineEvaluate processSearchTerm =
      joined newTerm.booleanAnd (tree.offlineEvaluate processSearchTerm)
        (processSearchTerm newTerm.term) := by
  cases tree with
  | empty => exact absurd rfl some
  | leaf term | node leftChild rightChild booleanAnd | onlyRight rightChild =>
    exact evaluate_node ..

lemma addSearchTerm_ne_empty (tree : ExpressionTree Term) (newTerm : SearchTerm Term) :
    tree.addSearchTerm newTerm ≠ .empty := by
  cases tree <;> nofun

lemma evaluate_terms (others : List (SearchTerm Term)) (some : tree ≠ .empty) :
    (others.foldl ExpressionTree.addSearchTerm tree).offlineEvaluate processSearchTerm =
      others.foldl (fun result term => joined term.booleanAnd result (processSearchTerm term.term))
        (tree.offlineEvaluate processSearchTerm) := by
  induction others generalizing tree with
  | nil => rfl
  | cons term others ih =>
    rw [foldl_cons, ih (addSearchTerm_ne_empty tree term), foldl_cons,
      evaluate_addSearchTerm processSearchTerm some]

lemma evaluate_group (first : SearchTerm Term) (others : List (SearchTerm Term)) :
    ((first :: others).foldl ExpressionTree.addSearchTerm .empty).offlineEvaluate
        processSearchTerm = (SearchItem.group first others).value processSearchTerm := by
  rw [foldl_cons]
  exact evaluate_terms processSearchTerm others nofun

variable (item : SearchItem Term)

lemma evaluate_addItem_empty :
    (ExpressionTree.empty.addItem item).offlineEvaluate processSearchTerm =
      item.value processSearchTerm := by
  cases item with
  | single term => rfl
  | group first others => exact evaluate_group processSearchTerm first others

lemma evaluate_addItem (some : tree ≠ .empty) (item) :
    (tree.addItem item).offlineEvaluate processSearchTerm =
      joined item.booleanAnd (tree.offlineEvaluate processSearchTerm)
        (item.value processSearchTerm) := by
  cases item with
  | single term => exact evaluate_addSearchTerm processSearchTerm some term
  | group first others =>
    rw [← evaluate_group]
    cases tree with
    | empty => exact absurd rfl some
    | leaf term | node leftChild rightChild booleanAnd | onlyRight rightChild =>
      exact evaluate_node ..

lemma addItem_ne_empty (tree : ExpressionTree Term) (item : SearchItem Term) :
    tree.addItem item ≠ .empty := by
  cases item with
  | single term => exact addSearchTerm_ne_empty tree term
  | group first others => cases tree <;> nofun

lemma evaluate_items (items : List (SearchItem Term)) (some : tree ≠ .empty) :
    (items.foldl ExpressionTree.addItem tree).offlineEvaluate processSearchTerm =
      items.foldl (fun result item => joined item.booleanAnd result (item.value processSearchTerm))
        (tree.offlineEvaluate processSearchTerm) := by
  induction items generalizing tree with
  | nil => rfl
  | cons item items ih =>
    rw [foldl_cons, ih (addItem_ne_empty tree item), foldl_cons,
      evaluate_addItem processSearchTerm some]

variable (tree : ExpressionTree Term)

lemma terms_addSearchTerm (newTerm) :
    (tree.addSearchTerm newTerm).terms = tree.terms ++ [newTerm.term] := by
  cases tree <;> rfl

lemma terms_foldl (others : List (SearchTerm Term)) (tree : ExpressionTree Term) :
    (others.foldl ExpressionTree.addSearchTerm tree).terms =
      tree.terms ++ others.map SearchTerm.term := by
  induction others generalizing tree with
  | nil => exact (append_nil _).symm
  | cons term others ih =>
    rw [foldl_cons, ih, terms_addSearchTerm, append_assoc]
    rfl

lemma terms_addItem (item : SearchItem Term) :
    (tree.addItem item).terms = tree.terms ++ item.terms := by
  cases item with
  | single term => exact terms_addSearchTerm tree term
  | group first others =>
    have group : ((first :: others).foldl ExpressionTree.addSearchTerm .empty).terms =
        (first :: others).map SearchTerm.term := terms_foldl (first :: others) .empty
    rw [SearchItem.terms, ← group]
    cases tree <;> rfl

lemma terms_items (items : List (SearchItem Term)) (tree : ExpressionTree Term) :
    (items.foldl ExpressionTree.addItem tree).terms =
      tree.terms ++ items.flatMap SearchItem.terms := by
  induction items generalizing tree with
  | nil => exact (append_nil _).symm
  | cons item items ih =>
    rw [foldl_cons, ih, terms_addItem, append_assoc]
    rfl

/-- The flags mark closed groups that are not nested. `inside` says whether a group is open. -/
def WellGrouped : (inside : Bool) → List (GroupedTerm Term) → Prop
  | inside, [] => inside = false
  | true, term :: later => term.beginsGrouping = false ∧ WellGrouped (!term.endsGrouping) later
  | false, term :: later =>
    if term.beginsGrouping then WellGrouped (!term.endsGrouping) later
    else term.endsGrouping = false ∧ WellGrouped false later

instance decidableWellGrouped : (inside : Bool) → (termList : List (GroupedTerm Term)) →
    Decidable (WellGrouped inside termList)
  | inside, [] => inferInstanceAs (Decidable (inside = false))
  | true, term :: later =>
    have := decidableWellGrouped (!term.endsGrouping) later
    inferInstanceAs (Decidable (_ ∧ _))
  | false, term :: later =>
    have := decidableWellGrouped (!term.endsGrouping) later
    have := decidableWellGrouped false later
    inferInstanceAs (Decidable (if term.beginsGrouping then WellGrouped (!term.endsGrouping) later
      else term.endsGrouping = false ∧ WellGrouped false later))

lemma wellGrouped_items (termList) :
    (WellGrouped false termList → ∃ items : List (SearchItem Term),
        termList = items.flatMap SearchItem.termList) ∧
      (WellGrouped true termList → ∃ (first : SearchTerm Term) (others : List (SearchTerm Term))
        (items : List (SearchItem Term)),
          termList = closing first others ++ items.flatMap SearchItem.termList) := by
  induction termList with
  | nil => exact ⟨fun _ => ⟨[], rfl⟩, nofun⟩
  | cons term later ih =>
    obtain ⟨outside, inside⟩ := ih
    obtain ⟨searchTerm, begins, ends⟩ := term
    constructor
    · intro grouped
      cases begins with
      | false =>
        obtain ⟨rfl, rest⟩ := grouped
        obtain ⟨items, rfl⟩ := outside rest
        exact ⟨.single searchTerm :: items, rfl⟩
      | true =>
        cases ends with
        | true =>
          obtain ⟨items, rfl⟩ := outside grouped
          exact ⟨.group searchTerm [] :: items, rfl⟩
        | false =>
          obtain ⟨first, others, items, rfl⟩ := inside grouped
          exact ⟨.group searchTerm (first :: others) :: items, rfl⟩
    · rintro ⟨notNested, rest⟩
      change begins = false at notNested
      subst notNested
      cases ends with
      | true =>
        obtain ⟨items, rfl⟩ := outside rest
        exact ⟨searchTerm, [], items, rfl⟩
      | false =>
        obtain ⟨first, others, items, rfl⟩ := inside rest
        exact ⟨searchTerm, first :: others, items, rfl⟩

lemma map_closing (first : SearchTerm Term) (others : List (SearchTerm Term)) :
    (closing first others).map (·.term) = (first :: others).map SearchTerm.term := by
  induction others generalizing first with
  | nil => rfl
  | cons next others ih => exact congrArg (first.term :: ·) (ih next)

lemma map_termList : item.termList.map (·.term) = item.terms := by
  cases item with
  | single term => rfl
  | group first others =>
    obtain ⟨later, shape⟩ := closing_cons first others
    have same := map_closing first others
    rw [SearchItem.termList, opening, SearchItem.terms, ← same, shape]
    rfl

/-- For a list with closed groups that are not nested, `ConstructExpressionTree` leaves the grouping
flags as they were and takes every term once, and the tree means what the items of the list say
from left to right. -/
theorem constructExpressionTree_means {termList : List (GroupedTerm Term)}
    (grouped : WellGrouped false termList) {fuel : Nat} (enough : termList.length < fuel) :
    ∃ items : List (SearchItem Term), termList = items.flatMap SearchItem.termList ∧
      ∃ tree, constructExpressionTree fuel termList =
          some ⟨termList, termList.length, tree⟩ ∧
        tree.terms = termList.map (·.term) ∧
        ∀ processSearchTerm : Term → Bool, tree.offlineEvaluate processSearchTerm =
          foldJoined (SearchItem.value processSearchTerm) SearchItem.booleanAnd items := by
  obtain ⟨items, rfl⟩ := (wellGrouped_items termList).1 grouped
  refine ⟨items, rfl, items.foldl ExpressionTree.addItem .empty, ?_, ?_, ?_⟩
  · have run : constructLoop fuel ⟨[] ++ items.flatMap SearchItem.termList, 0, .empty⟩ = _ :=
      constructLoop_items items enough
    rw [nil_append, length_nil, Nat.zero_add] at run
    exact run
  · rw [terms_items, map_flatMap, funext map_termList]
    rfl
  · intro processSearchTerm
    cases items with
    | nil => rfl
    | cons first items =>
      rw [foldl_cons, evaluate_items processSearchTerm items (addItem_ne_empty _ first),
        evaluate_addItem_empty]
      rfl

/-- `(a OR b) AND c`, and the operator of `a` is ignored. -/
theorem constructExpressionTree_means_leading :
    let termList : List (GroupedTerm Nat) :=
      [⟨⟨0, true⟩, true, false⟩, ⟨⟨1, false⟩, false, true⟩, ⟨⟨2, true⟩, false, false⟩]
    ∃ items : List (SearchItem Nat), termList = items.flatMap SearchItem.termList ∧
      ∃ tree, constructExpressionTree 4 termList = some ⟨termList, termList.length, tree⟩ ∧
        tree.terms = termList.map (·.term) ∧
        ∀ processSearchTerm : Nat → Bool, tree.offlineEvaluate processSearchTerm =
          foldJoined (SearchItem.value processSearchTerm) SearchItem.booleanAnd items :=
  constructExpressionTree_means (by decide) (by decide)

end CommCentral.Search
