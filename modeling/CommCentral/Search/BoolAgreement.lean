import CommCentral.Search.BoolExpression
import Mathlib.Data.List.Infix

/-! When the program for the server means what the offline evaluation computes. -/
namespace CommCentral.Search
open List

variable {Term : Type} {value : Term → Bool}

/-- The offline result after one more term. -/
def offlineStep (result isAnd value : Bool) : Bool :=
  if isAnd then result && value else result || value

/-- The values of the search keys after one more term. -/
def onlineStep (values : List Bool) (isAnd value : Bool) : List Bool :=
  match values ++ [value] with
  | first :: second :: others =>
    if isAnd then first :: second :: others else [(first || second) && others.all id]
  | single => single

def offlineRun (value : Term → Bool) (result : Bool) (terms : List (SearchTerm Term)) : Bool :=
  terms.foldl (fun result term => offlineStep result term.booleanAnd (value term.term)) result

def onlineRun (value : Term → Bool) (values : List Bool) (terms : List (SearchTerm Term)) :
    List Bool :=
  terms.foldl (fun values term => onlineStep values term.booleanAnd (value term.term)) values

lemma eval_conjunction (first : SearchKey Term) (keys : List (SearchKey Term)) :
    (keys.foldl .and first).eval value = (first.eval value && (keys.map (·.eval value)).all id) := by
  induction keys generalizing first with
  | nil => exact (Bool.and_true _).symm
  | cons second keys ih =>
    rw [foldl_cons, ih, map_cons, all_cons, ← Bool.and_assoc]
    rfl

variable (keys : List (SearchKey Term))

lemma eval_addKey (newTerm : SearchTerm Term) :
    (addKey keys newTerm).map (·.eval value) =
      onlineStep (keys.map (·.eval value)) newTerm.booleanAnd (value newTerm.term) := by
  have together : keys.map (·.eval value) ++ [value newTerm.term] =
      (keys ++ [SearchKey.single newTerm.term]).map (·.eval value) := by
    rw [map_append]
    rfl
  rw [addKey, onlineStep, together]
  match keys ++ [SearchKey.single newTerm.term] with
  | [] => rfl
  | [single] => rfl
  | first :: second :: others =>
    cases newTerm.booleanAnd with
    | true => rfl
    | false => exact congrArg (· :: []) (eval_conjunction (.or first second) others)

lemma addKey_ne_nil (newTerm) : addKey keys newTerm ≠ [] := by
  rw [addKey]
  split
  · split
    · exact cons_ne_nil _ _
    · exact cons_ne_nil _ _
  · exact concat_ne_nil _ _

lemma offlineEvaluate_node (expression : BoolExpression Term) (newTerm : SearchTerm Term) :
    (BoolExpression.node expression (.leaf newTerm.term) newTerm.booleanAnd).offlineEvaluate value =
      offlineStep (expression.offlineEvaluate value) newTerm.booleanAnd (value newTerm.term) := by
  rw [BoolExpression.offlineEvaluate]
  change (if _ then expression.offlineEvaluate value else value newTerm.term) = _
  cases expression.offlineEvaluate value with
  | false | true =>
    cases newTerm.booleanAnd with
    | false => rfl
    | true => rfl

lemma leftToRightAddTerm_node {expression : BoolExpression Term} (some : expression ≠ .empty)
    (newTerm) : expression.leftToRightAddTerm newTerm =
      .node expression (.leaf newTerm.term) newTerm.booleanAnd := by
  cases expression with
  | empty => exact absurd rfl some
  | leaf term => rfl
  | node leftChild rightChild booleanAnd => rfl

/-- Both sides go through the terms from left to right. -/
theorem addTerms (terms : List (SearchTerm Term)) {keys : List (SearchKey Term)}
    (some : expression ≠ .empty) (ofKeys : keys ≠ []) (encodes : Encodes expression keys) :
    let whole := terms.foldl BoolExpression.leftToRightAddTerm expression
    ∃ all, all ≠ [] ∧ Encodes whole all ∧ ∀ value : Term → Bool,
      whole.offlineEvaluate value = offlineRun value (expression.offlineEvaluate value) terms ∧
        all.map (·.eval value) = onlineRun value (keys.map (·.eval value)) terms := by
  induction terms generalizing expression keys with
  | nil => exact ⟨keys, ofKeys, encodes, fun _ => ⟨rfl, rfl⟩⟩
  | cons newTerm terms ih =>
    rw [foldl_cons, leftToRightAddTerm_node some]
    obtain ⟨all, more, whole, values⟩ := ih (by rintro ⟨⟩) (addKey_ne_nil keys newTerm)
      (encodes.node ofKeys newTerm)
    refine ⟨all, more, whole, fun value => ?_⟩
    obtain ⟨offline, online⟩ := values value
    rw [offlineEvaluate_node] at offline
    rw [eval_addKey] at online
    exact ⟨offline, online⟩

lemma program_value (first : SearchTerm Term) (terms : List (SearchTerm Term)) :
    ∃ program, readProgram ((BoolExpression.ofTerms (first :: terms)).generateEncodeStr []) =
        some program ∧
      ∀ value : Term → Bool, program.eval value =
          (onlineRun value [value first.term] terms).all id ∧
        (BoolExpression.ofTerms (first :: terms)).offlineEvaluate value =
          offlineRun value (value first.term) terms := by
  obtain ⟨all, some, encodes, values⟩ := addTerms terms (by rintro ⟨⟩) (cons_ne_nil _ _)
    (Encodes.leaf first.term)
  cases all with
  | nil => exact absurd rfl some
  | cons key keys =>
    refine ⟨_, encodes.readProgram, fun value => ?_⟩
    obtain ⟨offline, online⟩ := values value
    refine ⟨?_, offline⟩
    rw [eval_conjunction]
    exact congrArg (List.all · id) online

/-- An operator that is directly after an other one. -/
def Follows (first second : Bool) (terms : List (SearchTerm Term)) : Prop :=
  [first, second] <:+: terms.map SearchTerm.booleanAnd

lemma onlineStep_and (some : values ≠ []) (last : Bool) :
    onlineStep values true last = values ++ [last] := by
  match values with
  | [] => exact absurd rfl some
  | [first] => rfl
  | first :: second :: others => rfl

lemma onlineStep_or_single (first last : Bool) :
    onlineStep [first] false last = [first || last] :=
  congrArg (· :: []) (Bool.and_true _)

lemma onlineStep_or_more (first second last : Bool) (others) :
    onlineStep (first :: second :: others) false last =
      [(first || second) && (others ++ [last]).all id] :=
  rfl

lemma all_concat (values) (last : Bool) : (values ++ [last]).all id = (values.all id && last) := by
  rw [all_append]
  exact congrArg _ (Bool.and_true last)

lemma run_conjunction (value : Term → Bool) {terms : List (SearchTerm Term)}
    (ands : ∀ term ∈ terms, term.booleanAnd) (some : values ≠ []) :
    (onlineRun value values terms).all id = offlineRun value (values.all id) terms := by
  induction terms generalizing values with
  | nil => rfl
  | cons term terms ih =>
    have isAnd := ands term mem_cons_self
    rw [onlineRun, offlineRun, foldl_cons, foldl_cons, isAnd, onlineStep_and some]
    have rest := ih (fun later mem => ands later (mem_cons_of_mem _ mem))
      (concat_ne_nil (value term.term) values)
    rw [all_concat] at rest
    exact rest

variable {terms : List (SearchTerm Term)}

lemma ands_of_not_follows (isAnd : first.booleanAnd)
    (never : ¬ Follows true false (first :: terms)) : ∀ term ∈ terms, term.booleanAnd := by
  induction terms generalizing first with
  | nil =>
    intro term mem
    cases mem
  | cons second terms ih =>
    have next : second.booleanAnd := by
      cases operator : second.booleanAnd with
      | true => rfl
      | false =>
        refine absurd ⟨[], terms.map SearchTerm.booleanAnd, ?_⟩ never
        rw [map_cons, map_cons, isAnd, operator]
        rfl
    intro term mem
    cases mem_cons.mp mem with
    | inl here =>
      rw [here]
      exact next
    | inr there => exact ih next (fun follows => never (follows.trans (suffix_cons _ _).isInfix)) term there

/-- While there was no AND there is one search key. -/
theorem run_agrees (never : ¬ Follows true false terms)
    (result : Bool) : (onlineRun value [result] terms).all id = offlineRun value result terms := by
  induction terms generalizing result with
  | nil => exact Bool.and_true result
  | cons term terms ih =>
    cases operator : term.booleanAnd with
    | true =>
      have ands := ands_of_not_follows operator never
      have all : ∀ later ∈ term :: terms, later.booleanAnd := by
        intro later mem
        cases mem_cons.mp mem with
        | inl here =>
          rw [here]
          exact operator
        | inr there => exact ands later there
      have run := run_conjunction value all (cons_ne_nil result [])
      rw [all_cons, all_nil, Bool.and_true] at run
      exact run
    | false =>
      rw [onlineRun, offlineRun, foldl_cons, foldl_cons, operator,
        onlineStep_or_single]
      exact ih (fun follows => never (follows.trans (suffix_cons _ _).isInfix))
        (result || value term.term)

lemma run_stays_false (neutral : ∀ term ∈ terms, value term.term = term.booleanAnd)
    (failing : values.all id = false) :
    (onlineRun value values terms).all id = false ∧ offlineRun value true terms = true := by
  induction terms generalizing values with
  | nil => exact ⟨failing, rfl⟩
  | cons term terms ih =>
    have some : values ≠ [] := by
      intro nothing
      rw [nothing] at failing
      cases failing
    have given := neutral term mem_cons_self
    have later : ∀ other ∈ terms, value other.term = other.booleanAnd :=
      fun other mem => neutral other (mem_cons_of_mem _ mem)
    rw [onlineRun, offlineRun, foldl_cons, foldl_cons, given]
    cases term.booleanAnd with
    | true =>
      apply ih later
      rw [onlineStep_and some, all_concat, failing]
      rfl
    | false =>
      apply ih later
      match values with
      | [] => exact absurd rfl some
      | [first] =>
        rw [onlineStep_or_single, Bool.or_false]
        exact failing
      | first :: second :: others =>
        rw [onlineStep_or_more, all_concat, Bool.and_false, Bool.and_false]
        rfl

/-- Terms that all hold keep both results true, and an AND leaves two search keys. -/
theorem run_holds (value : Term → Bool) {terms : List (SearchTerm Term)}
    (hold : ∀ term ∈ terms, value term.term = true) (some : values ≠ [])
    (all : values.all id = true) :
    onlineRun value values terms ≠ [] ∧ (onlineRun value values terms).all id = true ∧
      offlineRun value true terms = true := by
  induction terms generalizing values with
  | nil => exact ⟨some, all, rfl⟩
  | cons term terms ih =>
    have later : ∀ other ∈ terms, value other.term = true :=
      fun other mem => hold other (mem_cons_of_mem _ mem)
    rw [onlineRun, offlineRun, foldl_cons, foldl_cons, hold term mem_cons_self]
    cases term.booleanAnd with
    | true =>
      rw [onlineStep_and some]
      exact ih later (concat_ne_nil _ _) (by rw [all_concat, all]; rfl)
    | false =>
      match values with
      | [] => exact absurd rfl some
      | [first] =>
        rw [onlineStep_or_single, Bool.or_true]
        exact ih later (cons_ne_nil _ _) rfl
      | first :: second :: others =>
        rw [onlineStep_or_more]
        apply ih later (cons_ne_nil _ _)
        simp only [all_cons, id_eq, Bool.and_eq_true] at all
        simp only [all_concat, all_cons, all_nil, id_eq, all.1, all.2.2]
        rfl

/-- After an AND the left side of an OR is more than one search key. -/
theorem run_differs (value : Term → Bool) {before after : List (SearchTerm Term)}
    (isAnd : conjunct.booleanAnd = true) (isOr : disjunct.booleanAnd = false)
    (hold : ∀ term ∈ before ++ [conjunct], value term.term = true)
    (neutral : ∀ term ∈ disjunct :: after, value term.term = term.booleanAnd) :
    (onlineRun value [true] (before ++ conjunct :: disjunct :: after)).all id = false ∧
      offlineRun value true (before ++ conjunct :: disjunct :: after) = true := by
  obtain ⟨some, all, offline⟩ := run_holds value
    (fun term mem => hold term (mem_append_left _ mem)) (cons_ne_nil true []) rfl
  have holds := hold conjunct (mem_append_right _ (mem_singleton_self _))
  have fails : value disjunct.term = false := (neutral disjunct mem_cons_self).trans isOr
  rw [onlineRun, offlineRun, foldl_append, foldl_append]
  change (onlineRun value (onlineRun value [true] before) (conjunct :: disjunct :: after)).all id =
    false ∧ offlineRun value (offlineRun value true before) (conjunct :: disjunct :: after) = true
  rw [offline]
  generalize onlineRun value [true] before = values at some all
  have group : ∃ first second others, values ++ [true] = first :: second :: others := by
    match values with
    | [] => exact absurd rfl some
    | [first] => exact ⟨first, true, [], rfl⟩
    | first :: second :: others => exact ⟨first, second, others ++ [true], rfl⟩
  obtain ⟨first, second, others, keys⟩ := group
  have step : onlineStep (onlineStep values true true) false false = [false] := by
    rw [onlineStep_and some, keys, onlineStep_or_more, all_concat, Bool.and_false, Bool.and_false]
  rw [onlineRun, offlineRun, foldl_cons, foldl_cons, foldl_cons, foldl_cons,
    isAnd, isOr, holds, fails, step]
  exact run_stays_false (fun term mem => neutral term (mem_cons_of_mem _ mem)) rfl

/-- The terms with these operators, each known by its place in the list. -/
def placed (operators : List Bool) (place : Nat) : List (SearchTerm Nat) :=
  match operators with
  | [] => []
  | booleanAnd :: operators => ⟨place, booleanAnd⟩ :: placed operators (place + 1)

lemma placed_operators (operators) (place : Nat) :
    (placed operators place).map SearchTerm.booleanAnd = operators := by
  induction operators generalizing place with
  | nil => rfl
  | cons booleanAnd operators ih => rw [placed, map_cons, ih]

lemma placed_append (first second) (place : Nat) :
    placed (first ++ second) place = placed first place ++ placed second (place + first.length) := by
  induction first generalizing place with
  | nil => rfl
  | cons booleanAnd operators ih =>
    rw [cons_append, placed, ih, placed, cons_append, length_cons, Nat.add_assoc,
      Nat.add_comm 1]

lemma placed_bounds (mem : term ∈ placed operators place) :
    place ≤ term.term ∧ term.term < place + operators.length ∧
      operators[term.term - place]? = some term.booleanAnd := by
  induction operators generalizing place with
  | nil => cases mem
  | cons booleanAnd operators ih =>
    cases mem_cons.mp mem with
    | inl here =>
      rw [here, Nat.sub_self]
      exact ⟨le_refl _, Nat.lt_add_of_pos_right (Nat.succ_pos _), rfl⟩
    | inr there =>
      obtain ⟨low, high, operator⟩ := ih there
      have index : term.term - place = term.term - (place + 1) + 1 := by omega
      rw [index, length_cons]
      exact ⟨by omega, by omega, operator⟩

/-- The tree of the terms 0, 1 and so on with these operators. -/
def expressionOf (first : Bool) (operators : List Bool) : BoolExpression Nat :=
  BoolExpression.ofTerms (placed (first :: operators) 0)

/-- The program for the server means what the offline evaluation computes unless an OR is
directly after an AND. The operator of the first term does not count. -/
theorem program_agrees_iff (first : Bool) (operators : List Bool) :
    (∃ program, readProgram ((expressionOf first operators).generateEncodeStr []) = some program ∧
        ∀ value : Nat → Bool,
          program.eval value = (expressionOf first operators).offlineEvaluate value) ↔
      ¬ [true, false] <:+: operators := by
  obtain ⟨program, read, values⟩ := program_value (⟨0, first⟩ : SearchTerm Nat) (placed operators 1)
  constructor
  · rintro ⟨other, readOther, agree⟩ ⟨before, after, rfl⟩
    cases read.symm.trans readOther
    let late := false :: after
    let value (place : Nat) : Bool :=
      if place < before.length + 2 then true else late[place - (before.length + 2)]?.getD false
    have operators : before ++ [true, false] ++ after = (before ++ [true]) ++ late := by
      rw [append_assoc, append_assoc]
      rfl
    have length : 1 + (before ++ [true]).length = before.length + 2 := by
      rw [length_append, length_singleton]
      omega
    have terms : placed (before ++ [true, false] ++ after) 1 =
        placed before 1 ++ ⟨1 + before.length, true⟩ :: placed late (before.length + 2) := by
      rw [operators, placed_append, placed_append, length, append_assoc]
      rfl
    have hold : ∀ term ∈ placed before 1 ++ [⟨1 + before.length, true⟩],
        value term.term = true := by
      intro term mem
      apply if_pos
      rcases mem_append.mp mem with early | last
      · have := (placed_bounds early).2.1
        omega
      · rw [mem_singleton.mp last]
        change 1 + before.length < before.length + 2
        omega
    have neutral : ∀ term ∈ placed late (before.length + 2), value term.term = term.booleanAnd := by
      intro term mem
      obtain ⟨low, -, operator⟩ := placed_bounds mem
      change (if term.term < before.length + 2 then true else _) = _
      rw [if_neg (by omega), operator]
      rfl
    obtain ⟨online, offline⟩ := values value
    obtain ⟨fails, holds⟩ := run_differs value rfl rfl hold neutral
    have start : value 0 = true := if_pos (by omega)
    rw [terms] at online offline
    change program.eval value = (onlineRun value [value 0] _).all id at online
    rw [start] at online offline
    have whole : (expressionOf first (before ++ [true, false] ++ after)).offlineEvaluate value =
        true := by
      change (BoolExpression.ofTerms (⟨0, first⟩ :: placed _ 1)).offlineEvaluate value = true
      rw [terms]
      exact offline.trans holds
    have same : false = true := fails.symm.trans (online.symm.trans ((agree value).trans whole))
    cases same
  · intro never
    refine ⟨program, read, fun value => ?_⟩
    obtain ⟨online, offline⟩ := values value
    rw [online]
    refine Eq.trans ?_ offline.symm
    apply run_agrees
    rw [Follows, placed_operators]
    exact never

/-- `(A AND B) OR C` is sent as `(OR A B C)`, which the server reads as `(A OR B) AND C`. -/
theorem or_group_takes_two :
    ¬ ∀ (first : Bool) (operators : List Bool) (value : Nat → Bool),
      ∃ program,
        readProgram ((expressionOf first operators).generateEncodeStr []) = some program ∧
          program.eval value = (expressionOf first operators).offlineEvaluate value := by
  intro always
  obtain ⟨program, read, same⟩ := always true [true, false] fun place => place != 2
  have found : readProgram ((expressionOf true [true, false]).generateEncodeStr []) =
      some (.and (.or (.single 0) (.single 1)) (.single 2)) := by
    decide +kernel
  cases found.symm.trans read
  exact absurd same (by decide)

end CommCentral.Search
