import Mathlib.Data.List.Basic

/-! Iterators with the two calls "are there more elements" and "give the next one", in any order,
and which list such an iterator goes over. -/
namespace CommCentral.Lib

universe u v

inductive IteratorCall
  | hasMoreElements
  | getNext
deriving Repr, DecidableEq

/-- `item none` is the failure of a call for the next element. -/
inductive IteratorAnswer (Item : Type u)
  | more (some : Bool)
  | item (next : Option Item)
deriving Repr, DecidableEq

variable {Item : Type u} {State : Type v}

/-- The iterator of a list: its state is the rest of the list. -/
def listCall : List Item → IteratorCall → List Item × IteratorAnswer Item
  | rest, .hasMoreElements => (rest, .more (!rest.isEmpty))
  | rest, .getNext => (rest.tail, .item rest.head?)

def answers (call : State → IteratorCall → State × IteratorAnswer Item) :
    State → List IteratorCall → List (IteratorAnswer Item)
  | _, [] => []
  | state, next :: calls => (call state next).2 :: answers call (call state next).1 calls

/-- The answers are those of the iterator of a list, whatever calls are made. -/
def IteratesOver (call : State → IteratorCall → State × IteratorAnswer Item) (state : State)
    (items : List Item) : Prop :=
  ∀ calls, answers call state calls = answers listCall items calls

variable {call : State → IteratorCall → State × IteratorAnswer Item}

/-- What one call keeps holds for all calls. -/
theorem IteratesOver.of_step {related : State → List Item → Prop} (step : ∀ state items next,
      related state items → related (call state next).1 (listCall items next).1 ∧ (call state
      next).2 = (listCall items next).2) (start : related state items) :
    IteratesOver call state items := by
  intro calls
  induction calls generalizing state items with
  | nil => rfl
  | cons next calls ih =>
    obtain ⟨later, same⟩ := step state items next start
    rw [answers, answers, same, ih later]

lemma IteratesOver.step (iterates : IteratesOver call state items) (next) :
    (call state next).2 = (listCall items next).2 ∧
      IteratesOver call (call state next).1 (listCall items next).1 := by
  constructor
  · exact (List.cons.inj (iterates [next])).1
  · intro calls
    exact (List.cons.inj (iterates (next :: calls))).2

/-- The loop that asks whether there are more elements before it takes the next one, and visits
each. -/
def visitAll {Result : Type*} (call : State → IteratorCall → State × IteratorAnswer Item)
    (visit : Result → Item → Result) : (fuel : Nat) → State → Result → Option Result
  | 0, _, _ => none
  | fuel + 1, state, result =>
    match call state .hasMoreElements with
    | (state, .more true) =>
      match call state .getNext with
      | (state, .item (some item)) => visitAll call visit fuel state (visit result item)
      | _ => some result
    | _ => some result

/-- The loop visits the elements in their order. -/
theorem IteratesOver.visitAll_eq {Result : Type*}
    {call : State → IteratorCall → State × IteratorAnswer Item}
    (iterates : IteratesOver call state items) (visit : Result → Item → Result)
    (enough : items.length < fuel) (result : Result) :
    visitAll call visit fuel state result = some (items.foldl visit result) := by
  induction items generalizing state fuel result with
  | nil =>
    obtain ⟨fuel, rfl⟩ := Nat.exists_eq_succ_of_ne_zero (Nat.ne_zero_of_lt enough)
    have answer := (iterates.step .hasMoreElements).1
    rw [visitAll]
    generalize call state .hasMoreElements = asking at answer ⊢
    obtain ⟨later, more⟩ := asking
    subst answer
    rfl
  | cons item items ih =>
    obtain ⟨fuel, rfl⟩ := Nat.exists_eq_succ_of_ne_zero (Nat.ne_zero_of_lt enough)
    obtain ⟨answer, asked⟩ := iterates.step .hasMoreElements
    rw [visitAll]
    generalize call state .hasMoreElements = asking at answer asked ⊢
    obtain ⟨later, more⟩ := asking
    subst answer
    obtain ⟨answer, taken⟩ := asked.step .getNext
    simp only [listCall, List.isEmpty_cons, Bool.not_false]
    generalize call later .getNext = taking at answer taken ⊢
    obtain ⟨last, given⟩ := taking
    subst answer
    exact ih taken (Nat.lt_of_succ_lt_succ enough) (visit result item)

lemma answers_injective (same : IteratesOver listCall items others) : items = others := by
  induction items generalizing others with
  | nil =>
    have first := same [.getNext]
    cases others with
    | nil => rfl
    | cons other others => simp [answers, listCall] at first
  | cons item items ih =>
    cases others with
    | nil =>
      have first := same [.getNext]
      simp [answers, listCall] at first
    | cons other others =>
      have first := same [.getNext]
      have rest : IteratesOver listCall items others := by
        intro calls
        exact (List.cons.inj (same (.getNext :: calls))).2
      simp only [answers, listCall, List.head?_cons, List.cons.injEq, IteratorAnswer.item.injEq,
        Option.some.injEq, and_true] at first
      rw [first, ih rest]

lemma IteratesOver.iff_eq (iterates : IteratesOver call state items) :
    IteratesOver call state others ↔ items = others := by
  constructor
  · intro same
    apply answers_injective
    intro calls
    rw [← iterates calls, same calls]
  · rintro rfl
    exact iterates

end CommCentral.Lib
