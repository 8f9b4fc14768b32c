import Mathlib.Tactic.Common

/-! Programs that change a state and may throw. What was done to the state before the
throw stays done, also when the exception is caught. -/
namespace CommCentral.Lib

/-- A program over a state that outlives its exceptions. -/
abbrev Attempt (State Error α : Type) : Type := State → Except Error α × State

namespace Attempt

variable {State Error α β : Type}

def pure (value : α) : Attempt State Error α := fun state => (.ok value, state)

def throw (error : Error) : Attempt State Error α := fun state => (.error error, state)

def bind (program : Attempt State Error α) (next : α → Attempt State Error β) :
    Attempt State Error β :=
  fun state => match program state with
    | (.ok value, later) => next value later
    | (.error error, later) => (.error error, later)

def tryCatch (program : Attempt State Error α) (handler : Error → Attempt State Error α) :
    Attempt State Error α :=
  fun state => match program state with
    | (.ok value, later) => (.ok value, later)
    | (.error error, later) => handler error later

instance : Monad (Attempt State Error) where
  pure := pure
  bind := bind

def read (field : State → α) : Attempt State Error α := fun state => (.ok (field state), state)

def update (change : State → State) : Attempt State Error Unit :=
  fun state => (.ok (), change state)

/-- A sequence that returns a value has passed its first part. -/
theorem bind_ok {next : α → Attempt State Error β} {state last : State}
    (ended : (program >>= next) state = (.ok result, last)) :
    ∃ value later, program state = (.ok value, later) ∧ next value later = (.ok result, last) := by
  change Attempt.bind program next state = _ at ended
  rw [Attempt.bind] at ended
  cases outcome : program state with
  | mk first later =>
    rw [outcome] at ended
    cases first with
    | ok value => exact ⟨value, later, rfl, ended⟩
    | error error => cases ended

lemma bind_eq {next : α → Attempt State Error β} {value : α}
    (returned : program state = (.ok value, later)) :
    (program >>= next) state = next value later := by
  change Attempt.bind program next state = _
  rw [Attempt.bind, returned]

lemma read_bind (field : State → α) (next : α → Attempt State Error β) (state : State) :
    (Attempt.read field >>= next) state = next (field state) state :=
  rfl

/-- The property holds after the program if it held before, whichever way it ends. -/
def Keeps (property : State → Prop) (program : Attempt State Error α) : Prop :=
  ∀ state, property state → property (program state).2

variable {property : State → Prop}

lemma Keeps.pure (value : α) : Keeps property (Pure.pure value : Attempt State Error α) :=
  fun _ holds => holds

lemma Keeps.throw (error : Error) :
    Keeps property (Attempt.throw error : Attempt State Error α) :=
  fun _ holds => holds

lemma Keeps.read (field : State → α) :
    Keeps property (Attempt.read field : Attempt State Error α) :=
  fun _ holds => holds

lemma Keeps.update {change : State → State}
    (step : ∀ state, property state → property (change state)) :
    Keeps property (Attempt.update change : Attempt State Error Unit) :=
  step

variable {next : α → Attempt State Error β}

/-- What follows a program is only reached with the values it returns. -/
theorem Keeps.bind_of (first : Keeps property program)
    (second : ∀ state value later, property state → program state = (.ok value, later) →
      property later → property (next value later).2) :
    Keeps property (program >>= next) := by
  intro state holds
  have kept := first state holds
  change property (Attempt.bind program next state).2
  rw [Attempt.bind]
  cases outcome : program state with
  | mk result later =>
    rw [outcome] at kept
    cases result with
    | ok value => exact second state value later holds outcome kept
    | error error => exact kept

lemma Keeps.bind (first : Keeps property program)
    (second : ∀ value, Keeps property (next value)) : Keeps property (program >>= next) :=
  first.bind_of fun _ value later _ _ holds => second value later holds

lemma Keeps.tryCatch {handler : Error → Attempt State Error α}
    (first : Keeps property program) (second : ∀ error, Keeps property (handler error)) :
    Keeps property (Attempt.tryCatch program handler) := by
  intro state holds
  have kept := first state holds
  rw [Attempt.tryCatch]
  cases outcome : program state with
  | mk result later =>
    rw [outcome] at kept
    cases result with
    | ok value => exact kept
    | error error => exact second error later kept

lemma Keeps.ite {condition : Prop} [Decidable condition]
    (holds : condition → Keeps property first) (fails : ¬ condition → Keeps property second) :
    Keeps property (if condition then first else second) := by
  split
  · exact holds ‹_›
  · exact fails ‹_›

section

variable {condition : Prop} [Decidable condition] {value : α}

lemma Keeps.unlessPure (kept : Keeps property program) :
    Keeps property (if condition then Pure.pure value else program) :=
  Keeps.ite (fun _ => Keeps.pure value) fun _ => kept

lemma Keeps.whenPure (kept : Keeps property program) :
    Keeps property (if condition then program else Pure.pure value) :=
  Keeps.ite (fun _ => kept) fun _ => Keeps.pure value

end

end Attempt

end CommCentral.Lib
