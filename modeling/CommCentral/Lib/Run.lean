/-! Runs of a system that takes one step after another, invariants of its states and
simulation by a second system that takes the same steps. -/
namespace CommCentral.Lib
open List Option

universe u v w

variable {State : Type u} {Step : Type v} {Model : Type w}

def run (next : State → Step → State) : State → List Step → State
  | state, [] => state
  | state, step :: steps => run next (next state step) steps

/-- Every step is admissible in the state in which it is taken. -/
def Admissible (next : State → Step → State) (allowed : State → Step → Prop) :
    State → List Step → Prop
  | _, [] => True
  | state, step :: steps => allowed state step ∧ Admissible next allowed (next state step) steps

variable (next : State → Step → State) (allowed : State → Step → Prop)

@[simp] theorem run_nil (state : State) : run next state [] = state := rfl

theorem run_append (state : State) (steps later : List Step) :
    run next state (steps ++ later) = run next (run next state steps) later := by
  induction steps generalizing state with
  | nil => rfl
  | cons step steps ih => exact ih (next state step)

theorem Admissible.of_prefix {taken steps : List Step}
    (admissible : Admissible next allowed state steps) (start : taken <+: steps) :
    Admissible next allowed state taken := by
  induction taken generalizing state steps with
  | nil => trivial
  | cons step taken ih =>
    obtain ⟨later, rfl⟩ := start
    exact ⟨admissible.1, ih admissible.2 (prefix_append taken later)⟩

instance decidableAdmissible [∀ state step, Decidable (allowed state step)] :
    (state : State) → (steps : List Step) → Decidable (Admissible next allowed state steps)
  | _, [] => inferInstanceAs (Decidable True)
  | state, step :: steps =>
    have := decidableAdmissible (next state step) steps
    inferInstanceAs (Decidable (_ ∧ _))

theorem run_invariant {invariant : State → Prop}
    (preserved : ∀ state step, invariant state → allowed state step → invariant (next state step))
    (initial : invariant state) (admissible : Admissible next allowed state steps) :
    invariant (run next state steps) := by
  induction steps generalizing state with
  | nil => exact initial
  | cons step steps ih => exact ih (preserved state step initial admissible.1) admissible.2

theorem run_preserved {invariant : State → Prop}
    (preserved : ∀ state step, invariant state → invariant (next state step))
    (initial : invariant state) (steps : List Step) : invariant (run next state steps) := by
  induction steps generalizing state with
  | nil => exact initial
  | cons step steps ih => exact ih (preserved state step initial)

section

variable {next' : Model → Step → Model} {related : State → Model → Prop}

/-- Two systems that keep in step from related states stay related. -/
theorem run_simulation {fits : Step → Prop} (preserved : ∀ state model step, related state model →
      fits step → related (next state step) (next' model step)) (initial : related state model)
    (admissible : ∀ step ∈ steps, fits step) :
    related (run next state steps) (run next' model steps) := by
  induction steps generalizing state model with
  | nil => exact initial
  | cons step steps ih =>
    apply ih
    · exact preserved state model step initial (admissible step mem_cons_self)
    · intro later mem
      exact admissible later (mem_cons_of_mem step mem)

theorem run_simulation_admissible {permitted : Model → Step → Prop} (preserved : ∀ state model step,
      related state model → permitted model step → related (next state step) (next' model step))
    (initial : related state model) (admissible : Admissible next' permitted model steps) :
    related (run next state steps) (run next' model steps) := by
  induction steps generalizing state model with
  | nil => exact initial
  | cons step steps ih => exact ih (preserved state model step initial admissible.1) admissible.2

end

section Partial

variable (attempt : State → Step → Option State)

/-- The state after steps that may fail. -/
def runSome : State → List Step → Option State
  | state, [] => some state
  | state, step :: steps => (attempt state step).bind fun after => runSome after steps

/-- Every step is admissible in the state in which it is taken, as far as the run comes. -/
def AdmissibleSome : State → List Step → Prop
  | _, [] => True
  | state, step :: steps =>
    allowed state step ∧ ∀ after, attempt state step = some after → AdmissibleSome after steps

instance decidableAdmissibleSome [∀ state step, Decidable (allowed state step)] :
    (state : State) → (steps : List Step) → Decidable (AdmissibleSome allowed attempt state steps)
  | _, [] => inferInstanceAs (Decidable True)
  | state, step :: steps =>
    match taken : attempt state step with
    | none =>
      decidable_of_iff (allowed state step) (by
        rw [AdmissibleSome, taken]
        exact ⟨fun admissible => ⟨admissible, nofun⟩, And.left⟩)
    | some after =>
      have := decidableAdmissibleSome after steps
      decidable_of_iff (allowed state step ∧ AdmissibleSome allowed attempt after steps) (by
        rw [AdmissibleSome, taken]
        constructor
        · rintro ⟨admissible, rest⟩
          refine ⟨admissible, ?_⟩
          rintro _ ⟨⟩
          exact rest
        · exact fun ⟨admissible, rest⟩ => ⟨admissible, rest after rfl⟩)

variable {invariant : State → Prop}

theorem runSome_invariant (preserved : ∀ state step, invariant state → allowed state step → ∃ after,
      attempt state step = some after ∧ invariant after) (initial : invariant state)
    (admissible : AdmissibleSome allowed attempt state steps) :
    ∃ last, runSome attempt state steps = some last ∧ invariant last := by
  induction steps generalizing state with
  | nil => exact ⟨state, rfl, initial⟩
  | cons step steps ih =>
    obtain ⟨after, taken, holds⟩ := preserved state step initial admissible.1
    rw [runSome, taken]
    exact ih holds (admissible.2 after taken)

theorem runSome_simulation {Model : Type w} {related : State → Model → Prop}
    {next : Model → Step → Model} (preserved : ∀ state model step, related state model → allowed
      state step → ∃ after, attempt state step = some after ∧ related after (next model step))
    {model : Model} (initial : related state model)
    (admissible : AdmissibleSome allowed attempt state steps) :
    ∃ last, runSome attempt state steps = some last ∧ related last (steps.foldl next model) := by
  induction steps generalizing state model with
  | nil => exact ⟨state, rfl, initial⟩
  | cons step steps ih =>
    obtain ⟨after, taken, holds⟩ := preserved state model step initial admissible.1
    rw [runSome, taken]
    exact ih holds (admissible.2 after taken)

/-- What every step that is taken keeps holds at the end of a run. -/
theorem runSome_preserved (preserved : ∀ state step after, invariant state → attempt state step =
      some after → invariant after) {state last : State} (initial : invariant state)
    (ran : runSome attempt state steps = some last) : invariant last := by
  induction steps generalizing state with
  | nil =>
    rw [runSome, Option.some.injEq] at ran
    exact ran ▸ initial
  | cons step steps ih =>
    obtain ⟨after, stepped, ran⟩ := bind_eq_some_iff.mp ran
    exact ih (preserved state step after initial stepped) ran

theorem runSome_iff {invariant property : State → Prop} (stepped_iff : ∀ state step after, invariant
      state → attempt state step = some after → invariant after ∧ (property after ↔ property state ∧
      allowed state step)) {state last : State} (initial : invariant state)
    (ran : runSome attempt state steps = some last) :
    invariant last ∧
      (property last ↔ property state ∧ AdmissibleSome allowed attempt state steps) := by
  induction steps generalizing state with
  | nil =>
    rw [runSome, Option.some.injEq] at ran
    subst ran
    exact ⟨initial, (and_iff_left trivial).symm⟩
  | cons step steps ih =>
    obtain ⟨after, stepped, ran⟩ := bind_eq_some_iff.mp ran
    obtain ⟨holds, kept⟩ := stepped_iff state step after initial stepped
    obtain ⟨lastHolds, later⟩ := ih holds ran
    refine ⟨lastHolds, ?_⟩
    rw [later, kept, and_assoc, AdmissibleSome]
    apply and_congr_right
    intro _
    apply and_congr_right
    intro _
    constructor
    · intro rest other steppedOther
      exact Option.some.inj (stepped.symm.trans steppedOther) ▸ rest
    · exact fun rest => rest after stepped

/-- The states that a run and the runs it begins with lead to. -/
def Reached (state : State) (steps : List Step) (last : State) : Prop :=
  ∃ taken, taken <+: steps ∧ runSome attempt state taken = some last

theorem reached_nil {state last : State} : Reached attempt state [] last ↔ last = state := by
  constructor
  · rintro ⟨taken, start, ran⟩
    rw [prefix_nil.mp start, runSome, Option.some.injEq] at ran
    exact ran.symm
  · rintro rfl
    exact ⟨[], prefix_rfl, rfl⟩

theorem reached_cons {state last : State} :
    Reached attempt state (step :: steps) last ↔ last = state ∨
      ∃ after, attempt state step = some after ∧ Reached attempt after steps last := by
  constructor
  · rintro ⟨taken, start, ran⟩
    cases taken with
    | nil =>
      rw [runSome, Option.some.injEq] at ran
      exact .inl ran.symm
    | cons first taken =>
      obtain ⟨same, rest⟩ := cons_prefix_cons.mp start
      subst same
      obtain ⟨after, stepped, ran⟩ := bind_eq_some_iff.mp ran
      exact .inr ⟨after, stepped, taken, rest, ran⟩
  · rintro (rfl | ⟨after, stepped, taken, start, ran⟩)
    · exact ⟨[], nil_prefix, rfl⟩
    · refine ⟨step :: taken, cons_prefix_cons.mpr ⟨rfl, start⟩, ?_⟩
      rw [runSome, stepped]
      exact ran

theorem reached_invariant_iff (keeps_iff : ∀ state step after, invariant state → attempt state step
      = some after → (invariant after ↔ allowed state step))
    (fails : ∀ state step, attempt state step = none → allowed state step)
    (initial : invariant state) (steps : List Step) :
    (∀ last, Reached attempt state steps last → invariant last) ↔
      AdmissibleSome allowed attempt state steps := by
  induction steps generalizing state with
  | nil =>
    constructor
    · intro _
      trivial
    · intro _ last reached
      rw [(reached_nil attempt).mp reached]
      exact initial
  | cons step steps ih =>
    constructor
    · intro holds
      have later : ∀ after, attempt state step = some after → ∀ last,
          Reached attempt after steps last → invariant last := fun after stepped last reached =>
        holds last ((reached_cons attempt).mpr (.inr ⟨after, stepped, reached⟩))
      constructor
      · cases stepped : attempt state step with
        | none => exact fails state step stepped
        | some after =>
          have kept := later after stepped after ⟨[], nil_prefix, rfl⟩
          exact (keeps_iff state step after initial stepped).mp kept
      · intro after stepped
        have kept := later after stepped after ⟨[], nil_prefix, rfl⟩
        exact (ih kept).mp (later after stepped)
    · rintro ⟨admissible, rest⟩ last reached
      rcases (reached_cons attempt).mp reached with rfl | ⟨after, stepped, reached⟩
      · exact initial
      · have kept := (keeps_iff state step after initial stepped).mpr admissible
        exact (ih kept).mpr (rest after stepped) last reached

/-- What the admissible steps keep holds in every state that an admissible run comes to. -/
theorem reached_admissible (preserved : ∀ state step after, invariant state → allowed state step →
      attempt state step = some after → invariant after) {state last : State}
    (initial : invariant state) (admissible : AdmissibleSome allowed attempt state steps)
    (reached : Reached attempt state steps last) : invariant last := by
  induction steps generalizing state with
  | nil =>
    rw [(reached_nil attempt).mp reached]
    exact initial
  | cons step steps ih =>
    rcases (reached_cons attempt).mp reached with rfl | ⟨after, stepped, reached⟩
    · exact initial
    · have holds := preserved state step after initial admissible.1 stepped
      exact ih holds (admissible.2 after stepped) reached

end Partial

end CommCentral.Lib
