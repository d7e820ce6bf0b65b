import Mathlib.Logic.Relation
import Mathlib.Tactic.SplitIfs

/-!
Contract: finite runs of a labelled transition relation, and the induction that carries an
invariant along them.

Owns: `Run`, its composition laws, the invariant rule, and machines that answer the labels they
admit, with the execution of a list of labels.

Does not own: any particular system.
-/

set_option autoImplicit false

namespace UCore.Lib

variable {State Label : Type*}

/-- A finite run of `step`, with the labels it consumed in order. -/
inductive Run (step : State → Label → State → Prop) : State → List Label → State → Prop
  | nil (state : State) : Run step state [] state
  | cons {first second last : State} {label : Label} {labels : List Label} :
      step first label second → Run step second labels last →
      Run step first (label :: labels) last

namespace Run

variable {step : State → Label → State → Prop}

/-- An invariant of every step is an invariant of every run. -/
theorem invariant (inv : State → Prop)
    (preserved : ∀ before label after, inv before → step before label after → inv after)
    {first last : State} {labels : List Label} (run : Run step first labels last)
    (start : inv first) : inv last := by
  induction run with
  | nil => exact start
  | cons move _ inductionHypothesis =>
      exact inductionHypothesis (preserved _ _ _ start move)

/-- A run of a stronger relation is a run of a weaker one. -/
theorem mono {weaker : State → Label → State → Prop}
    (weaken : ∀ before label after, step before label after → weaker before label after)
    {first last : State} {labels : List Label} (run : Run step first labels last) :
    Run weaker first labels last := by
  induction run with
  | nil => exact nil _
  | cons move _ inductionHypothesis => exact cons (weaken _ _ _ move) inductionHypothesis

theorem append {first middle last : State} {left right : List Label}
    (before : Run step first left middle) (after : Run step middle right last) :
    Run step first (left ++ right) last := by
  induction before with
  | nil => exact after
  | cons move _ inductionHypothesis => exact cons move (inductionHypothesis after)

theorem split {first last : State} {left right : List Label}
    (run : Run step first (left ++ right) last) :
    ∃ middle, Run step first left middle ∧ Run step middle right last := by
  induction left generalizing first with
  | nil => exact ⟨first, nil first, run⟩
  | cons label left inductionHypothesis =>
      cases run with
      | cons move rest =>
          obtain ⟨middle, before, after⟩ := inductionHypothesis rest
          exact ⟨middle, cons move before, after⟩

theorem single {first last : State} {label : Label} (move : step first label last) :
    Run step first [label] last :=
  cons move (nil last)

end Run

theorem ok_of_toOption {Error Value : Type*} {answer : Except Error Value} {value : Value}
    (returned : answer.toOption = some value) : answer = .ok value := by
  cases answer with
  | error reason => cases returned
  | ok result => exact congrArg Except.ok (Option.some.inj returned)

/-- The states a deterministic system goes through, or `none` where it is stuck. -/
def follow (next : State → Label → Option State) : State → List Label → Option State
  | state, [] => some state
  | state, label :: labels => (next state label).bind fun second => follow next second labels

theorem follow_run {next : State → Label → Option State} {step : State → Label → State → Prop}
    (moves : ∀ before label after, next before label = some after → step before label after)
    {first last : State} {labels : List Label} (done : follow next first labels = some last) :
    Run step first labels last := by
  induction labels generalizing first with
  | nil =>
      rw [Option.some.inj done]
      exact .nil _
  | cons label labels inductionHypothesis =>
      obtain ⟨second, move, rest⟩ := Option.bind_eq_some_iff.mp done
      exact .cons (moves _ _ _ move) (inductionHypothesis rest)

/-- A deterministic system: the labels it admits in a state, and its answer to each, which may be
an error. -/
structure Machine (State Label Error : Type*) where
  Admits : State → Label → Prop
  answer : State → Label → Except Error State

namespace Machine

variable {Error : Type*} (machine : Machine State Label Error)

/-- The machine answers an admitted label. -/
def Step (before : State) (label : Label) (after : State) : Prop :=
  machine.Admits before label ∧ machine.answer before label = .ok after

/-- A step whose label meets a condition on the state before it. -/
def StepMeeting (meets : State → Label → Prop) (before : State) (label : Label) (after : State) :
    Prop :=
  machine.Step before label after ∧ meets before label

variable (meets : State → Label → Prop) [DecidableRel machine.Admits] [DecidableRel meets]

/-- The step as a function. -/
def next (state : State) (label : Label) : Option State :=
  if machine.Admits state label ∧ meets state label then (machine.answer state label).toOption
  else none

variable {machine meets}

theorem follow_next_run {first last : State} {labels : List Label}
    (done : follow (machine.next meets) first labels = some last) :
    Run (machine.StepMeeting meets) first labels last := by
  apply @follow_run _ _ (machine.next meets) (machine.StepMeeting meets) _ _ _ _ done
  intro before label after moved
  unfold next at moved
  split_ifs at moved with admitted
  exact ⟨⟨admitted.1, ok_of_toOption moved⟩, admitted.2⟩

end Machine

end UCore.Lib
