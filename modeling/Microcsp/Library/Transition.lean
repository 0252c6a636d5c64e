import Mathlib.Logic.Relation
import Mathlib.Data.Option.Basic

/-!
# Runs of a labelled step function

A system is a partial function that takes a label and a state to the next state. A run keeps a
condition on every label and the state it is applied to, so that a statement about the runs in
which a named event does not happen has the event as its condition. Invariants are proved for
one step and carried to whole runs here, once. Nothing below mentions a particular system.
-/

namespace Library

universe u v

variable {S : Type u} {L : Type v}

/-- One step under a condition on the label and the state before the step. -/
def StepUnder (step : L → S → Option S) (ok : L → S → Prop) (before after : S) : Prop :=
  ∃ label, ok label before ∧ step label before = some after

/-- A finite run, each of whose steps satisfies the condition. -/
def Run (step : L → S → Option S) (ok : L → S → Prop) : S → S → Prop :=
  Relation.ReflTransGen (StepUnder step ok)

/-- The condition that every step satisfies. -/
def Always : L → S → Prop := fun _ _ => True

namespace Run

variable {step : L → S → Option S} {ok weaker : L → S → Prop} {first last next : S}

/-- The run without steps. -/
theorem refl (first : S) : Run step ok first first := Relation.ReflTransGen.refl

/-- A run followed by one more step. -/
theorem tail {label : L} (run : Run step ok first last) (allowed : ok label last)
    (stepped : step label last = some next) : Run step ok first next :=
  Relation.ReflTransGen.tail run ⟨label, allowed, stepped⟩

/-- A step followed by a run. -/
theorem head {label : L} (allowed : ok label first) (stepped : step label first = some next)
    (run : Run step ok next last) : Run step ok first last :=
  Relation.ReflTransGen.head ⟨label, allowed, stepped⟩ run

/-- A run under a condition is a run under every weaker condition. -/
theorem mono (implies : ∀ label state, ok label state → weaker label state)
    (run : Run step ok first last) : Run step weaker first last := by
  induction run with
  | refl => exact refl _
  | tail _ stepped ih =>
    obtain ⟨label, allowed, result⟩ := stepped
    exact ih.tail (implies _ _ allowed) result

/-- The invariant rule: what holds of the first state and is kept by every allowed step holds
of the last state. -/
theorem invariant (inv : S → Prop) (base : inv first)
    (keeps : ∀ label before after, inv before → ok label before →
      step label before = some after → inv after)
    (run : Run step ok first last) : inv last := by
  induction run with
  | refl => exact base
  | tail _ stepped ih =>
    obtain ⟨label, allowed, result⟩ := stepped
    exact keeps label _ _ ih allowed result

end Run

/-! ## Observers -/

section Observers

variable {A : Type*} {step : L → S → Option S} {note : L → S → S → A → A}

/-- A system with an observer, who keeps an account of its steps. -/
def observed (step : L → S → Option S) (note : L → S → S → A → A) (label : L) (both : S × A) :
    Option (S × A) :=
  (step label both.1).map fun next => (next, note label both.1 next both.2)

/-- A step of the observed system is one of the system, and is noted. -/
theorem observed_eq_some {label : L} {before after : S × A} :
    observed step note label before = some after ↔
      step label before.1 = some after.1 ∧ after.2 = note label before.1 after.1 before.2 := by
  unfold observed
  rw [Option.map_eq_some_iff]
  constructor
  · rintro ⟨next, stepped, rfl⟩
    exact ⟨stepped, rfl⟩
  · rintro ⟨stepped, noted⟩
    exact ⟨after.1, stepped, by rw [← noted]⟩

end Observers

/-- Execute a list of labels. -/
def execute (step : L → S → Option S) : List L → S → Option S
  | [], state => some state
  | label :: labels, state => (step label state).bind (execute step labels)

/-- Execute a list of labels, checking the condition before every step. -/
def executeUnder (step : L → S → Option S) (ok : L → S → Bool) : List L → S → Option S
  | [], state => some state
  | label :: labels, state =>
    if ok label state then (step label state).bind (executeUnder step ok labels) else none

/-- A checked execution is a run under the checked condition. -/
theorem run_of_executeUnder {step : L → S → Option S} {ok : L → S → Bool} {labels : List L}
    {first last : S} (done : executeUnder step ok labels first = some last) :
    Run step (fun label state => ok label state = true) first last := by
  induction labels generalizing first with
  | nil =>
    obtain rfl := Option.some.inj done
    exact Run.refl _
  | cons label labels ih =>
    simp only [executeUnder] at done
    split at done
    · rename_i allowed
      obtain ⟨middle, stepped, rest⟩ := Option.bind_eq_some_iff.mp done
      exact Relation.ReflTransGen.head ⟨label, allowed, stepped⟩ (ih rest)
    · contradiction

/-- An execution is a run. -/
theorem run_of_execute {step : L → S → Option S} {labels : List L} {first last : S}
    (done : execute step labels first = some last) : Run step Always first last := by
  induction labels generalizing first with
  | nil =>
    obtain rfl := Option.some.inj done
    exact Run.refl _
  | cons label labels ih =>
    obtain ⟨middle, stepped, rest⟩ := Option.bind_eq_some_iff.mp done
    exact Relation.ReflTransGen.head ⟨label, trivial, stepped⟩ (ih rest)

/-- What is checked at the end of a checked execution is reached by a run under the condition. -/
theorem exists_run_of_executeUnder {step : L → S → Option S} {ok : L → S → Bool} {first : S}
    (labels : List L) (check : S → Bool)
    (done : (executeUnder step ok labels first).any check = true) :
    ∃ last, Run step (fun label state => ok label state = true) first last ∧ check last = true := by
  obtain ⟨last, executed, checked⟩ := (Option.any_eq_true _ _).mp done
  exact ⟨last, run_of_executeUnder executed, checked⟩

/-- What is checked at the end of an execution is reached by a run. -/
theorem exists_run_of_execute {step : L → S → Option S} {first : S} (labels : List L)
    (check : S → Bool) (done : (execute step labels first).any check = true) :
    ∃ last, Run step Always first last ∧ check last = true := by
  obtain ⟨last, executed, checked⟩ := (Option.any_eq_true _ _).mp done
  exact ⟨last, run_of_execute executed, checked⟩

end Library
