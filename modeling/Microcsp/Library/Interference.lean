import Mathlib.Data.Option.Basic
import Mathlib.Data.List.Basic

/-!
# Code that shares its state

A piece of sequential code that others interfere with: between two of its steps the shared state can
change by any change that a relation allows, which is all that the code relies on. An execution that
completes is given with its trace, the control point and the state before each step of its own.
Invariants of the control point, the state and the trace so far are proved for one step and the
changes after it, and hold at the end. Nothing below mentions a particular system.
-/

namespace Library

universe u

variable {C S V : Type u}

section Observations

variable {α β : Type u} {observe : α → Option β} {points : List α} {point : α}

/-- A point where nothing is observed. -/
theorem filterMap_concat_none (nothing : observe point = none) :
    (points ++ [point]).filterMap observe = points.filterMap observe := by
  simp [nothing]

/-- A point where something is observed. -/
theorem filterMap_concat_some {seen : β} (something : observe point = some seen) :
    (points ++ [point]).filterMap observe = points.filterMap observe ++ [seen] := by
  simp [something]

end Observations

/-- Code with control points of one type over a shared state: a step goes on or returns a value. -/
structure Code (C S V : Type u) where
  /-- A step that goes on. -/
  go : C → S → Option (C × S)
  /-- A step that returns. -/
  done : C → S → Option (V × S)

/-- The state after a step of the code. -/
def Code.Steps (code : Code C S V) (c : C) (s s' : S) : Prop :=
  (∃ c', code.go c s = some (c', s')) ∨ ∃ v, code.done c s = some (v, s')

/-- The execution of the code without the others, for a number of steps at most. -/
def Code.alone (code : Code C S V) : Nat → C → S → Option (List (C × S) × V × S)
  | 0, _, _ => none
  | fuel + 1, c, s =>
    match code.done c s with
    | some (v, s') => some ([(c, s)], v, s')
    | none =>
      match code.go c s with
      | some (c', s₁) =>
        (code.alone fuel c' s₁).map fun later => ((c, s) :: later.1, later.2.1, later.2.2)
      | none => none

/-- The code completes from the control point and the state, others changing the state between its
steps. -/
inductive Completes (code : Code C S V) (rely : S → S → Prop) : C → S → List (C × S) → V → S → Prop
    where
  /-- It returns. -/
  | ret {c : C} {s s' : S} {v : V} (returns : code.done c s = some (v, s')) :
      Completes code rely c s [(c, s)] v s'
  /-- It goes on, and after the others have acted it completes. -/
  | next {c c' : C} {s s₁ s₂ s' : S} {trace : List (C × S)} {v : V}
      (goes : code.go c s = some (c', s₁)) (others : rely s₁ s₂)
      (later : Completes code rely c' s₂ trace v s') :
      Completes code rely c s ((c, s) :: trace) v s'

namespace Completes

variable {code : Code C S V} {rely : S → S → Prop} {c : C} {s s' : S} {trace : List (C × S)} {v : V}

/-- The invariant rule for an execution that goes on: what each step and the changes after it keep,
the trace growing by the step, holds when the code returns. -/
theorem rule_from (inv : C → S → List (C × S) → Prop) (post : List (C × S) → V → S → Prop)
    (go : ∀ c s c' s₁ s₂ before, inv c s before → code.go c s = some (c', s₁) → rely s₁ s₂ →
      inv c' s₂ (before ++ [(c, s)]))
    (done : ∀ c s v s' before, inv c s before → code.done c s = some (v, s') →
      post (before ++ [(c, s)]) v s')
    (completes : Completes code rely c s trace v s') {before : List (C × S)} (base : inv c s before) :
    post (before ++ trace) v s' := by
  induction completes generalizing before with
  | ret returns => exact done _ _ _ _ _ base returns
  | next goes others _ ih =>
    have later := ih (go _ _ _ _ _ _ base goes others)
    rwa [List.append_assoc] at later

/-- The invariant rule for an execution from its start. -/
theorem rule (inv : C → S → List (C × S) → Prop) (post : List (C × S) → V → S → Prop)
    (go : ∀ c s c' s₁ s₂ before, inv c s before → code.go c s = some (c', s₁) → rely s₁ s₂ →
      inv c' s₂ (before ++ [(c, s)]))
    (done : ∀ c s v s' before, inv c s before → code.done c s = some (v, s') →
      post (before ++ [(c, s)]) v s')
    (completes : Completes code rely c s trace v s') (base : inv c s []) : post trace v s' :=
  completes.rule_from inv post go done base

/-- An execution under a condition on the others is one under any weaker condition. -/
theorem mono {weaker : S → S → Prop} (implies : ∀ s s', rely s s' → weaker s s')
    (completes : Completes code rely c s trace v s') : Completes code weaker c s trace v s' := by
  induction completes with
  | ret returns => exact .ret returns
  | next goes others _ ih => exact .next goes (implies _ _ others) ih

/-- Code that comes closer to its end with each step makes no more steps than the distance, whatever
the others do. -/
theorem length_le (distance : C → S → Nat)
    (go : ∀ c s c' s₁ s₂, code.go c s = some (c', s₁) → rely s₁ s₂ → distance c' s₂ < distance c s)
    (completes : Completes code rely c s trace v s') : trace.length ≤ distance c s + 1 := by
  induction completes with
  | ret returns => simp
  | next goes others _ ih =>
    have closer := go _ _ _ _ _ goes others
    simp only [List.length_cons]
    omega

/-- Code that may be left alone completes as it does without the others. -/
theorem of_alone (left_alone : ∀ s, rely s s) {fuel : Nat}
    (computed : code.alone fuel c s = some (trace, v, s')) : Completes code rely c s trace v s' := by
  induction fuel generalizing c s trace with
  | zero => cases computed
  | succ fuel ih =>
    simp only [Code.alone] at computed
    split at computed
    · rename_i returns
      cases computed
      exact .ret returns
    · split at computed
      · rename_i goes
        obtain ⟨⟨later, v, s'⟩, rest, made⟩ := Option.map_eq_some_iff.mp computed
        cases made
        exact .next goes (left_alone _) (ih rest)
      · cases computed

end Completes

end Library
