import Mathlib.Logic.Function.Basic
import Mathlib.Data.List.Infix
import Microcsp.Library.Transition

/-!
# Networks of deterministic processes

Processes that put values into channels and get values out of them, where each channel leads from one
process to one process. What a process does next is a function of its own state, and it waits for an
input that is not there yet. The moves of two processes commute, so the order in which processes move
decides how far the network gets, and not what goes through its channels. This is so too where outputs are
rendezvous, and a process waits until what it has put into a channel was got out of it: then a network that
cannot go on has gone as far as it can in any order. Nothing below mentions a particular system.
-/

namespace Library

universe u

/-- What a process does next. -/
inductive Move (C V T S : Type u) where
  /-- It puts a value into a channel. -/
  | put (c : C) (v : V) (next : S)
  /-- It gets the next value of a channel, and takes from it what it has use for. -/
  | get (c : C) (next : V → T × S)

/-- A network: the ends of the channels, and what the processes do. -/
structure Dataflow (K C V T S : Type u) where
  /-- The process that puts values into the channel. -/
  writer : C → K
  /-- The process that gets values out of it. -/
  reader : C → K
  /-- The next move of a process, if it makes one. -/
  move : K → S → Option (Move C V T S)

namespace Dataflow

variable {K C V T S : Type u}

/-- The processes with what has gone into and come out of each channel, oldest first. -/
structure State (K C V T S : Type u) where
  /-- The states of the processes. -/
  own : K → S
  /-- The values that were put into a channel. -/
  puts : C → List V
  /-- What was taken from the values that were got out of it. -/
  gets : C → List T

variable [DecidableEq K] [DecidableEq C]

namespace State

/-- A process puts a value into a channel. -/
def put (x : State K C V T S) (k : K) (c : C) (v : V) (next : S) : State K C V T S :=
  ⟨Function.update x.own k next, Function.update x.puts c (x.puts c ++ [v]), x.gets⟩

/-- A process takes something from the next value of a channel. -/
def get (x : State K C V T S) (k : K) (c : C) (t : T) (next : S) : State K C V T S :=
  ⟨Function.update x.own k next, x.puts, Function.update x.gets c (x.gets c ++ [t])⟩

end State

/-- The next move of one process. -/
def step (net : Dataflow K C V T S) (k : K) (x : State K C V T S) : Option (State K C V T S) :=
  match net.move k (x.own k) with
  | some (.put c v next) => if net.writer c = k then some (x.put k c v next) else none
  | some (.get c next) =>
    if net.reader c = k then
      (x.puts c)[(x.gets c).length]?.map fun v => x.get k c (next v).1 (next v).2
    else none
  | none => none

variable {net : Dataflow K C V T S} {k l : K} {x y z first : State K C V T S}

/-- A step puts a value into a channel of the process or gets one out of it. -/
theorem step_eq_some : net.step k x = some y ↔
    (∃ c v next, net.move k (x.own k) = some (.put c v next) ∧ net.writer c = k ∧
      y = x.put k c v next) ∨
    ∃ c next v, net.move k (x.own k) = some (.get c next) ∧ net.reader c = k ∧
      (x.puts c)[(x.gets c).length]? = some v ∧ y = x.get k c (next v).1 (next v).2 := by
  unfold step
  cases net.move k (x.own k) with
  | none => simp
  | some move =>
    cases move with
    | put c v next =>
      constructor
      · intro stepped
        simp only [Option.ite_none_right_eq_some, Option.some.injEq] at stepped
        exact Or.inl ⟨c, v, next, rfl, stepped.1, stepped.2.symm⟩
      · rintro (⟨c', v', next', same, wired, rfl⟩ | ⟨c', next', v', same, -⟩)
        · cases same
          exact if_pos wired
        · cases same
    | get c next =>
      constructor
      · intro stepped
        simp only [Option.ite_none_right_eq_some, Option.map_eq_some_iff] at stepped
        obtain ⟨wired, v, there, rfl⟩ := stepped
        exact Or.inr ⟨c, next, v, rfl, wired, there, rfl⟩
      · rintro (⟨c', v', next', same, -⟩ | ⟨c', next', v', same, wired, there, rfl⟩)
        · cases same
        · cases same
          simp only [if_pos wired, there, Option.map_some]

/-- The values that are in a channel stay there as more are put into it. -/
theorem getElem?_put {c d : C} {v v' : V} {next : S} {n : ℕ} (there : (x.puts d)[n]? = some v) :
    ((x.put k c v' next).puts d)[n]? = some v := by
  change (Function.update x.puts c (x.puts c ++ [v']) d)[n]? = some v
  rcases eq_or_ne d c with rfl | other
  · obtain ⟨inside, -⟩ := List.getElem?_eq_some_iff.mp there
    rw [Function.update_self, List.getElem?_append_left inside]
    exact there
  · rw [Function.update_of_ne other]
    exact there

/-- The steps of two processes commute. -/
theorem step_comm (apart : k ≠ l) (left : net.step k x = some y) (right : net.step l x = some z) :
    ∃ u, net.step l y = some u ∧ net.step k z = some u := by
  simp only [step_eq_some] at left right ⊢
  rcases left with ⟨c, v, next, moves, wired, rfl⟩ | ⟨c, next, v, moves, wired, there, rfl⟩
  · rcases right with ⟨d, v', next', moves', wired', rfl⟩ | ⟨d, next', v', moves', wired', there', rfl⟩
    · -- two outputs are to different channels
      have other : c ≠ d := fun same => apart (by rw [← wired, same, wired'])
      refine ⟨(x.put k c v next).put l d v' next', Or.inl ⟨d, v', next', ?_, wired', rfl⟩,
        Or.inl ⟨c, v, next, ?_, wired, ?_⟩⟩
      · simpa [State.put, apart.symm] using moves'
      · simpa [State.put, apart] using moves
      · simp only [State.put, Function.update_of_ne other, Function.update_of_ne other.symm,
          Function.update_comm other, Function.update_comm apart]
    · refine ⟨(x.put k c v next).get l d (next' v').1 (next' v').2,
        Or.inr ⟨d, next', v', ?_, wired', getElem?_put there', rfl⟩,
        Or.inl ⟨c, v, next, ?_, wired, ?_⟩⟩
      · simpa [State.put, apart.symm] using moves'
      · simpa [State.get, apart] using moves
      · simp only [State.put, State.get, Function.update_comm apart]
  · rcases right with ⟨d, v', next', moves', wired', rfl⟩ | ⟨d, next', v', moves', wired', there', rfl⟩
    · refine ⟨(x.get k c (next v).1 (next v).2).put l d v' next',
        Or.inl ⟨d, v', next', ?_, wired', rfl⟩,
        Or.inr ⟨c, next, v, ?_, wired, getElem?_put there, ?_⟩⟩
      · simpa [State.get, apart.symm] using moves'
      · simpa [State.put, apart] using moves
      · simp only [State.put, State.get, Function.update_comm apart]
    · -- two inputs are from different channels
      have other : c ≠ d := fun same => apart (by rw [← wired, same, wired'])
      refine ⟨(x.get k c (next v).1 (next v).2).get l d (next' v').1 (next' v').2,
        Or.inr ⟨d, next', v', ?_, wired', ?_, rfl⟩, Or.inr ⟨c, next, v, ?_, wired, ?_, ?_⟩⟩
      · simpa [State.get, apart.symm] using moves'
      · simpa only [State.get, Function.update_of_ne other.symm] using there'
      · simpa [State.get, apart] using moves
      · simpa only [State.get, Function.update_of_ne other] using there
      · simp only [State.get, Function.update_of_ne other, Function.update_of_ne other.symm,
          Function.update_comm other, Function.update_comm apart]

/-- Everything that the process has put into its channels was got out of them. -/
def Prompt (net : Dataflow K C V T S) (k : K) (x : State K C V T S) : Prop :=
  ∀ c, net.writer c = k → (x.gets c).length = (x.puts c).length

/-- No process can move promptly. -/
def AtRest (net : Dataflow K C V T S) (x : State K C V T S) : Prop :=
  ∀ k y, net.Prompt k x → net.step k x ≠ some y

/-- The step of another process leaves a process prompt. -/
theorem Prompt.step (prompt : net.Prompt l x) (apart : k ≠ l) (stepped : net.step k x = some y) :
    net.Prompt l y := by
  intro d writes
  rcases step_eq_some.mp stepped with ⟨c, v, next, -, wired, rfl⟩ | ⟨c, next, v, -, -, there, rfl⟩
  · have other : d ≠ c := fun same => apart (by rw [← wired, ← same, writes])
    change _ = (Function.update x.puts c (x.puts c ++ [v]) d).length
    rw [Function.update_of_ne other]
    exact prompt d writes
  · -- there is nothing to get out of a channel that is empty
    have other : d ≠ c := by
      rintro rfl
      obtain ⟨inside, -⟩ := List.getElem?_eq_some_iff.mp there
      exact inside.ne (prompt d writes)
    change (Function.update x.gets c (x.gets c ++ [(next v).1]) d).length = _
    rw [Function.update_of_ne other]
    exact prompt d writes

/-- Two states that are reached from one state lead to one state. -/
theorem confluent (left : Run net.step net.Prompt first x) (right : Run net.step net.Prompt first y) :
    ∃ u, Run net.step net.Prompt x u ∧ Run net.step net.Prompt y u := by
  refine Relation.church_rosser ?_ left right
  rintro x y z ⟨k, prompt, left⟩ ⟨l, prompt', right⟩
  rcases eq_or_ne k l with rfl | apart
  · obtain rfl := Option.some.inj (left.symm.trans right)
    exact ⟨y, .refl, .refl⟩
  · obtain ⟨u, after, after'⟩ := step_comm apart left right
    exact ⟨u, .single ⟨l, prompt'.step apart left, after⟩,
      .single ⟨k, prompt.step apart.symm right, after'⟩⟩

/-- What has come out of a channel is not taken back. -/
theorem gets_extend (run : Run net.step net.Prompt x y) (c : C) : x.gets c <+: y.gets c := by
  refine run.invariant (fun y => x.gets c <+: y.gets c) List.prefix_rfl fun k y z before _ stepped => ?_
  rcases step_eq_some.mp stepped with ⟨d, v, next, -, -, rfl⟩ | ⟨d, next, v, -, -, -, rfl⟩
  · exact before
  · refine before.trans ?_
    change y.gets c <+: Function.update y.gets d (y.gets d ++ [(next v).1]) c
    rcases eq_or_ne c d with rfl | other
    · rw [Function.update_self]
      exact List.prefix_append _ _
    · rw [Function.update_of_ne other]

/-- What comes out of a channel does not depend on the order of the steps, but for how much it is. -/
theorem gets_comparable (left : Run net.step net.Prompt first x)
    (right : Run net.step net.Prompt first y) (c : C) :
    x.gets c <+: y.gets c ∨ y.gets c <+: x.gets c := by
  obtain ⟨u, onward, onward'⟩ := confluent left right
  exact List.prefix_or_prefix_of_prefix (gets_extend onward c) (gets_extend onward' c)

/-- A network at rest goes nowhere. -/
theorem AtRest.eq (rest : net.AtRest x) (run : Run net.step net.Prompt x y) : y = x := by
  rcases run.cases_head with same | ⟨z, ⟨k, prompt, stepped⟩, -⟩
  · exact same.symm
  · exact absurd stepped (rest k z prompt)

/-- Every run can be continued to the state at rest, if one is reached. -/
theorem AtRest.reached (rest : net.AtRest x) (left : Run net.step net.Prompt first x)
    (right : Run net.step net.Prompt first y) : Run net.step net.Prompt y x := by
  obtain ⟨u, onward, onward'⟩ := confluent left right
  rw [rest.eq onward] at onward'
  exact onward'

end Dataflow

end Library
