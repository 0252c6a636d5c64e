import Microcsp.Orderly

/-!
# Nested interrupt handlers

A handler begins with all signals blocked, and what `handle_signal` adds to the mask changes
nothing. So no signal is delivered to a handler, unless the handler makes a process ready that
`schedule` then runs: this enables all signals, those of lower priority with them, while the handler
is in progress. The mask that `handle_signal` restores at its end lets them in before it has
returned, too.
-/

open Library

namespace Microcsp

/-- The interrupt source whose signal is handled. -/
def Act.source : Act → Option Nat
  | .signal intr _ _ => some intr
  | _ => none

/-- The signal of each handler in progress, listed innermost first, is more urgent than those whose
handlers it came to. -/
def NestByPriority (s : State) : Prop := (s.stack.filterMap Act.source).Pairwise (· < ·)

/-- No activation of `handle_signal`. -/
def Unhandled (stack : List Act) : Prop := ∀ act ∈ stack, act.callee ≠ .signal

/-- What runs in a handler as long as it runs no process. -/
def Act.handling : Act → Bool
  | .select _ .top | .select _ (.chosen _) | .append _ _ | .ready _ _ | .timeoutHandler _
  | .userHandler _ => true
  | _ => false

/-- Handler code over one activation of `handle_signal`. -/
def Handling : List Act → Prop
  | .signal _ _ _ :: rest => Unhandled rest
  | act :: rest => act.handling = true ∧ Handling rest
  | [] => False

/-- `schedule` runs no process in a handler, and no signal is delivered when `handle_signal` has
restored the mask and not returned. -/
def runsNoProcess (label : Label) (s : State) : Bool :=
  match label, s.stack with
  | .run, .select base (.chosen highest) :: rest =>
    decide ((highest : Int) ≤ base) || (rest.filterMap Act.source).isEmpty
  | .interrupt _, .signal _ _ .leave :: _ => false
  | _, _ => true

/-- No handler is in progress, or one that is about to return, or one that runs no process, and all
signals are blocked. -/
inductive HandlingInv : List Act → Globals → Prop where
  /-- None. -/
  | none {stack : List Act} {g : Globals} (none : Unhandled stack) : HandlingInv stack g
  /-- About to return. -/
  | leaving {intr : Nat} {saved : SigSet} {rest : List Act} {g : Globals} (below : Unhandled rest) :
      HandlingInv (.signal intr saved .leave :: rest) g
  /-- In progress. -/
  | handling {stack : List Act} {g : Globals} (handling : Handling stack)
      (blocked : ∀ i, g.blocked i = true) : HandlingInv stack g

section Steps

variable {act : Act} {rest : List Act} {g : Globals}

theorem Unhandled.tail (none : Unhandled (act :: rest)) : Unhandled rest :=
  fun a mem => none a (List.mem_cons_of_mem _ mem)

theorem Unhandled.returnTo (none : Unhandled rest) (v : Value) : Unhandled (returnTo v rest) := by
  cases rest with
  | nil => exact none
  | cons caller under =>
    refine List.forall_mem_cons.mpr ⟨?_, none.tail⟩
    rw [Act.resume_callee]
    exact none caller List.mem_cons_self

/-- Only a signal starts a handler. -/
theorem unhandled_all {r : Result} (none : Unhandled (act :: rest))
    (follows : r.All (fun stack _ => Follows act stack) []) :
    r.All (fun stack _ => Unhandled stack) rest := by
  have own : act.callee ≠ .signal := none act List.mem_cons_self
  cases r with
  | next act' g =>
    refine List.forall_mem_cons.mpr ⟨?_, none.tail⟩
    rcases follows with same | ⟨-, ready⟩
    · rwa [same]
    · simp [ready]
  | call caller callee g =>
    obtain ⟨same, -, other⟩ := follows
    exact List.forall_mem_cons.mpr ⟨other, List.forall_mem_cons.mpr ⟨by rwa [same], none.tail⟩⟩
  | ret v g => exact none.tail.returnTo v
  | stop why => trivial
  | stuck => trivial

theorem Unhandled.source {stack : List Act} (none : Unhandled stack) :
    stack.filterMap Act.source = [] := by
  refine List.filterMap_eq_nil_iff.mpr fun act mem => ?_
  cases act with
  | signal intr saved pc => exact absurd rfl (none _ mem)
  | _ => rfl

/-- One signal is handled. -/
theorem Handling.single {stack : List Act} (handling : Handling stack) :
    (stack.filterMap Act.source).length = 1 := by
  induction stack with
  | nil => exact handling.elim
  | cons act rest ih =>
    cases act with
    | signal intr saved pc =>
      change (intr :: rest.filterMap Act.source).length = 1
      rw [Unhandled.source handling]
      rfl
    | _ => exact ih handling.2

/-- Handler code that runs no process leaves all signals blocked. -/
theorem exec_handling (handling : Handling (act :: rest)) (blocked : ∀ i, g.blocked i = true)
    (allowed : runsNoProcess .run ⟨act :: rest, g, none⟩ = true) :
    (exec act g).All HandlingInv rest := by
  have stay : ∀ {stack : List Act} {g' : Globals}, Handling stack → g'.blocked = g.blocked →
      HandlingInv stack g' := fun handling same => .handling handling (same ▸ blocked)
  have back : Handling rest → ∀ {g' : Globals}, g'.blocked = g.blocked →
      HandlingInv (returnTo .unit rest) g' := by
    intro handling g' same
    rw [returnTo_unit]
    exact stay handling same
  cases act with
  | select base pc =>
    cases pc with
    | top => exact stay handling rfl
    | chosen highest =>
      have atop : rest.filterMap Act.source ≠ [] := List.ne_nil_of_length_eq_add_one handling.2.single
      have below : (highest : Int) ≤ base := by simpa [runsNoProcess, atop] using allowed
      rw [exec, execSelect, if_pos below]
      exact back handling.2 rfl
    | taking => cases handling.1
    | took r => cases handling.1
  | append p pc =>
    cases pc <;> simp only [exec, execAppend] <;> (repeat' split) <;>
      first | exact stay handling rfl | exact back handling.2 rfl
  | ready q pc =>
    cases pc <;> simp only [exec, execReady, callSchedule] <;> (repeat' split) <;>
      first | trivial | exact back handling.2 rfl | exact stay ⟨rfl, handling⟩ rfl
  | signal intr saved pc =>
    have below : Unhandled rest := handling
    have all : ∀ added : SigSet, (fun i => g.blocked i || added i) = g.blocked := fun added =>
      funext fun i => by simp [blocked i]
    cases pc with
    | enter =>
      simp only [exec, execSignal]
      split
      · exact stay ⟨rfl, below⟩ (all _)
      · exact stay ⟨rfl, below⟩ (all _)
      · exact stay below (all _)
    | handled previously =>
      simp only [exec, execSignal, callScheduleAtCurrent, callSchedule]
      (repeat' split) <;> first | trivial | exact stay ⟨rfl, below⟩ (all _) | exact stay below (all _)
    | scheduled previously => exact .leaving below
    | leave => exact .none (below.returnTo .unit)
  | timeoutHandler pc =>
    cases pc <;> simp only [exec, execTimeoutHandler, readyOrFault] <;> (repeat' split) <;>
      first
        | trivial
        | exact stay handling rfl
        | exact back handling.2 rfl
        | exact stay ⟨rfl, handling⟩ rfl
  | userHandler intrsrc =>
    simp only [exec, execUserHandler]
    (repeat' split) <;>
      first | trivial | exact back handling.2 rfl | exact stay ⟨rfl, handling.2⟩ rfl
  | _ => cases handling.1

/-- Application code is not handler code. -/
theorem execUser_handling {op : Op} (handling : Handling (act :: rest)) :
    (execUser op act g).All HandlingInv rest := by
  cases act with
  | rtc p => cases handling.1
  | main pc => cases handling.1
  | _ => trivial

end Steps

/-- Runs in which handlers run no process keep the invariant. -/
theorem handlingInv_kept : Kept (fun label s => runsNoProcess label s = true) HandlingInv where
  run act rest g allowed inv := by
    rcases inv with none | @⟨intr, saved, rest, g, below⟩ | ⟨handling, blocked⟩
    · exact (unhandled_all none (exec_follows act g)).imp fun _ _ none => .none none
    · exact .none (below.returnTo .unit)
    · exact exec_handling handling blocked allowed
  user op act rest g _ inv := by
    rcases inv with none | ⟨below⟩ | ⟨handling, -⟩
    · exact (unhandled_all none (execUser_follows op act g)).imp fun _ _ none => .none none
    · trivial
    · exact execUser_handling handling
  interrupt intr stack g allowed _ unblocked inv := by
    rcases inv with none | ⟨below⟩ | ⟨-, blocked⟩
    · exact .handling none fun i => by simp [Globals.disable, allSignals]
    · cases allowed
    · rw [blocked intr] at unblocked
      cases unblocked
  clock t stack g _ inv := by
    rcases inv with none | ⟨below⟩ | ⟨handling, blocked⟩
    · exact .none none
    · exact .leaving below
    · exact .handling handling blocked

/-- At most one signal is handled. -/
theorem HandlingInv.source_le {stack : List Act} {g : Globals} (inv : HandlingInv stack g) :
    (stack.filterMap Act.source).length ≤ 1 := by
  rcases inv with none | ⟨below⟩ | ⟨handling, -⟩
  · simp [none.source]
  · rename_i intr saved rest
    change (intr :: rest.filterMap Act.source).length ≤ 1
    rw [below.source]
    exact Nat.le_refl _
  · exact Nat.le_of_eq handling.single

/-! ## The result -/

/-- In every run in which handlers run no process, and no signal is delivered to a handler that is
about to return, handlers nest by priority. -/
theorem handlers_nest_by_priority {first last : State} (booted : Booted first)
    (run : Run step (fun label s => runsNoProcess label s = true) first last) :
    NestByPriority last := by
  have inv : HandlingInv last.stack last.g := by
    refine handlingInv_kept.invariant (.none ?_) run
    cases booted with
    | intro arena memlen proc link vars time => simp [boot, Unhandled, Act.callee]
  have single := inv.source_le
  unfold NestByPriority
  cases sources : last.stack.filterMap Act.source with
  | nil => exact .nil
  | cons intr others =>
    rw [sources] at single
    obtain rfl : others = [] := List.eq_nil_of_length_eq_zero (by simpa using single)
    exact List.pairwise_singleton _ _

/-- The tick comes while a process executes. -/
theorem handlers_nest_by_priority_at_tick : ∃ last : State, NestByPriority last ∧
    last.stack.filterMap Act.source = [0] ∧ last.g.current = some 1024 := by
  obtain ⟨last, run, checked⟩ := exists_run_of_executeUnder
    (runs 11 ++ [.user (startWith ⟨.skip, true⟩ 1)] ++ runs 10 ++ [.user .ret] ++ runs 10 ++
      [.interrupt 0] ++ runs 2)
    (fun s : State => s.stack.filterMap Act.source == [0] && s.g.current == some 1024)
    (by decide +kernel : (executeUnder step runsNoProcess _ (zeroBoot 1000)).any _ = true)
  simp only [Bool.and_eq_true, beq_iff_eq] at checked
  exact ⟨last, handlers_nest_by_priority (zeroBoot_booted 1000) run, checked⟩

/-- A process that waits for two interrupts is made ready by the first one's handler, which runs it
with all signals enabled, and the second one is delivered. -/
theorem handlers_sometimes_nest_against_priority :
    ¬ ∀ first last, Booted first → Run step Always first last → NestByPriority last := by
  intro always
  obtain ⟨last, run, wrong⟩ := exists_run_of_execute
    (runs 11 ++ [.user (.connect 5 0), .user (startWith ⟨.interrupt 5 none, true⟩ 1)] ++ runs 10 ++
      [.user .ret] ++ runs 10 ++ [.user (.initAlt 1), .user .ret] ++ runs 23 ++ [.interrupt 3] ++
      runs 26 ++ [.interrupt 4])
    (fun s : State => s.stack.filterMap Act.source == [4, 3])
    (by decide +kernel : (execute step _ (zeroBoot 1000)).any _ = true)
  have nested := always _ last (zeroBoot_booted 1000) run
  rw [NestByPriority, eq_of_beq wrong] at nested
  exact absurd nested (by decide)

end Microcsp
