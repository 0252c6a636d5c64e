import Microcsp.Library.Transition
import Microcsp.Control

/-!
# Reasoning about steps

The invariant rule of the machine: an invariant of the stack and the global variables is kept by
every run if it is kept by each activation's step, by each call of application code, by the
delivery of an interrupt and by the clock. The simp lemmas say what each store leaves alone.
-/

open Library

namespace Microcsp

/-! ## The invariant rule -/

/-- What holds of the stack and the global variables after every outcome of a step of the innermost
activation. A program that stops leaves both as they were. -/
def Result.All (P : List Act → Globals → Prop) (rest : List Act) : Result → Prop
  | .next act g => P (act :: rest) g
  | .call act callee g => P (callee :: act :: rest) g
  | .ret v g => P (returnTo v rest) g
  | .stop _ => True
  | .stuck => True

section All

variable (P : List Act → Globals → Prop) (rest : List Act) (act callee : Act) (g : Globals)

@[simp] theorem Result.all_next : (Result.next act g).All P rest ↔ P (act :: rest) g := Iff.rfl

@[simp] theorem Result.all_call :
    (Result.call act callee g).All P rest ↔ P (callee :: act :: rest) g := Iff.rfl

@[simp] theorem Result.all_ret (v : Value) :
    (Result.ret v g).All P rest ↔ P (returnTo v rest) g := Iff.rfl

@[simp] theorem Result.all_stop (why : Stop) : (Result.stop why).All P rest := trivial

@[simp] theorem Result.all_stuck : Result.stuck.All P rest := trivial

end All

/-- A property of the stack and the global variables that every step under the condition keeps. -/
structure Kept (ok : Label → State → Prop) (P : List Act → Globals → Prop) : Prop where
  /-- Each activation's step keeps it. -/
  run : ∀ act rest g, ok .run ⟨act :: rest, g, none⟩ → P (act :: rest) g → (exec act g).All P rest
  /-- Each call of application code keeps it. -/
  user : ∀ op act rest g, ok (.user op) ⟨act :: rest, g, none⟩ → P (act :: rest) g →
    (execUser op act g).All P rest
  /-- The delivery of an interrupt keeps it. -/
  interrupt : ∀ intr stack g, ok (.interrupt intr) ⟨stack, g, none⟩ → intr < nintrSources →
    g.blocked intr = false → P stack g → P (.signal intr g.blocked .enter :: stack) g.disable
  /-- The clock keeps it. -/
  clock : ∀ t stack g, ok (.clock t) ⟨stack, g, none⟩ → P stack g →
    P stack { g with now := t }

/-- What holds after every outcome of the innermost activation's step holds of the next state. -/
theorem Result.All.apply {P : List Act → Globals → Prop} {rest : List Act} {r : Result}
    {before after : State} (all : r.All P rest) (held : P before.stack before.g)
    (applied : r.apply before rest = some after) : P after.stack after.g := by
  cases r with
  | next act g => obtain rfl := Option.some.inj applied; exact all
  | call act callee g => obtain rfl := Option.some.inj applied; exact all
  | ret v g => obtain rfl := Option.some.inj applied; exact all
  | stop why => obtain rfl := Option.some.inj applied; exact held
  | stuck => cases applied

/-- A property that is kept survives one step. -/
theorem Kept.step {ok : Label → State → Prop} {P : List Act → Globals → Prop} (kept : Kept ok P)
    {label : Label} {before after : State} (held : P before.stack before.g)
    (allowed : ok label before) (stepped : Microcsp.step label before = some after) :
    P after.stack after.g := by
  obtain ⟨stack, g, stopped⟩ := before
  cases stopped with
  | some why => simp [Microcsp.step] at stepped
  | none =>
    cases label with
    | run =>
      cases stack with
      | nil => simp [Microcsp.step] at stepped
      | cons act rest => exact (kept.run act rest g allowed held).apply held stepped
    | user op =>
      cases stack with
      | nil => simp [Microcsp.step] at stepped
      | cons act rest => exact (kept.user op act rest g allowed held).apply held stepped
    | interrupt intr =>
      simp only [Microcsp.step, Option.isSome_none, Bool.false_eq_true, if_false] at stepped
      split at stepped
      · rename_i deliverable
        obtain rfl := Option.some.inj stepped
        exact kept.interrupt intr stack g allowed deliverable.1 deliverable.2 held
      · cases stepped
    | clock t =>
      obtain rfl := Option.some.inj stepped
      exact kept.clock t stack g allowed held

/-- A property that is kept holds in the last state of every run from a state where it holds. -/
theorem Kept.invariant {ok : Label → State → Prop} {P : List Act → Globals → Prop}
    (kept : Kept ok P) {first last : State} (base : P first.stack first.g)
    (run : Run Microcsp.step ok first last) : P last.stack last.g :=
  Run.invariant (fun s => P s.stack s.g) base
    (fun _ _ _ held allowed stepped => kept.step held allowed stepped) run

/-- What holds after every outcome may be weakened. -/
theorem Result.All.imp {P Q : List Act → Globals → Prop} {rest : List Act} {r : Result}
    (all : r.All P rest) (weaken : ∀ stack g, P stack g → Q stack g) : r.All Q rest := by
  cases r <;> first | exact weaken _ _ all | trivial

/-- An outcome with two properties has both. -/
theorem Result.All.and {P Q : List Act → Globals → Prop} {rest : List Act} {r : Result}
    (left : r.All P rest) (right : r.All Q rest) : r.All (fun s g => P s g ∧ Q s g) rest := by
  cases r <;> first | exact ⟨left, right⟩ | trivial

/-- A property that is kept may be used to show that another one is. -/
theorem Kept.and {ok : Label → State → Prop} {P Q : List Act → Globals → Prop} (kept : Kept ok P)
    (given : Kept (fun label s => ok label s ∧ P s.stack s.g) Q) :
    Kept ok (fun stack g => P stack g ∧ Q stack g) where
  run act rest g allowed both :=
    (kept.run act rest g allowed both.1).and (given.run act rest g ⟨allowed, both.1⟩ both.2)
  user op act rest g allowed both :=
    (kept.user op act rest g allowed both.1).and (given.user op act rest g ⟨allowed, both.1⟩ both.2)
  interrupt intr stack g allowed known unblocked both :=
    ⟨kept.interrupt intr stack g allowed known unblocked both.1,
      given.interrupt intr stack g ⟨allowed, both.1⟩ known unblocked both.2⟩
  clock t stack g allowed both :=
    ⟨kept.clock t stack g allowed both.1, given.clock t stack g ⟨allowed, both.1⟩ both.2⟩

/-- Two properties, each of which is kept where the other holds, are kept together. -/
theorem Kept.mutual {ok : Label → State → Prop} {P Q : List Act → Globals → Prop}
    (left : Kept (fun label s => ok label s ∧ Q s.stack s.g) P)
    (right : Kept (fun label s => ok label s ∧ P s.stack s.g) Q) :
    Kept ok (fun stack g => P stack g ∧ Q stack g) where
  run act rest g allowed both :=
    (left.run act rest g ⟨allowed, both.2⟩ both.1).and (right.run act rest g ⟨allowed, both.1⟩ both.2)
  user op act rest g allowed both :=
    (left.user op act rest g ⟨allowed, both.2⟩ both.1).and
      (right.user op act rest g ⟨allowed, both.1⟩ both.2)
  interrupt intr stack g allowed known unblocked both :=
    ⟨left.interrupt intr stack g ⟨allowed, both.2⟩ known unblocked both.1,
      right.interrupt intr stack g ⟨allowed, both.1⟩ known unblocked both.2⟩
  clock t stack g allowed both :=
    ⟨left.clock t stack g ⟨allowed, both.2⟩ both.1, right.clock t stack g ⟨allowed, both.1⟩ both.2⟩

/-- What is kept under a condition is kept under every stronger one. -/
theorem Kept.mono {ok stronger : Label → State → Prop} {P : List Act → Globals → Prop}
    (implies : ∀ label s, stronger label s → ok label s) (kept : Kept ok P) : Kept stronger P where
  run act rest g allowed := kept.run act rest g (implies _ _ allowed)
  user op act rest g allowed := kept.user op act rest g (implies _ _ allowed)
  interrupt intr stack g allowed := kept.interrupt intr stack g (implies _ _ allowed)
  clock t stack g allowed := kept.clock t stack g (implies _ _ allowed)

/-- The property may be used to show that the condition it is kept under is met. -/
theorem Kept.given {ok stronger : Label → State → Prop} {P : List Act → Globals → Prop}
    (kept : Kept ok P) (implies : ∀ label s, stronger label s → P s.stack s.g → ok label s) :
    Kept stronger P where
  run act rest g allowed held := kept.run act rest g (implies _ _ allowed held) held
  user op act rest g allowed held := kept.user op act rest g (implies _ _ allowed held) held
  interrupt intr stack g allowed known unblocked held :=
    kept.interrupt intr stack g (implies _ _ allowed held) known unblocked held
  clock t stack g allowed held := kept.clock t stack g (implies _ _ allowed held) held

/-- A property that is kept may be stated in another way. -/
theorem Kept.iff {ok : Label → State → Prop} {P Q : List Act → Globals → Prop} (kept : Kept ok P)
    (same : ∀ stack g, P stack g ↔ Q stack g) : Kept ok Q := by
  have eq : P = Q := funext fun stack => funext fun g => propext (same stack g)
  rw [← eq]
  exact kept

/-- A test that fails has not succeeded. -/
theorem elim_of_false {b : Bool} {P : Prop} (fails : b = false) (succeeds : b = true) : P := by
  rw [fails] at succeeds
  cases succeeds

/-! ## The shape of the stack -/

/-- What a caller knows of the activation it called. -/
inductive Callee where
  /-- `main`, which nobody calls. -/
  | main
  /-- `take` -/
  | take
  /-- `append` for this process. -/
  | append (p : Addr)
  /-- `start` -/
  | start
  /-- The rtc function of this process. -/
  | rtc (p : Addr)
  /-- `enable_alt` for this process. -/
  | enableAlt (p : Addr)
  /-- `disable_alt` for this process. -/
  | disableAlt (p : Addr)
  /-- `schedule` -/
  | schedule
  /-- `readyProcessIfNecessary` -/
  | ready
  /-- `handle_timeout_interrupt` -/
  | timeoutHandler
  /-- `user_interrupt_handler` -/
  | userHandler
  /-- `handle_signal`, which the interrupted code did not call. -/
  | signal

/-- What the caller of an activation knows of it. -/
def Act.callee : Act → Callee
  | .main _ => .main
  | .select _ _ => .schedule
  | .schedule _ _ _ => .schedule
  | .take _ _ => .take
  | .append p _ => .append p
  | .start _ _ => .start
  | .rtc p => .rtc p
  | .enableAlt p _ => .enableAlt p
  | .disableAlt p _ => .disableAlt p
  | .ready _ _ => .ready
  | .signal _ _ _ => .signal
  | .timeoutHandler _ => .timeoutHandler
  | .userHandler _ => .userHandler

/-- What can stand directly over an activation: what it called at the point it has reached, or
`handle_signal` where it was interrupted. -/
def Act.admits (caller : Act) (callee : Callee) : Prop :=
  match callee, caller with
  | .signal, _ => True
  | .take, .select _ .taking => True
  | .append p, .ready q .appended => p = q
  | .append _, .start _ .appended => True
  | .append _, .main .timerInit => True
  | .start, .rtc _ => True
  | .start, .main .user => True
  | .rtc p, .schedule _ q .initial => p = q
  | .rtc p, .schedule _ q .executing => p = q
  | .enableAlt p, .schedule _ q .enabling => p = q
  | .disableAlt p, .schedule _ q .disabling => p = q
  | .ready, .schedule _ _ (.readying _) => True
  | .ready, .timeoutHandler (.resume _) => True
  | .ready, .signal _ _ (.handled _) => True
  | .schedule, .main .running => True
  | .schedule, .ready _ (.scheduling _) => True
  | .schedule, .signal _ _ (.scheduled _) => True
  | .timeoutHandler, .signal _ _ (.handled _) => True
  | .userHandler, .signal _ _ (.handled _) => True
  | _, _ => False

/-- What an activation called at its point can stand over the rest of the stack; nobody calls
`main`. -/
def Admitted (callee : Callee) : List Act → Prop
  | [] => callee = .main ∨ callee = .signal
  | caller :: _ => caller.admits callee

/-- Every activation but the outermost, which is `main`, stands over the one that called it. -/
def Stacked : List Act → Prop
  | [] => True
  | act :: rest => Admitted act.callee rest ∧ Stacked rest

@[simp] theorem admitted_cons {callee : Callee} {caller : Act} {rest : List Act} :
    Admitted callee (caller :: rest) ↔ caller.admits callee := Iff.rfl

@[simp] theorem stacked_cons {act : Act} {rest : List Act} :
    Stacked (act :: rest) ↔ Admitted act.callee rest ∧ Stacked rest := Iff.rfl

@[simp] theorem Act.resume_callee (act : Act) (v : Value) : (act.resume v).callee = act.callee := by
  unfold Act.resume
  split <;> rfl

@[simp] theorem returnTo_unit (rest : List Act) : returnTo .unit rest = rest := by
  cases rest with
  | nil => rfl
  | cons act rest => simp only [returnTo, Act.resume]

/-- A return leaves the shape of the stack as it is. -/
theorem Stacked.returnTo {rest : List Act} (stacked : Stacked rest) (v : Value) :
    Stacked (returnTo v rest) := by
  cases rest with
  | nil => trivial
  | cons act rest => exact ⟨by rw [Act.resume_callee]; exact stacked.1, stacked.2⟩

/-- An interrupt can come anywhere. -/
@[simp] theorem admitted_signal (stack : List Act) : Admitted .signal stack := by
  cases stack with
  | nil => exact Or.inr rfl
  | cons caller rest => trivial

/-- The record that an activation has allocated and not yet filled. -/
def Act.reserves : Act → Option Addr
  | .start _ (.fill _ record) => some record
  | .main (.idleFill _ record) => some record
  | _ => none

@[simp] theorem reserves_returnTo (v : Value) (rest : List Act) :
    (returnTo v rest).filterMap Act.reserves = rest.filterMap Act.reserves := by
  cases rest with
  | nil => rfl
  | cons act rest =>
    simp only [returnTo, Act.resume]
    split <;> rfl

section Callers

variable {stack : List Act} {p : Addr}

/-- Nobody calls `main`. -/
theorem Admitted.eq_nil_of_main (atop : Admitted .main stack) : stack = [] := by
  cases stack with
  | nil => rfl
  | cons caller rest =>
    have calls : caller.admits .main := atop
    cases caller <;> exact calls.elim

/-- `take` is called by `schedule`. -/
theorem Admitted.caller_of_take (atop : Admitted .take stack) :
    ∃ base rest, stack = .select base .taking :: rest := by
  cases stack with
  | nil => simp [Admitted] at atop
  | cons caller rest =>
    have calls : caller.admits .take := atop
    cases caller with
    | select base pc =>
      cases pc with
      | taking => exact ⟨base, rest, rfl⟩
      | _ => exact calls.elim
    | _ => exact calls.elim

/-- `append` is called by `readyProcessIfNecessary`, `start` and `start_idle`. -/
theorem Admitted.caller_of_append (atop : Admitted (.append p) stack) :
    ∃ rest, stack = .ready p .appended :: rest ∨ (∃ args, stack = .start args .appended :: rest) ∨
      stack = .main .timerInit :: rest := by
  cases stack with
  | nil => simp [Admitted] at atop
  | cons caller rest =>
    have calls : caller.admits (.append p) := atop
    cases caller with
    | ready q pc =>
      cases pc with
      | appended =>
        obtain rfl : p = q := calls
        exact ⟨rest, Or.inl rfl⟩
      | _ => exact calls.elim
    | start args pc =>
      cases pc with
      | appended => exact ⟨rest, Or.inr (Or.inl ⟨args, rfl⟩)⟩
      | _ => exact calls.elim
    | main pc =>
      cases pc with
      | timerInit => exact ⟨rest, Or.inr (Or.inr rfl)⟩
      | _ => exact calls.elim
    | _ => exact calls.elim

/-- An rtc function is called by `schedule`. -/
theorem Admitted.caller_of_rtc (atop : Admitted (.rtc p) stack) :
    ∃ base rest, stack = .schedule base p .initial :: rest ∨
      stack = .schedule base p .executing :: rest := by
  cases stack with
  | nil => simp [Admitted] at atop
  | cons caller rest =>
    have calls : caller.admits (.rtc p) := atop
    cases caller with
    | schedule base q pc =>
      cases pc with
      | initial =>
        obtain rfl : p = q := calls
        exact ⟨base, rest, Or.inl rfl⟩
      | executing =>
        obtain rfl : p = q := calls
        exact ⟨base, rest, Or.inr rfl⟩
      | _ => exact calls.elim
    | _ => exact calls.elim

/-- `enable_alt` is called by `schedule`. -/
theorem Admitted.caller_of_enableAlt (atop : Admitted (.enableAlt p) stack) :
    ∃ base rest, stack = .schedule base p .enabling :: rest := by
  cases stack with
  | nil => simp [Admitted] at atop
  | cons caller rest =>
    have calls : caller.admits (.enableAlt p) := atop
    cases caller with
    | schedule base q pc =>
      cases pc with
      | enabling =>
        obtain rfl : p = q := calls
        exact ⟨base, rest, rfl⟩
      | _ => exact calls.elim
    | _ => exact calls.elim

/-- `disable_alt` is called by `schedule`. -/
theorem Admitted.caller_of_disableAlt (atop : Admitted (.disableAlt p) stack) :
    ∃ base rest, stack = .schedule base p .disabling :: rest := by
  cases stack with
  | nil => simp [Admitted] at atop
  | cons caller rest =>
    have calls : caller.admits (.disableAlt p) := atop
    cases caller with
    | schedule base q pc =>
      cases pc with
      | disabling =>
        obtain rfl : p = q := calls
        exact ⟨base, rest, rfl⟩
      | _ => exact calls.elim
    | _ => exact calls.elim

end Callers

/-- `user_interrupt_handler` ends with `readyProcessIfNecessary`. -/
theorem Admitted.ready_of_userHandler {stack : List Act} (atop : Admitted .userHandler stack) :
    Admitted .ready stack := by
  cases stack with
  | nil => simp [Admitted] at atop
  | cons caller rest =>
    have calls : caller.admits .userHandler := atop
    cases caller with
    | signal intr saved pc =>
      cases pc with
      | handled previously => trivial
      | _ => exact calls.elim
    | _ => exact calls.elim

/-- What a step of an activation puts in its place, or nothing for a return: the same function goes
on, and may have called another one at its point. `user_interrupt_handler` ends as
`readyProcessIfNecessary`. -/
def Follows (act : Act) : List Act → Prop
  | [] => True
  | [act'] => act'.callee = act.callee ∨ act.callee = .userHandler ∧ act'.callee = .ready
  | callee :: caller :: _ =>
    caller.callee = act.callee ∧ caller.admits callee.callee ∧ callee.callee ≠ .signal

/-- It goes on at another point. -/
theorem follows_next {act act' : Act} {g : Globals} (same : act'.callee = act.callee) :
    (Result.next act' g).All (fun stack _ => Follows act stack) [] := Or.inl same

/-- It calls what its point admits. -/
theorem follows_call {act act' callee : Act} {g : Globals} (same : act'.callee = act.callee)
    (calls : act'.admits callee.callee) (other : callee.callee ≠ .signal) :
    (Result.call act' callee g).All (fun stack _ => Follows act stack) [] := ⟨same, calls, other⟩

/-- Every step of an activation goes on so. -/
theorem exec_follows (act : Act) (g : Globals) :
    (exec act g).All (fun stack _ => Follows act stack) [] := by
  cases act with
  | main pc =>
    cases pc <;> simp only [exec, execMain] <;> (repeat' split) <;>
      first | trivial | exact follows_next rfl | exact follows_call rfl trivial nofun
  | select base pc =>
    cases pc <;> simp only [exec, execSelect] <;> (repeat' split) <;>
      first | trivial | exact follows_next rfl | exact follows_call rfl trivial nofun
  | schedule base p pc =>
    cases pc <;> simp only [exec, execSchedule, callDisableAlt] <;> (repeat' split) <;>
      first | trivial | exact follows_next rfl | exact follows_call rfl trivial nofun |
        exact follows_call rfl rfl nofun
  | take pri pc =>
    cases pc <;> simp only [exec, execTake] <;> (repeat' split) <;>
      first | trivial | exact follows_next rfl
  | append p pc =>
    cases pc <;> simp only [exec, execAppend] <;> (repeat' split) <;>
      first | trivial | exact follows_next rfl
  | start args pc =>
    cases pc <;> simp only [exec, execStart] <;> (repeat' split) <;>
      first | trivial | exact follows_next rfl | exact follows_call rfl trivial nofun
  | rtc p => trivial
  | enableAlt p pc =>
    cases pc <;> simp only [exec, execEnableAlt] <;> (repeat' split) <;>
      first | trivial | exact follows_next rfl
  | disableAlt p pc =>
    cases pc <;> simp only [exec, execDisableAlt] <;> (repeat' split) <;>
      first | trivial | exact follows_next rfl
  | ready q pc =>
    cases pc <;> simp only [exec, execReady, callSchedule] <;> (repeat' split) <;>
      first | trivial | exact follows_call rfl rfl nofun | exact follows_call rfl trivial nofun
  | signal intr saved pc =>
    cases pc <;> simp only [exec, execSignal, callScheduleAtCurrent, callSchedule] <;>
      (repeat' split) <;>
      first | trivial | exact follows_next rfl | exact follows_call rfl trivial nofun
  | timeoutHandler pc =>
    cases pc <;> simp only [exec, execTimeoutHandler, readyOrFault] <;> (repeat' split) <;>
      first | trivial | exact follows_next rfl | exact follows_call rfl trivial nofun
  | userHandler intrsrc =>
    simp only [exec, execUserHandler]
    (repeat' split) <;> first | trivial | exact Or.inr ⟨rfl, rfl⟩

/-- So does every call of application code. -/
theorem execUser_follows (op : Op) (act : Act) (g : Globals) :
    (execUser op act g).All (fun stack _ => Follows act stack) [] := by
  unfold execUser
  split
  · split
    · cases op <;> simp only [userRtc] <;> (repeat' split) <;>
        first | trivial | exact follows_next rfl | exact follows_call rfl trivial nofun
    · trivial
  · cases op <;> simp only [userMain, callSchedule] <;> (repeat' split) <;>
      first | trivial | exact follows_next rfl | exact follows_call rfl trivial nofun
  · trivial

/-- A step that goes on so keeps the shape of the stack. -/
theorem Stacked.follow {act : Act} {rest : List Act} {r : Result} (stacked : Stacked (act :: rest))
    (follows : r.All (fun stack _ => Follows act stack) []) :
    r.All (fun stack _ => Stacked stack) rest := by
  obtain ⟨atop, below⟩ := stacked
  cases r with
  | next act' g =>
    refine ⟨?_, below⟩
    rcases follows with same | ⟨handler, ready⟩
    · rw [same]
      exact atop
    · rw [handler] at atop
      rw [ready]
      exact atop.ready_of_userHandler
  | call caller callee g =>
    obtain ⟨same, calls, -⟩ := follows
    refine ⟨calls, ?_, below⟩
    rw [same]
    exact atop
  | ret v g => exact below.returnTo v
  | stop why => trivial
  | stuck => trivial

/-- Every step keeps the shape of the stack. -/
theorem stacked_kept : Kept Always (fun stack _ => Stacked stack) where
  run act _ g _ stacked := stacked.follow (exec_follows act g)
  user op act _ g _ stacked := stacked.follow (execUser_follows op act g)
  interrupt _ stack _ _ _ _ stacked := ⟨admitted_signal stack, stacked⟩
  clock _ _ _ _ stacked := stacked

/-! ## Executions -/

/-- A boot state. -/
inductive Booted : State → Prop where
  /-- Any arena and any values of the uninitialised variables. -/
  | intro (arena : Option Addr) (memlen : Nat) (proc : Addr → Process) (link : Addr → Option Addr)
      (vars : Addr → Var → Buffer) (time : TimeoutId → Time) :
      Booted (boot arena memlen proc link vars time)

/-- The global variables before `memory_init`: nothing but the clock has moved. -/
structure Pristine (g : Globals) : Prop where
  /-- There is no current process. -/
  current : g.current = none
  /-- No level has ready processes. -/
  mask : g.priorityMask = 0
  /-- The ready queues are empty. -/
  queues : ∀ i, g.readyQ i = ⟨none, none⟩
  /-- The free lists are empty. -/
  free : ∀ i, g.mem.procmemlist i = none
  /-- The channels are initialised. -/
  chan : ∀ c, g.chan c = initChannel
  /-- So are the interrupt channels. -/
  ichan : ∀ x, g.ichan x = ⟨none, 0⟩
  /-- None of them is connected. -/
  connected : ∀ i, g.channelForInterrupt i = none
  /-- No timeout is queued. -/
  queue : g.timer.queue = []
  /-- No process expects one. -/
  timeout : ∀ t, (g.timer.timeout t).proc = none
  /-- No interrupt is being handled. -/
  handlers : g.activeHandlers = 0
  /-- No handler is set. -/
  interruptHandler : ∀ i, g.interruptHandler i = none
  /-- `hardware_init` has blocked all signals. -/
  blocked : ∀ i, g.blocked i = true
  /-- Nothing is on record. -/
  log : g.log = []

/-- The program is about to call `memory_init`. -/
def Uninitialised (stack : List Act) (g : Globals) : Prop :=
  ∃ arena memlen, stack = [.main (.memoryInit arena memlen)] ∧ Pristine g

theorem Booted.uninitialised {s : State} (booted : Booted s) : Uninitialised s.stack s.g := by
  cases booted with
  | intro arena memlen proc link vars time =>
    refine ⟨arena, memlen, rfl, ?_⟩
    constructor <;> simp [boot, allSignals]

/-- A property that is kept, and that `memory_init` establishes, holds from then on. -/
theorem Kept.from_boot {ok : Label → State → Prop} {P : List Act → Globals → Prop}
    (kept : Kept ok P)
    (base : ∀ arena memlen g, Pristine g →
      P [.main .schedInit] { g with mem := g.mem.memoryInit arena memlen })
    {first last : State} (booted : Booted first) (run : Run Microcsp.step ok first last) :
    Uninitialised last.stack last.g ∨ P last.stack last.g := by
  have either : Kept ok (fun stack g => Uninitialised stack g ∨ P stack g) := {
    run := by
      rintro act rest g allowed (⟨arena, memlen, same, pristine⟩ | held)
      · obtain ⟨rfl, rfl⟩ := List.cons.inj same
        cases arena with
        | none => trivial
        | some arena => exact Or.inr (base arena memlen g pristine)
      · have all := kept.run act rest g allowed held
        cases made : exec act g <;> rw [made] at all <;> first | exact Or.inr all | trivial
    user := by
      rintro op act rest g allowed (⟨arena, memlen, same, pristine⟩ | held)
      · obtain ⟨rfl, rfl⟩ := List.cons.inj same
        trivial
      · have all := kept.user op act rest g allowed held
        cases made : execUser op act g <;> rw [made] at all <;> first | exact Or.inr all | trivial
    interrupt := by
      rintro intr stack g allowed known unblocked (⟨arena, memlen, same, pristine⟩ | held)
      · rw [pristine.blocked intr] at unblocked
        cases unblocked
      · exact Or.inr (kept.interrupt intr stack g allowed known unblocked held)
    clock := by
      rintro t stack g allowed (⟨arena, memlen, same, pristine⟩ | held)
      · exact Or.inl ⟨arena, memlen, same, { pristine with }⟩
      · exact Or.inr (kept.clock t stack g allowed held) }
  exact either.invariant (Or.inl booted.uninitialised) run

/-- The program is about to call `memory_init` or `sched_init`. -/
structure Starting (stack : List Act) (g : Globals) : Prop where
  /-- No call is in progress. -/
  alone : ∃ pc, stack = [.main pc]
  /-- The ready queues are empty. -/
  queues : ∀ i, g.readyQ i = ⟨none, none⟩
  /-- Nothing is on record. -/
  log : g.log = []

/-- A property that is kept, and that `sched_init` establishes, holds from then on. -/
theorem Kept.from_sched_init {ok : Label → State → Prop} {P : List Act → Globals → Prop}
    (kept : Kept ok P)
    (base : ∀ arena memlen g handlers, Pristine g → P [.main .idleAlloc] { g with
      mem := g.mem.memoryInit arena memlen, interruptHandler := handlers })
    {first last : State} (booted : Booted first) (run : Run Microcsp.step ok first last) :
    Starting last.stack last.g ∨ P last.stack last.g := by
  have early : Kept ok (fun stack g => P stack g ∨ ∃ arena memlen g₀,
      stack = [.main .schedInit] ∧ Pristine g₀ ∧ g = { g₀ with
        mem := g₀.mem.memoryInit arena memlen }) := {
    run := by
      rintro act rest g allowed (held | ⟨arena, memlen, g₀, same, pristine, rfl⟩)
      · have all := kept.run act rest g allowed held
        cases made : exec act g <;> rw [made] at all <;> first | exact Or.inl all | trivial
      · obtain ⟨rfl, rfl⟩ := List.cons.inj same
        refine Or.inl ?_
        have empty : (fun i => if priMin ≤ i ∧ i ≤ priMax then ⟨none, none⟩ else g₀.readyQ i) =
            g₀.readyQ := by
          funext i
          split
          · exact (pristine.queues i).symm
          · rfl
        simp only [empty]
        exact base arena memlen g₀ _ pristine
    user := by
      rintro op act rest g allowed (held | ⟨arena, memlen, g₀, same, pristine, rfl⟩)
      · have all := kept.user op act rest g allowed held
        cases made : execUser op act g <;> rw [made] at all <;> first | exact Or.inl all | trivial
      · obtain ⟨rfl, rfl⟩ := List.cons.inj same
        trivial
    interrupt := by
      rintro intr stack g allowed known unblocked (held | ⟨arena, memlen, g₀, same, pristine, rfl⟩)
      · exact Or.inl (kept.interrupt intr stack g allowed known unblocked held)
      · have blocked := pristine.blocked intr
        simp only at unblocked
        rw [blocked] at unblocked
        cases unblocked
    clock := by
      rintro t stack g allowed (held | ⟨arena, memlen, g₀, same, pristine, rfl⟩)
      · exact Or.inl (kept.clock t stack g allowed held)
      · exact Or.inr ⟨arena, memlen, { g₀ with now := t }, same, { pristine with }, rfl⟩ }
  rcases early.from_boot (fun arena memlen g pristine =>
    Or.inr ⟨arena, memlen, g, rfl, pristine, rfl⟩) booted run with
    ⟨arena, memlen, same, pristine⟩ | held | ⟨arena, memlen, g, same, pristine, set⟩
  · exact Or.inl ⟨⟨_, same⟩, pristine.queues, pristine.log⟩
  · exact Or.inr held
  · refine Or.inl ⟨⟨_, same⟩, ?_, ?_⟩ <;> rw [set]
    · exact pristine.queues
    · exact pristine.log

/-- A number of steps of the running code. -/
def runs (n : Nat) : List Label := List.replicate n .run

/-- A boot state with an arena at address 1000 and all other memory zero. -/
def zeroBoot (memlen : Nat) : State :=
  boot (some 1000) memlen (fun _ => ⟨.user, ⟨fun _ => ⟨.skip, false⟩, 0, 0, 0, false⟩, 0, 0, .initial⟩)
    (fun _ => none) (fun _ _ => []) (fun _ => 0)

theorem zeroBoot_booted (memlen : Nat) : Booted (zeroBoot memlen) := .intro ..

/-- `start` for a process whose guard array starts with the given guard. -/
def startWith (guard : Guard) (pri : Int) : Op :=
  .start ⟨fun _ => [], fun i => if i = 0 then guard else ⟨.skip, false⟩, 16, pri⟩

/-- A process of priority 1 that has started one of priority 2 and is then interrupted by the
tick: control comes back to its code with the other process in `current`. -/
def startThenTick : List Label :=
  let input : Guard := ⟨.chanin 0 none 0, true⟩
  runs 11 ++ [.user (startWith input 1)] ++ runs 10 ++ [.user .ret] ++ runs 10 ++
    [.user (startWith input 2)] ++ runs 10 ++ [.interrupt 0] ++ runs 12 ++
    [.user (.initAlt 1), .user .ret] ++ runs 17

/-- `comm.c`: a sender of priority 1 and a receiver of priority 2, which waits when the sender
comes to its output. Each terminates when it has communicated. -/
def comm : List Label :=
  let output : Guard := ⟨.chanout 0 (some ⟨1024, 0⟩), true⟩
  let input : Guard := ⟨.chanin 0 (some ⟨1064, 0⟩) 4, true⟩
  runs 11 ++ [.user (startWith output 1)] ++ runs 10 ++ [.user (startWith input 2)] ++ runs 10 ++
    [.user .ret] ++ runs 10 ++ [.user (.initAlt 1), .user .ret] ++ runs 23 ++
    [.user (.initAlt 1), .user .ret] ++ runs 46 ++ [.user .terminate, .user .ret] ++ runs 16 ++
    [.user .terminate, .user .ret]

/-- A process that terminates in its second execution, after an ALT with a skip guard. -/
def skipThenTerminate : List Label :=
  runs 11 ++ [.user (startWith ⟨.skip, true⟩ 1)] ++ runs 10 ++ [.user .ret] ++ runs 10 ++
    [.user (.initAlt 1), .user .ret] ++ runs 15 ++ [.user .terminate, .user .ret] ++ runs 12

/-! ## Stores -/

section Channels

variable {chan : Channel} {current : Option Addr} {p : Addr}

/-- A process in a channel was there before or is the one that enabled it. -/
theorem Channel.enableInput_waiting (waiting : (chan.enableInput current).2.waiting = some p) :
    chan.waiting = some p ∨ current = some p := by
  unfold Channel.enableInput at waiting
  split at waiting
  · split at waiting <;> exact Or.inl waiting
  · exact Or.inr waiting

/-- The partner found is the process in the channel. -/
theorem Channel.enableInput_partner (found : (chan.enableInput current).1 = some p) :
    chan.waiting = some p := by
  unfold Channel.enableInput at found
  split at found
  · rename_i w waiting
    split at found
    · cases found
    · exact waiting.trans found
  · cases found

/-- A process left in a channel was there before. -/
theorem Channel.disableInput_waiting (waiting : (chan.disableInput current).2.waiting = some p) :
    chan.waiting = some p := by
  unfold Channel.disableInput at waiting
  split at waiting
  · split at waiting
    · exact waiting
    · cases waiting
  · exact waiting

/-- The partner found is the process in the channel. -/
theorem Channel.disableInput_partner (found : (chan.disableInput current).1 = some p) :
    chan.waiting = some p := by
  unfold Channel.disableInput at found
  split at found
  · rename_i w waiting
    split at found
    · exact waiting.trans found
    · cases found
  · cases found

/-- A process in an interrupt channel was there before or is the one that enabled it. -/
theorem InterruptChannel.enable_waiting {chan : InterruptChannel}
    (waiting : (chan.enable current).2.waiting = some p) :
    chan.waiting = some p ∨ current = some p := by
  unfold InterruptChannel.enable at waiting
  split at waiting
  · exact Or.inr waiting
  · exact Or.inl waiting

end Channels

namespace Globals

variable (g : Globals) (p q : Addr)

@[simp] theorem setProc_self (proc : Process) : (g.setProc p proc).proc p = proc := by
  simp [setProc]

@[simp] theorem setState_state_self (state : PState) :
    ((g.setState p state).proc p).state = state := by simp [setState]

theorem setProc_of_ne {p q : Addr} (proc : Process) (h : q ≠ p) :
    (g.setProc p proc).proc q = g.proc q := by simp [setProc, Function.update_of_ne h]

theorem setState_of_ne {p q : Addr} (state : PState) (h : q ≠ p) :
    (g.setState p state).proc q = g.proc q := setProc_of_ne g _ h

theorem setAlt_of_ne {p q : Addr} (alt : Alternation) (h : q ≠ p) :
    (g.setAlt p alt).proc q = g.proc q := setProc_of_ne g _ h

@[simp] theorem setState_pri (state : PState) :
    ((g.setState p state).proc q).pri = (g.proc q).pri := by
  by_cases h : q = p
  · subst h; simp [setState]
  · rw [setState_of_ne g state h]

@[simp] theorem setState_alt (state : PState) :
    ((g.setState p state).proc q).alt = (g.proc q).alt := by
  by_cases h : q = p
  · subst h; simp [setState]
  · rw [setState_of_ne g state h]

@[simp] theorem setState_index (state : PState) :
    ((g.setState p state).proc q).index = (g.proc q).index := by
  by_cases h : q = p
  · subst h; simp [setState]
  · rw [setState_of_ne g state h]

@[simp] theorem setState_rtc (state : PState) :
    ((g.setState p state).proc q).rtc = (g.proc q).rtc := by
  by_cases h : q = p
  · subst h; simp [setState]
  · rw [setState_of_ne g state h]

@[simp] theorem setAlt_state (alt : Alternation) :
    ((g.setAlt p alt).proc q).state = (g.proc q).state := by
  by_cases h : q = p
  · subst h; simp [setAlt]
  · rw [setAlt_of_ne g alt h]

@[simp] theorem setAlt_pri (alt : Alternation) :
    ((g.setAlt p alt).proc q).pri = (g.proc q).pri := by
  by_cases h : q = p
  · subst h; simp [setAlt]
  · rw [setAlt_of_ne g alt h]

@[simp] theorem setAlt_index (alt : Alternation) :
    ((g.setAlt p alt).proc q).index = (g.proc q).index := by
  by_cases h : q = p
  · subst h; simp [setAlt]
  · rw [setAlt_of_ne g alt h]

@[simp] theorem setAlt_rtc (alt : Alternation) :
    ((g.setAlt p alt).proc q).rtc = (g.proc q).rtc := by
  by_cases h : q = p
  · subst h; simp [setAlt]
  · rw [setAlt_of_ne g alt h]

/-- The priorities of the process records. -/
def pri (g : Globals) (p : Addr) : Nat := (g.proc p).pri

@[simp] theorem pri_emit (e : Event) : (g.emit e).pri = g.pri := rfl

@[simp] theorem pri_enter (f : Fn) : (g.enter f).pri = g.pri := rfl

@[simp] theorem pri_disable : g.disable.pri = g.pri := rfl

@[simp] theorem pri_enable : g.enable.pri = g.pri := rfl

@[simp] theorem pri_setState (state : PState) : (g.setState p state).pri = g.pri :=
  funext fun q => setState_pri g p q state

@[simp] theorem pri_setAlt (alt : Alternation) : (g.setAlt p alt).pri = g.pri :=
  funext fun q => setAlt_pri g p q alt

@[simp] theorem setAlt_alt_self (alt : Alternation) : ((g.setAlt p alt).proc p).alt = alt := by
  simp [setAlt]

end Globals

end Microcsp
