import Microcsp.Orderly

/-!
# Quiet steps

Most steps leave alone what the scheduler works on: the queues, the allocator, the states and
priorities of the processes, `current`, and the outline of the control stack. What `enable_alt`,
`disable_alt`, the handlers and the initialisation of guards do is said here once, so that an
invariant about the scheduler need only be shown to outlast a quiet step.
-/

open Library

namespace Microcsp

/-- The event concerns only channels, guards and timeouts, or tells of a call. -/
def Event.quiet : Event → Bool
  | .alloc _ | .release _ | .terminate _ | .rtc _ _ | .enable _ => false
  | _ => true

/-- What remains of an activation when only the scheduler matters. -/
def Act.outline : Act → Option Act
  | .main pc => some (.main pc)
  | .select base pc => some (.select base pc)
  | .schedule base p .executing => some (.schedule base p .executing)
  | .schedule base p .finish => some (.schedule base p .executing)
  | .schedule base p _ => some (.schedule base p .top)
  | .start args pc => some (.start args pc)
  | .ready _ .test => none
  | .ready q pc => some (.ready q pc)
  | _ => none

/-- The outline of the control stack. -/
def outline (stack : List Act) : List Act := stack.filterMap Act.outline

/-- A function of activations that depends on their outline can be read off the outline. -/
theorem filterMap_outline {α : Type} {f : Act → Option α} (same : ∀ act : Act, act.outline.bind f = f act)
    (stack : List Act) : (outline stack).filterMap f = stack.filterMap f := by
  rw [outline, List.filterMap_filterMap]
  exact congrArg (List.filterMap · stack) (funext same)

/-- What the scheduler works on in the global variables, with the process records as wholes. -/
def Globals.core (g : Globals) :=
  (g.mem, g.readyQ, g.priorityMask, g.current, g.proc, g.log)

/-- The second stack and global variables differ from the first ones only in what the scheduler
does not work on. -/
structure Quiet (stack : List Act) (g : Globals) (stack' : List Act) (g' : Globals) : Prop where
  /-- The outline of the stack is the same. -/
  outline : outline stack' = outline stack
  /-- The allocator and the links. -/
  mem : g'.mem = g.mem
  /-- The ready queues. -/
  readyQ : g'.readyQ = g.readyQ
  /-- The priority mask. -/
  mask : g'.priorityMask = g.priorityMask
  /-- The current process. -/
  current : g'.current = g.current
  /-- The scheduling states. -/
  state : ∀ p, (g'.proc p).state = (g.proc p).state
  /-- The priorities. -/
  pri : ∀ p, (g'.proc p).pri = (g.proc p).pri
  /-- The history has grown by quiet events. -/
  log : ∃ events, g'.log = events ++ g.log ∧ ∀ e ∈ events, e.quiet = true

namespace Quiet

variable {stack stack' stack'' : List Act} {g g' g'' : Globals}

/-- No process record and no event is involved. -/
theorem of_core (outline : Microcsp.outline stack' = Microcsp.outline stack)
    (core : g'.core = g.core) : Quiet stack g stack' g' := by
  simp only [Globals.core, Prod.mk.injEq] at core
  obtain ⟨mem, readyQ, mask, current, proc, log⟩ := core
  exact ⟨outline, mem, readyQ, mask, current, fun p => by rw [proc], fun p => by rw [proc],
    ⟨[], log, by simp⟩⟩

theorem trans (first : Quiet stack g stack' g') (second : Quiet stack' g' stack'' g'') :
    Quiet stack g stack'' g'' := by
  obtain ⟨early, begun, quiet⟩ := first.log
  obtain ⟨late, grown, quiet'⟩ := second.log
  exact ⟨second.outline.trans first.outline, second.mem.trans first.mem,
    second.readyQ.trans first.readyQ, second.mask.trans first.mask,
    second.current.trans first.current, fun p => (second.state p).trans (first.state p),
    fun p => (second.pri p).trans (first.pri p), late ++ early, by rw [grown, begun, List.append_assoc],
    fun e mem => (List.mem_append.mp mem).elim (quiet' e) (quiet e)⟩

/-- A quiet event. -/
theorem emit (stack : List Act) (g : Globals) (e : Event) (quiet : e.quiet = true) :
    Quiet stack g stack (g.emit e) :=
  ⟨rfl, rfl, rfl, rfl, rfl, fun _ => rfl, fun _ => rfl, [e], rfl, by simpa using quiet⟩

/-- A store of an ALT record. -/
theorem setAlt (quiet : Quiet stack g stack' g') (p : Addr) (alt : Alternation) :
    Quiet stack g stack' (g'.setAlt p alt) :=
  quiet.trans ⟨rfl, rfl, rfl, rfl, rfl, fun q => Globals.setAlt_state g' p q alt,
    fun q => Globals.setAlt_pri g' p q alt, [], rfl, by simp⟩

/-- What depends on the outline of the stack is the same. -/
theorem filterMap (quiet : Quiet stack g stack' g') {α : Type} {f : Act → Option α}
    (same : ∀ act : Act, act.outline.bind f = f act) : stack'.filterMap f = stack.filterMap f := by
  rw [← filterMap_outline same, quiet.outline, filterMap_outline same]

/-- So is what depends on events that are not quiet. -/
theorem of_log (quiet : Quiet stack g stack' g') {α : Type} (f : List Event → α)
    (same : ∀ e log, e.quiet = true → f (e :: log) = f log) : f g'.log = f g.log := by
  obtain ⟨events, grown, quiets⟩ := quiet.log
  rw [grown]
  clear grown
  induction events with
  | nil => rfl
  | cons e events ih =>
    obtain ⟨first, others⟩ := List.forall_mem_cons.mp quiets
    rw [List.cons_append, same e _ first]
    exact ih others

end Quiet

/-! ## The quiet steps -/

section Steps

variable {rest : List Act} {g : Globals}

/-- A return to the caller. -/
theorem quiet_ret {act : Act} (orderly : Orderly (act :: rest)) (idle : act.outline = none)
    {g' : Globals} (core : g'.core = g.core) :
    (Result.ret .unit g').All (Settled (Quiet (act :: rest) g)) rest := by
  rw [Result.all_ret, settled_of_not_queueing (orderly.caller _), returnTo_unit]
  refine Quiet.of_core ?_ core
  simp only [outline, List.filterMap_cons, idle]

/-- `enable_alt` -/
theorem execEnableAlt_quiet {p : Addr} {pc : EnablePc} (orderly : Orderly (.enableAlt p pc :: rest)) :
    (execEnableAlt p pc g).All (Settled (Quiet (.enableAlt p pc :: rest) g)) rest := by
  cases pc with
  | enter =>
    simp only [execEnableAlt]
    repeat' split
    all_goals first | exact Quiet.of_core rfl rfl | trivial
  | loop i k partner =>
    have visited : Quiet (.enableAlt p (.loop i k partner) :: rest) g
        (.enableAlt p (.loop i k partner) :: rest) (g.emit (.enabled p i)) := Quiet.emit _ _ _ rfl
    simp only [execEnableAlt]
    split
    · split
      · split
        · split
          · exact visited.trans (Quiet.of_core rfl rfl)
          · exact visited.trans (Quiet.of_core rfl rfl)
        · exact (visited.trans (Quiet.emit _ _ (.offer _ _) rfl)).trans (Quiet.of_core rfl rfl)
        · exact visited.trans (Quiet.of_core rfl rfl)
        · split
          · exact visited.trans (Quiet.of_core rfl rfl)
          · exact visited.trans (Quiet.of_core rfl rfl)
        · split
          · exact visited.trans (Quiet.of_core rfl rfl)
          · exact visited.trans (Quiet.of_core rfl rfl)
      · exact visited.trans (Quiet.of_core rfl rfl)
    · split
      · trivial
      · exact Quiet.of_core rfl rfl
  | insert i k t partner =>
    simp only [execEnableAlt]
    split
    · trivial
    · exact Quiet.of_core rfl rfl
  | done i k ready partner =>
    obtain ⟨base, under, rfl⟩ := (orderly.stacked.1 : Admitted (.enableAlt p) rest).caller_of_enableAlt
    refine Quiet.setAlt ?_ _ _
    exact Quiet.of_core rfl rfl

/-- `disable_alt` -/
theorem execDisableAlt_quiet {p : Addr} {pc : DisablePc}
    (orderly : Orderly (.disableAlt p pc :: rest)) :
    (execDisableAlt p pc g).All (Settled (Quiet (.disableAlt p pc :: rest) g)) rest := by
  obtain ⟨base, under, rfl⟩ :=
    (orderly.stacked.1 : Admitted (.disableAlt p) rest).caller_of_disableAlt
  cases pc with
  | enter => exact Quiet.of_core rfl rfl
  | loop i left partner =>
    cases left with
    | zero =>
      simp only [execDisableAlt]
      split
      · exact Quiet.of_core rfl rfl
      · exact Quiet.of_core rfl rfl
      · exact Quiet.of_core rfl rfl
    | succ left =>
      have visited : ∀ kind ready, Quiet
          (.disableAlt p (.loop i (left + 1) partner) :: .schedule base p .disabling :: under) g
          (.disableAlt p (.loop i (left + 1) partner) :: .schedule base p .disabling :: under)
          (g.emit (.visit p i kind ready)) := fun kind ready => Quiet.emit _ _ _ rfl
      simp only [execDisableAlt]
      split
      · trivial
      · split
        · split
          all_goals
            refine Quiet.setAlt ?_ _ _
            exact (visited _ _).trans (Quiet.of_core rfl rfl)
        · exact (visited _ _).trans (Quiet.of_core rfl rfl)
  | copy c dest len partner =>
    simp only [execDisableAlt]
    split
    · trivial
    · exact (Quiet.emit _ _ (.copy p c len _) rfl).trans (Quiet.of_core rfl rfl)
  | clear c partner => exact Quiet.of_core rfl rfl

/-- `handle_signal`, the call of `schedule` apart -/
theorem execSignal_quiet {intr : Nat} {saved : SigSet} {pc : SignalPc}
    (orderly : Orderly (.signal intr saved pc :: rest)) (other : ∀ previously, pc ≠ .handled previously) :
    (execSignal intr saved pc g).All (Settled (Quiet (.signal intr saved pc :: rest) g)) rest := by
  cases pc with
  | enter =>
    simp only [execSignal]
    split
    · exact Quiet.of_core rfl rfl
    · exact Quiet.of_core rfl rfl
    · exact Quiet.of_core rfl rfl
  | handled previously => exact absurd rfl (other previously)
  | scheduled previously => exact Quiet.of_core rfl rfl
  | leave => exact quiet_ret orderly rfl rfl

/-- The call of `readyProcessIfNecessary`. -/
theorem Quiet.enterReady {stack stack' : List Act} {g g' : Globals} (quiet : Quiet stack g stack' g')
    (q : Addr) : Quiet stack g stack' (enterReady g' q) :=
  quiet.trans ((Quiet.emit _ _ (.enter .readyProcessIfNecessary g'.masked) rfl).trans
    (Quiet.emit _ _ (.readied q) rfl))

/-- `handle_timeout_interrupt` -/
theorem execTimeoutHandler_quiet {pc : TimeoutPc} (orderly : Orderly (.timeoutHandler pc :: rest)) :
    (execTimeoutHandler pc g).All (Settled (Quiet (.timeoutHandler pc :: rest) g)) rest := by
  cases pc with
  | enter => exact Quiet.of_core rfl rfl
  | test now head =>
    simp only [execTimeoutHandler]
    split
    · split
      · exact Quiet.of_core rfl rfl
      · exact quiet_ret orderly rfl rfl
    · exact quiet_ret orderly rfl rfl
  | remove now t =>
    simp only [execTimeoutHandler, readyOrFault]
    split
    · trivial
    · split
      · trivial
      · refine Quiet.enterReady ?_ _
        exact Quiet.of_core rfl rfl
  | resume now => exact Quiet.of_core rfl rfl

/-- `user_interrupt_handler` -/
theorem execUserHandler_quiet {intrsrc : Nat} (orderly : Orderly (.userHandler intrsrc :: rest)) :
    (execUserHandler intrsrc g).All (Settled (Quiet (.userHandler intrsrc :: rest) g)) rest := by
  simp only [execUserHandler]
  split
  · exact quiet_ret orderly rfl rfl
  · split
    · split
      · exact quiet_ret orderly rfl rfl
      · refine Quiet.enterReady ?_ _
        exact Quiet.of_core rfl rfl
    · trivial

/-- The points of `schedule` whose steps are quiet. -/
def SchedulePc.calm : SchedulePc → Bool
  | .dispatch .initial | .dispatch .quiescent | .initial | .enabled _ _ | .disabled _ | .execute _
  | .finish => false
  | _ => true

/-- `schedule` at these points -/
theorem execSchedule_quiet {base : Int} {p : Addr} {pc : SchedulePc} (calm : pc.calm = true) :
    (execSchedule base p pc g).All (Settled (Quiet (.schedule base p pc :: rest) g)) rest := by
  have quietly : ∀ stack, outline stack = outline (.schedule base p pc :: rest) →
      Quiet (.schedule base p pc :: rest) g stack (g.emit (.disable p)) := fun stack same =>
    (Quiet.emit _ _ (.disable p) rfl).trans (Quiet.of_core same rfl)
  cases pc with
  | top => exact Quiet.of_core rfl rfl
  | dispatch state =>
    cases state with
    | initial => cases calm
    | quiescent => cases calm
    | ready => exact quietly _ rfl
    | enabling => exact Quiet.of_core rfl rfl
    | waiting => exact Quiet.of_core rfl rfl
    | done => exact Quiet.of_core rfl rfl
  | branch state partner =>
    simp only [execSchedule]
    split
    · exact quietly _ rfl
    · exact Quiet.of_core rfl rfl
  | partner partner execute =>
    cases partner with
    | none => exact Quiet.of_core rfl rfl
    | some q =>
      refine Quiet.enterReady ?_ _
      exact Quiet.of_core rfl rfl
  | readying execute => exact Quiet.of_core rfl rfl
  | executing => exact Quiet.of_core rfl rfl
  | enabling => trivial
  | disabling => trivial
  | initial => cases calm
  | enabled found partner => cases calm
  | disabled partner => cases calm
  | execute execute => cases calm
  | finish => cases calm

/-- The activations whose steps are quiet. -/
def Act.calm : Act → Bool
  | .schedule _ _ pc => pc.calm
  | .signal _ _ (.handled _) => false
  | .signal _ _ _ | .rtc _ | .enableAlt _ _ | .disableAlt _ _ | .timeoutHandler _ | .userHandler _ =>
    true
  | _ => false

/-- Their steps are quiet. -/
theorem exec_quiet {act : Act} (calm : act.calm = true) (orderly : Orderly (act :: rest)) :
    (exec act g).All (Settled (Quiet (act :: rest) g)) rest := by
  cases act with
  | schedule base p pc => exact execSchedule_quiet calm
  | rtc p => trivial
  | enableAlt p pc => exact execEnableAlt_quiet orderly
  | disableAlt p pc => exact execDisableAlt_quiet orderly
  | signal intr saved pc =>
    refine execSignal_quiet orderly fun previously same => ?_
    subst same
    cases calm
  | timeoutHandler pc => exact execTimeoutHandler_quiet orderly
  | userHandler intrsrc => exact execUserHandler_quiet orderly
  | _ => cases calm

/-- The calls of application code that are quiet. -/
def Op.calm : Op → Act → Bool
  | .terminate, .rtc _ => false
  | .start _, _ => false
  | .ret, .main _ => false
  | _, _ => true

/-- They are. -/
theorem execUser_quiet {op : Op} {act : Act} (calm : op.calm act = true)
    (orderly : Orderly (act :: rest)) :
    (execUser op act g).All (Settled (Quiet (act :: rest) g)) rest := by
  unfold execUser
  split
  · split
    · cases op with
      | terminate => cases calm
      | start args => cases calm
      | ret => exact quiet_ret orderly rfl rfl
      | initAlt size =>
        simp only [userRtc]
        split
        · trivial
        · refine Quiet.setAlt ?_ _ _
          exact Quiet.of_core rfl rfl
      | initAltPri size =>
        simp only [userRtc]
        split
        · trivial
        · refine Quiet.setAlt ?_ _ _
          exact Quiet.of_core rfl rfl
      | initGuard i kind =>
        simp only [userRtc]
        split
        · trivial
        · refine Quiet.setAlt ?_ _ _
          exact Quiet.of_core rfl rfl
      | initTimeoutGuard i t time =>
        exact (Quiet.setAlt (Quiet.of_core rfl rfl) _ _).trans (Quiet.of_core rfl rfl)
      | setActive i active =>
        refine Quiet.setAlt ?_ _ _
        exact Quiet.of_core rfl rfl
      | assign v bytes => exact Quiet.of_core rfl rfl
      | connect x intrno =>
        simp only [userRtc]
        split
        · exact Quiet.of_core rfl rfl
        · trivial
      | disconnect intrno =>
        simp only [userRtc]
        split
        · exact Quiet.of_core rfl rfl
        · trivial
      | error why => trivial
    · trivial
  · cases op with
    | ret => cases calm
    | start args => cases calm
    | connect x intrno =>
      simp only [userMain]
      split
      · exact Quiet.of_core rfl rfl
      · trivial
    | _ => trivial
  · trivial

end Steps

/-- The delivery of an interrupt is quiet. -/
theorem quiet_interrupt (intr : Nat) (stack : List Act) (g : Globals) :
    Quiet stack g (.signal intr g.blocked .enter :: stack) g.disable := Quiet.of_core rfl rfl

/-- The clock is quiet. -/
theorem quiet_clock (t : Time) (stack : List Act) (g : Globals) :
    Quiet stack g stack { g with now := t } := Quiet.of_core rfl rfl

end Microcsp
