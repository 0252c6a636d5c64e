import Microcsp.Ranking

/-!
# Termination

`terminate` does no more than store a state, and `schedule` looks at it when the execution has
returned. Two things can overwrite it before: after the initial execution `schedule` stores another
state, and `readyProcessIfNecessary` makes ready whatever process it is given. In runs where neither
happens, a process that has terminated is not executed or enabled again, and is released.
-/

open Library

namespace Microcsp

/-- No execution and no ALT of the process has begun between a call of `terminate` by it and the
next allocation of its record. -/
def honoured : List Event → Addr → Bool
  | [], _ => true
  | .rtc q _ :: log, p => honoured log p && !(decide (q = p) && terminated log p)
  | .enable q :: log, p => honoured log p && !(decide (q = p) && terminated log p)
  | _ :: log, p => honoured log p

/-- `terminate` is not called in the initial execution. -/
def terminatesLater (label : Label) (s : State) : Bool :=
  match label, s.stack with
  | .user .terminate, .rtc _ :: .schedule _ _ .initial :: _ => false
  | _, _ => true

/-- No process is made ready that has terminated. -/
def readiesUnfinished (label : Label) (s : State) : Bool :=
  match label, s.stack with
  | .run, .ready q .test :: _ => decide ((s.g.proc q).state ≠ .done)
  | _, _ => true

/-- The conditions under which termination is honoured. -/
structure KeepsTermination (label : Label) (s : State) : Prop extends Regular label s where
  /-- `terminate` is not called too early. -/
  later : terminatesLater label s = true
  /-- A terminated process is left alone. -/
  unfinished : readiesUnfinished label s = true

/-- The process that `schedule` executes after an ALT, or whose execution has returned. -/
def Act.executes : Act → Option Addr
  | .schedule _ p .executing => some p
  | .schedule _ p .finish => some p
  | _ => none

/-- The process that `schedule` has taken and not yet executed in this pass. -/
def Act.precedes : Act → Option Addr
  | .schedule _ _ .executing => none
  | .schedule _ _ .finish => none
  | act => act.holds

/-- What termination is about. -/
structure Phases where
  /-- The processes that execute after an ALT or have returned from it. -/
  executing : List Addr
  /-- The processes in progress that do not. -/
  preceding : List Addr
  /-- The scheduling states. -/
  state : Addr → PState
  /-- The records that are allocated. -/
  allocated : Addr → Bool
  /-- The processes that have terminated. -/
  terminated : Addr → Bool
  /-- The processes whose termination was honoured so far. -/
  honoured : Addr → Bool

/-- What termination is about in a state of the machine. -/
def phases (stack : List Act) (g : Globals) : Phases where
  executing := stack.filterMap Act.executes
  preceding := stack.filterMap Act.precedes
  state p := (g.proc p).state
  allocated := allocated g.log
  terminated := terminated g.log
  honoured := honoured g.log

namespace Phases

/-- The process has terminated and is not released yet. -/
def doomed (v : Phases) (p : Addr) : Prop := v.allocated p = true ∧ v.terminated p = true

/-- The invariant: a process that has terminated and is not released is in its last execution, and
its state says so. -/
structure Ok (v : Phases) : Prop where
  /-- The state stays. -/
  done : ∀ p, v.doomed p → v.state p = .done
  /-- The process is in progress. -/
  executing : ∀ p, v.doomed p → p ∈ v.executing
  /-- It is in no other phase. -/
  last : ∀ p, v.doomed p → p ∉ v.preceding
  /-- No execution or ALT was begun. -/
  honoured : ∀ p, v.honoured p = true

/-- A change to a process that is not doomed. -/
theorem Ok.change {v v' : Phases} (ok : v.Ok) (p : Addr) (spared : ¬ v'.doomed p)
    (others : ∀ q, q ≠ p → (v'.doomed q → v.doomed q) ∧ v'.state q = v.state q ∧
      (q ∈ v.executing → q ∈ v'.executing) ∧ (q ∈ v'.preceding → q ∈ v.preceding))
    (honoured : ∀ q, v'.honoured q = true) : v'.Ok := by
  have other : ∀ q, v'.doomed q → q ≠ p := fun q doomed same => spared (same ▸ doomed)
  constructor
  · intro q doomed
    obtain ⟨was, state, -, -⟩ := others q (other q doomed)
    rw [state]
    exact ok.done q (was doomed)
  · intro q doomed
    obtain ⟨was, -, executing, -⟩ := others q (other q doomed)
    exact executing (ok.executing q (was doomed))
  · intro q doomed preceding
    obtain ⟨was, -, -, before⟩ := others q (other q doomed)
    exact ok.last q (was doomed) (before preceding)
  · exact honoured

end Phases

/-- The invariant. -/
def TerminationInv (stack : List Act) (g : Globals) : Prop := (phases stack g).Ok

section Steps

variable {rest : List Act} {g : Globals}

/-- Nothing termination is about has changed. -/
theorem TerminationInv.silent {stack stack' : List Act} {g g' : Globals}
    (inv : TerminationInv stack g) (same : phases stack' g' = phases stack g) :
    TerminationInv stack' g' := by
  unfold TerminationInv
  rw [same]
  exact inv

/-- The activation is in no phase of another process. -/
def Act.only (p : Addr) (act : Act) : Prop :=
  (∀ q, act.executes = some q → q = p) ∧ ∀ q, act.precedes = some q → q = p

/-- The phases depend on the outline. -/
theorem Act.executes_outline (act : Act) : act.outline.bind Act.executes = act.executes := by
  cases act with
  | schedule base p pc => cases pc <;> rfl
  | ready q pc => cases pc <;> rfl
  | _ => rfl

theorem Act.precedes_outline (act : Act) : act.outline.bind Act.precedes = act.precedes := by
  cases act with
  | schedule base p pc => cases pc <;> rfl
  | ready q pc => cases pc <;> rfl
  | _ => rfl

/-- Quiet steps keep the invariant. -/
theorem TerminationInv.quiet {stack stack' : List Act} {g g' : Globals}
    (inv : TerminationInv stack g) (step : Quiet stack g stack' g') : TerminationInv stack' g' := by
  refine inv.silent ?_
  have allocated := step.of_log allocated fun e log quiet => by cases e <;> first | rfl | cases quiet
  have terminated := step.of_log terminated fun e log quiet => by
    cases e <;> first | rfl | cases quiet
  have honoured := step.of_log honoured fun e log quiet => by cases e <;> first | rfl | cases quiet
  simp only [phases, step.filterMap Act.executes_outline, step.filterMap Act.precedes_outline,
    step.state, allocated, terminated, honoured]

/-- The innermost activation of `schedule` makes a step for its process, which is not doomed. -/
theorem TerminationInv.frame {act act' : Act} {g' : Globals} {p : Addr}
    (inv : TerminationInv (act :: rest) g) (before : act.only p) (after : act'.only p)
    (spared : ¬ (phases (act' :: rest) g').doomed p)
    (doomed : ∀ q, q ≠ p → (phases rest g').doomed q → (phases rest g).doomed q)
    (state : ∀ q, q ≠ p → (g'.proc q).state = (g.proc q).state)
    (honoured : ∀ q, honoured g'.log q = true) : TerminationInv (act' :: rest) g' := by
  refine inv.change p spared (fun q other => ⟨doomed q other, state q other, ?_, ?_⟩) honoured
  · simp only [phases, List.mem_filterMap, List.mem_cons]
    rintro ⟨a, rfl | mem, executes⟩
    · exact absurd (before.1 q executes) other
    · exact ⟨a, Or.inr mem, executes⟩
  · simp only [phases, List.mem_filterMap, List.mem_cons]
    rintro ⟨a, rfl | mem, precedes⟩
    · exact absurd (after.2 q precedes) other
    · exact ⟨a, Or.inr mem, precedes⟩

/-- A process that precedes its execution is not doomed. -/
theorem TerminationInv.spared {act : Act} {p : Addr} (inv : TerminationInv (act :: rest) g)
    (precedes : act.precedes = some p) : ¬ (phases (act :: rest) g).doomed p := fun doomed =>
  inv.last p doomed (List.mem_filterMap.mpr ⟨act, List.mem_cons_self, precedes⟩)

/-- A process in progress that precedes its execution has not terminated. -/
theorem TerminationInv.not_terminated {act : Act} {p : Addr} (inv : TerminationInv (act :: rest) g)
    (holds : Holds (act :: rest) g) (precedes : act.precedes = some p) (own : act.holds = some p) :
    terminated g.log p = false := by
  have known := holds.held p (List.mem_filterMap.mpr ⟨act, List.mem_cons_self, own⟩)
  simp only [initialised, Bool.and_eq_true] at known
  by_contra atop
  exact inv.spared precedes ⟨known.1, (Bool.not_eq_false _).mp atop⟩

/-- An execution or an ALT that begins before termination is in order. -/
theorem honoured_begin {log : List Event} {p : Addr} {e : Event}
    (begins : e = .enable p ∨ ∃ branch, e = .rtc p branch)
    (before : ∀ q, honoured log q = true) (going : terminated log p = false) (q : Addr) :
    honoured (e :: log) q = true := by
  have either : honoured (e :: log) q = (honoured log q && !(decide (p = q) && terminated log q)) := by
    rcases begins with rfl | ⟨branch, rfl⟩ <;> rfl
  rw [either, before q]
  by_cases same : p = q
  · subst same
    simp [going]
  · simp [same]

theorem execSchedule_termination {base : Int} {p : Addr} {pc : SchedulePc}
    (holds : Holds (.schedule base p pc :: rest) g)
    (inv : TerminationInv (.schedule base p pc :: rest) g) :
    (execSchedule base p pc g).All (Settled TerminationInv) rest := by
  have only : ∀ pc, (Act.schedule base p pc).only p := fun pc => by
    constructor <;> intro q same <;> cases pc <;> simp_all [Act.executes, Act.precedes, Act.holds]
  have stored : ∀ (state : PState) q, q ≠ p → ((g.setState p state).proc q).state =
      (g.proc q).state := fun state q other => by rw [Globals.setState_of_ne g state other]
  have calm : pc.calm = true →
      (execSchedule base p pc g).All (Settled TerminationInv) rest := fun calm =>
    (execSchedule_quiet calm).imp fun _ _ settled => settled.imp fun _ _ step => inv.quiet step
  cases pc with
  | dispatch state =>
    cases state with
    | initial =>
      have going := inv.not_terminated holds rfl rfl
      have begun : TerminationInv (.schedule base p .initial :: rest) (g.emit (.rtc p none)) :=
        inv.frame (only _) (only _) (inv.spared rfl) (fun _ _ doomed => doomed) (fun _ _ => rfl)
          (honoured_begin (Or.inr ⟨none, rfl⟩) inv.honoured going)
      exact begun.silent rfl
    | quiescent =>
      have going := inv.not_terminated holds rfl rfl
      have begun : TerminationInv (.schedule base p .enabling :: rest)
          ((g.setState p .enabling).emit (.enable p)) :=
        inv.frame (only _) (only _) (inv.spared rfl) (fun _ _ doomed => doomed) (stored _)
          (honoured_begin (Or.inl rfl) inv.honoured going)
      exact begun.silent rfl
    | _ => exact calm rfl
  | initial =>
    exact inv.frame (only _) (only .finish) (inv.spared rfl) (fun _ _ doomed => doomed) (stored _)
      inv.honoured
  | enabled found partner =>
    exact inv.frame (only _) (only (.branch _ _)) (inv.spared rfl) (fun _ _ doomed => doomed)
      (stored _) inv.honoured
  | disabled partner =>
    exact inv.frame (only _) (only (.partner _ _)) (inv.spared rfl) (fun _ _ doomed => doomed)
      (stored _) inv.honoured
  | execute execute =>
    cases execute with
    | false =>
      exact inv.frame (only _) (only .finish) (inv.spared rfl) (fun _ _ doomed => doomed)
        (fun _ _ => rfl) inv.honoured
    | true =>
      have going := inv.not_terminated holds rfl rfl
      have begun : TerminationInv (.schedule base p .executing :: rest) (g.emit (.rtc p
          (some ((g.proc p).alt.index, ((g.proc p).alt.guards (g.proc p).alt.index).kind)))) :=
        inv.frame (only _) (only _) (inv.spared rfl) (fun _ _ doomed => doomed) (fun _ _ => rfl)
          (honoured_begin (Or.inr ⟨_, rfl⟩) inv.honoured going)
      exact begun.silent rfl
  | finish =>
    have idle : (Act.select base .top).only p := by
      constructor <;> intro q same <;> cases same
    have alive : (g.proc p).state ≠ .done → ¬ (phases (.schedule base p .finish :: rest) g).doomed p :=
      fun other doomed => other (inv.done p doomed)
    simp only [execSchedule, Globals.disable_proc]
    cases state : (g.proc p).state with
    | done =>
      refine inv.frame (only _) idle ?_ ?_ (fun _ _ => rfl) inv.honoured
      · rintro ⟨taken, -⟩
        simp [phases, allocated] at taken
      · rintro q other ⟨taken, atop⟩
        refine ⟨?_, atop⟩
        simpa [phases, allocated, Ne.symm other] using taken
    | waiting =>
      exact inv.frame (only _) idle (alive (by simp [state])) (fun _ _ doomed => doomed)
        (fun _ _ => rfl) inv.honoured
    | _ =>
      exact inv.frame (only _) (only .top) (alive (by simp [state])) (fun _ _ doomed => doomed)
        (fun _ _ => rfl) inv.honoured
  | _ => exact calm rfl

/-- A process in one of the phases is in progress. -/
theorem Act.holds_of_executes {act : Act} {p : Addr} (executes : act.executes = some p) :
    act.holds = some p := by
  unfold Act.executes at executes
  split at executes <;> first | exact executes | cases executes

theorem Act.holds_of_precedes {act : Act} {p : Addr} (precedes : act.precedes = some p) :
    act.holds = some p := by
  unfold Act.precedes at precedes
  split at precedes <;> first | exact precedes | cases precedes

/-- A process that is doomed is in progress. -/
theorem TerminationInv.held {stack : List Act} {p : Addr} (inv : TerminationInv stack g)
    (doomed : (phases stack g).doomed p) : p ∈ stack.filterMap Act.holds := by
  obtain ⟨act, mem, executes⟩ := List.mem_filterMap.mp (inv.executing p doomed)
  exact List.mem_filterMap.mpr ⟨act, mem, Act.holds_of_executes executes⟩

/-- An activation that holds no process is in no phase. -/
theorem Act.only_of_idle {act : Act} (idle : act.holds = none) (p : Addr) : act.only p := by
  constructor <;> intro q same
  · rw [Act.holds_of_executes same] at idle
    cases idle
  · rw [Act.holds_of_precedes same] at idle
    cases idle

/-- A record that is allocated anew holds no doomed process. -/
theorem TerminationInv.alloc {act act' : Act} {g' : Globals} {record : Addr}
    (inv : TerminationInv (act :: rest) g) (before : act.holds = none) (after : act'.holds = none)
    (proc : g'.proc = g.proc) (log : g'.log = .alloc record :: g.log) :
    TerminationInv (act' :: rest) g' := by
  refine inv.frame (act.only_of_idle before record) (act'.only_of_idle after record) ?_ ?_ ?_ ?_
  · rintro ⟨-, atop⟩
    simp [phases, log, terminated] at atop
  · rintro q other ⟨taken, atop⟩
    simp only [phases, log, allocated, terminated, if_neg (Ne.symm other)] at taken atop
    exact ⟨taken, atop⟩
  · intro q _
    rw [proc]
  · intro q
    rw [log]
    exact inv.honoured q

/-- A record that is filled holds no doomed process. -/
theorem TerminationInv.fill {act act' : Act} {g' : Globals} {record : Addr}
    (inv : TerminationInv (act :: rest) g) (holds : Holds (act :: rest) g)
    (reserves : act.reserves = some record) (before : act.holds = none) (after : act'.holds = none)
    (stored : ∀ q, q ≠ record → g'.proc q = g.proc q) {masked : Bool}
    (log : g'.log = .enter .append masked :: g.log) :
    TerminationInv (act' :: rest) g' := by
  have reserved : record ∈ (act :: rest).filterMap Act.reserves :=
    List.mem_filterMap.mpr ⟨act, List.mem_cons_self, reserves⟩
  refine inv.frame (act.only_of_idle before record) (act'.only_of_idle after record) ?_ ?_ ?_ ?_
  · intro doomed
    have known := holds.held record (inv.held (by rwa [Phases.doomed, phases, log] at doomed))
    simp [initialised, reserved] at known
  · intro q _ doomed
    rwa [Phases.doomed, phases, log] at doomed
  · intro q other
    rw [stored q other]
  · intro q
    rw [log]
    exact inv.honoured q

theorem execMain_termination {pc : MainPc} (orderly : Orderly (.main pc :: rest))
    (holds : Holds (.main pc :: rest) g) (inv : TerminationInv (.main pc :: rest) g) :
    (execMain pc g).All (Settled TerminationInv) rest := by
  have sound := orderly.sound _ List.mem_cons_self
  cases pc with
  | memoryInit arena memlen => exact sound.elim
  | schedInit => exact sound.elim
  | idleAlloc =>
    simp only [execMain]
    split
    · split
      · trivial
      · exact inv.alloc rfl rfl rfl rfl
    · trivial
    · trivial
  | idleFill index record =>
    simp only [execMain, Result.all_call, Settled, Globals.appendFrom, Globals.appendLink_eq]
    exact inv.fill holds rfl rfl rfl (fun q other => Globals.setProc_of_ne g _ other) rfl
  | timerInit => exact inv.silent rfl
  | user => trivial
  | running => trivial

theorem execStart_termination {args : StartArgs} {pc : StartPc}
    (orderly : Orderly (.start args pc :: rest)) (holds : Holds (.start args pc :: rest) g)
    (inv : TerminationInv (.start args pc :: rest) g) :
    (execStart args pc g).All (Settled TerminationInv) rest := by
  cases pc with
  | check =>
    simp only [execStart]
    split
    · trivial
    · split
      · exact inv.silent rfl
      · trivial
      · trivial
  | alloc index =>
    simp only [execStart]
    split
    · trivial
    · exact inv.alloc rfl rfl rfl rfl
  | fill index record =>
    simp only [execStart, Result.all_call, Settled, Globals.appendFrom, Globals.appendLink_eq]
    exact inv.fill holds rfl rfl rfl (fun q other => Globals.setProc_of_ne g _ other) rfl
  | appended =>
    rw [execStart, Result.all_ret, settled_of_not_queueing (orderly.caller _), returnTo_unit]
    exact inv.silent rfl

theorem execSelect_termination {base : Int} {pc : SelectPc}
    (orderly : Orderly (.select base pc :: rest)) (ranks : Ranks (.select base pc :: rest) g)
    (inv : TerminationInv (.select base pc :: rest) g) :
    (execSelect base pc g).All (Settled TerminationInv) rest := by
  cases pc with
  | top => exact inv.silent rfl
  | chosen highest =>
    simp only [execSelect]
    split
    · rw [Result.all_ret, settled_of_not_queueing (orderly.caller _), returnTo_unit]
      exact inv.silent rfl
    · rename_i above
      simp only [Result.all_call, Settled, Globals.takeFrom, Globals.takeHead_eq]
      cases head : (g.readyQ highest).head with
      | none =>
        simp only [Globals.enter_readyQ, head]
        exact inv.silent rfl
      | some p =>
        simp only [Globals.enter_readyQ, head]
        have idle := ranks.chosen_free (by omega) head
        have chosen : (Act.select base (.chosen highest)).only p := Act.only_of_idle rfl p
        have taken : (Act.select base (.took (some p))).only p := by
          constructor <;> intro q same <;> cases same
          rfl
        exact inv.frame chosen taken (fun doomed => idle (inv.held doomed))
          (fun _ _ doomed => doomed) (fun _ _ => rfl) inv.honoured
  | taking => trivial
  | took r =>
    cases r with
    | none => trivial
    | some p => exact inv.silent rfl

theorem execReady_termination {q : Addr} {pc : ReadyPc} (orderly : Orderly (.ready q pc :: rest))
    (unfinished : readiesUnfinished .run ⟨.ready q pc :: rest, g, none⟩ = true)
    (inv : TerminationInv (.ready q pc :: rest) g) :
    (execReady q pc g).All (Settled TerminationInv) rest := by
  have back : ∀ g, Settled TerminationInv rest g ↔ TerminationInv rest g := fun g =>
    settled_of_not_queueing (by simpa using orderly.caller .unit)
  cases pc with
  | test =>
    have spared : ¬ (phases (.ready q .test :: rest) g).doomed q := fun doomed =>
      of_decide_eq_true unfinished (inv.done q doomed)
    simp only [execReady]
    split
    · rw [Result.all_ret, returnTo_unit]
      refine (back _).mpr (@TerminationInv.silent (.ready q .test :: rest) _ _ _ ?_ rfl)
      exact inv.frame (Act.only_of_idle rfl q) (Act.only_of_idle rfl q) spared
        (fun _ _ doomed => doomed) (fun r other => by rw [Globals.setState_of_ne g _ other])
        inv.honoured
    · simp only [Result.all_call, Settled, Globals.appendFrom, Globals.appendLink_eq]
      exact inv.frame (Act.only_of_idle rfl q) (Act.only_of_idle rfl q) spared
        (fun _ _ doomed => doomed) (fun r other => by simp [Globals.setState_of_ne _ _ other])
        inv.honoured
  | appended =>
    simp only [execReady, callSchedule]
    split
    · trivial
    · split
      · exact inv.silent rfl
      · rw [Result.all_ret, returnTo_unit]
        exact (back _).mpr (inv.silent rfl)
  | scheduling prev =>
    rw [execReady, Result.all_ret, returnTo_unit]
    exact (back _).mpr (inv.silent rfl)

theorem exec_termination {act : Act} (other : queueing (act :: rest) = false)
    (unfinished : readiesUnfinished .run ⟨act :: rest, g, none⟩ = true) (ranks : Ranks (act :: rest) g)
    (inv : TerminationInv (act :: rest) g) : (exec act g).All (Settled TerminationInv) rest := by
  have orderly := ranks.orderly
  have holds := ranks.holds
  have calm : act.calm = true → (exec act g).All (Settled TerminationInv) rest := fun calm =>
    (exec_quiet calm orderly).imp fun _ _ settled => settled.imp fun _ _ step => inv.quiet step
  cases act with
  | main pc => exact execMain_termination orderly holds inv
  | select base pc => exact execSelect_termination orderly ranks inv
  | schedule base p pc => exact execSchedule_termination holds inv
  | take pri pc => cases other
  | append p pc => cases other
  | start args pc => exact execStart_termination orderly holds inv
  | ready q pc => exact execReady_termination orderly unfinished inv
  | signal intr saved pc =>
    cases pc with
    | handled previously =>
      simp only [exec, execSignal, callScheduleAtCurrent, callSchedule]
      repeat' split
      all_goals first | exact inv.silent rfl | trivial
    | _ => exact calm rfl
  | _ => exact calm rfl

/-- `terminate` in an execution after an ALT. -/
theorem TerminationInv.terminate {base : Int} {p : Addr} {under : List Act}
    (holds : Holds (.rtc p :: .schedule base p .executing :: under) g)
    (inv : TerminationInv (.rtc p :: .schedule base p .executing :: under) g) :
    TerminationInv (.rtc p :: .schedule base p .executing :: under)
      ((g.setState p .done).emit (.terminate p)) := by
  have elsewhere : p ∉ under.filterMap Act.holds := (List.nodup_cons.mp holds.single).1
  have others : ∀ q, q ≠ p →
      (phases (.rtc p :: .schedule base p .executing :: under)
        ((g.setState p .done).emit (.terminate p))).doomed q →
      (phases (.rtc p :: .schedule base p .executing :: under) g).doomed q := by
    rintro q other ⟨taken, atop⟩
    refine ⟨taken, ?_⟩
    simpa [phases, terminated, Ne.symm other] using atop
  constructor
  · intro q doomed
    by_cases same : q = p
    · subst same
      simp [phases]
    · have state := inv.done q (others q same doomed)
      simpa [phases, Globals.setState_of_ne g _ same] using state
  · intro q doomed
    by_cases same : q = p
    · subst same
      exact List.mem_cons_self
    · exact inv.executing q (others q same doomed)
  · intro q doomed
    by_cases same : q = p
    · subst same
      intro preceding
      change q ∈ under.filterMap Act.precedes at preceding
      obtain ⟨act, mem, precedes⟩ := List.mem_filterMap.mp preceding
      exact elsewhere (List.mem_filterMap.mpr ⟨act, mem, Act.holds_of_precedes precedes⟩)
    · exact inv.last q (others q same doomed)
  · exact inv.honoured

theorem execUser_termination {op : Op} {act : Act} (ranks : Ranks (act :: rest) g)
    (later : terminatesLater (.user op) ⟨act :: rest, g, none⟩ = true)
    (inv : TerminationInv (act :: rest) g) :
    (execUser op act g).All (Settled TerminationInv) rest := by
  have orderly := ranks.orderly
  have calm : op.calm act = true → (execUser op act g).All (Settled TerminationInv) rest :=
    fun calm => (execUser_quiet calm orderly).imp fun _ _ settled =>
      settled.imp fun _ _ step => inv.quiet step
  cases op with
  | terminate =>
    cases act with
    | rtc p =>
      obtain ⟨base, under, rfl | rfl⟩ := (orderly.stacked.1 : Admitted (.rtc p) rest).caller_of_rtc
      · cases later
      · have current : g.current = some p := ranks.coherent.1
        simp only [execUser, userRtc, current]
        split
        · exact inv.terminate ranks.holds
        · trivial
    | _ => exact calm rfl
  | start args =>
    unfold execUser
    split
    · split
      · exact inv.silent rfl
      · trivial
    · exact inv.silent rfl
    · trivial
  | ret =>
    cases act with
    | main pc =>
      cases pc with
      | user => exact inv.silent rfl
      | _ => trivial
    | _ => exact calm rfl
  | _ => exact calm rfl

end Steps

/-- The invariant is kept. -/
theorem terminationInv_kept :
    Kept KeepsTermination (fun stack g => Ranked stack g ∧ Settled TerminationInv stack g) :=
  Kept.over_ranks (fun _ _ keeps _ _ => keeps.toRegular)
    (fun _ _ _ other keeps ranks inv => exec_termination other keeps.unfinished ranks inv)
    (fun _ _ _ _ keeps ranks inv => execUser_termination ranks keeps.later inv)
    (fun intr stack g _ _ inv => inv.quiet (quiet_interrupt intr stack g))
    (fun t stack g inv => inv.quiet (quiet_clock t stack g))

/-- What `terminate` promises: nothing of the process begins again, and when control comes back to
`schedule`, its next steps release the record. -/
structure TerminationHonoured (s : State) : Prop where
  /-- No execution and no ALT begins. -/
  ends : ∀ p, honoured s.g.log p = true
  /-- The record is released. -/
  released : ∀ base p pc rest, s.stack = .schedule base p pc :: rest → s.stopped = none →
    terminated s.g.log p = true →
    ∃ n ≤ 2, ∃ s', execute step (runs n) s = some s' ∧ s'.g.log = .release p :: s.g.log

/-- The end of a queue operation begins nothing. -/
theorem honoured_of_settled {stack : List Act} {g : Globals} (settled : Settled TerminationInv stack g)
    (p : Addr) : honoured g.log p = true := by
  unfold Settled at settled
  split at settled
  · rename_i pri pc rest
    have after := settled.honoured p
    have log : (g.takeFrom pri pc).2.log = g.log ∨
        ∃ q, (g.takeFrom pri pc).2.log = .took q :: g.log := g.takeFrom_log pri pc
    rcases log with same | ⟨q, grown⟩
    · simpa [phases, same] using after
    · simpa [phases, grown, honoured] using after
  · rename_i q pc rest
    have after := settled.honoured p
    simpa [phases, g.appendFrom_log q pc] using after
  · exact settled.honoured p

/-- In every run under the conditions termination is honoured. -/
theorem termination_honoured {first last : State} (booted : Booted first)
    (run : Run step KeepsTermination first last) :
    TerminationHonoured last := by
  have base : ∀ arena memlen g handlers, Pristine g →
      Ranked [.main .idleAlloc] { g with
        mem := g.mem.memoryInit arena memlen, interruptHandler := handlers } ∧
      Settled TerminationInv [.main .idleAlloc] { g with
        mem := g.mem.memoryInit arena memlen, interruptHandler := handlers } := by
    refine fun arena memlen g handlers pristine => ⟨ranked_start pristine, ?_⟩
    have none : ∀ p, terminated g.log p = false := fun p => by rw [pristine.log]; rfl
    constructor
    case honoured =>
      intro p
      simp [phases, pristine.log, honoured]
    all_goals
      rintro p ⟨-, atop⟩
      simp [phases, none] at atop
  rcases terminationInv_kept.from_sched_init base booted run with starting | ⟨ranked, settled⟩
  · constructor
    · intro p
      rw [starting.log]
      rfl
    · intro base p pc rest same
      obtain ⟨main, alone⟩ := starting.alone
      rw [alone] at same
      cases same
  · refine ⟨honoured_of_settled settled, ?_⟩
    intro base p pc rest same running atop
    obtain ⟨stack, g, stopped⟩ := last
    obtain rfl : stack = .schedule base p pc :: rest := same
    obtain rfl : stopped = none := running
    have holds : Holds (.schedule base p pc :: rest) g := (ranked.ranks rfl).holds
    have inv : TerminationInv (.schedule base p pc :: rest) g := settled
    have known := holds.held p List.mem_cons_self
    simp only [initialised, Bool.and_eq_true] at known
    have doomed : (phases (.schedule base p pc :: rest) g).doomed p := ⟨known.1, atop⟩
    have state : (g.proc p).state = .done := inv.done p doomed
    have last : (Act.schedule base p pc).precedes ≠ some p := fun precedes =>
      inv.spared precedes doomed
    have release : ∃ s', step .run ⟨.schedule base p .finish :: rest, g, none⟩ = some s' ∧
        s'.g.log = .release p :: g.log := by
      simp [step, exec, execSchedule, state, Result.apply]
    obtain ⟨s', stepped, log⟩ := release
    cases pc with
    | finish => exact ⟨1, by decide, s', by simp [runs, execute, stepped], log⟩
    | executing =>
      refine ⟨2, by decide, s', ?_, log⟩
      have first : step .run ⟨.schedule base p .executing :: rest, g, none⟩ =
          some ⟨.schedule base p .finish :: rest, g, none⟩ := rfl
      simp [runs, execute, first, stepped]
    | _ => exact absurd rfl last

/-- The process is executed twice, terminates and is released. -/
theorem termination_honoured_after_skip :
    ∃ last : State, TerminationHonoured last ∧ terminated last.g.log 1024 = true ∧
      allocated last.g.log 1024 = false := by
  obtain ⟨last, run, checked⟩ := exists_run_of_executeUnder skipThenTerminate
    (fun s : State => terminated s.g.log 1024 && !allocated s.g.log 1024)
    (by decide +kernel : (executeUnder step (fun label s => guarded label s &&
      preemptsNothing label s && readiesLive label s && releasesAlone label s &&
      terminatesLater label s && readiesUnfinished label s) skipThenTerminate
      (zeroBoot 1000)).any _ = true)
  simp only [Bool.and_eq_true, Bool.not_eq_true'] at checked
  refine ⟨last, termination_honoured (zeroBoot_booted 1000) (run.mono fun label s keeps => ?_),
    checked.1, checked.2⟩
  simp only [Bool.and_eq_true] at keeps
  obtain ⟨⟨⟨⟨⟨guard, preempts⟩, readies⟩, releases⟩, later⟩, unfinished⟩ := keeps
  exact ⟨⟨guard, preempts, readies, releasesUnqueued_of_alone releases⟩, later, unfinished⟩

/-- `empty.c`: the process terminates in its initial execution, and its ALT is enabled. -/
theorem termination_not_always_honoured : ¬ ∀ first last, Booted first →
    Run step Always first last → TerminationHonoured last := by
  intro always
  obtain ⟨last, run, wrong⟩ := exists_run_of_execute
    (runs 11 ++ [.user (startWith ⟨.skip, false⟩ 1)] ++ runs 10 ++ [.user .ret] ++ runs 10 ++
      [.user .terminate, .user .ret] ++ runs 4)
    (fun s : State => !honoured s.g.log 1024)
    (by decide +kernel : (execute step _ (zeroBoot 1000)).any _ = true)
  have holds := (always _ last (zeroBoot_booted 1000) run).ends 1024
  rw [holds] at wrong
  cases wrong

end Microcsp
