import Microcsp.Idle
import Microcsp.Ownership

/-!
# What the state of a process says

In a run that keeps the ready queues the state of a process says where it is: in which part of
`schedule` it is in progress, in its ready queue, or waiting in its ALT. So states change only as the
comments on `PROC_INITIAL` to `PROC_DONE` have it, but for a process that terminates in its initial
execution.
-/

open Library

namespace Microcsp

/-! ## Stages -/

/-- The states of the process at a point of `schedule`. -/
def SchedulePc.stages : SchedulePc → List PState
  | .top => [.initial, .quiescent, .ready]
  | .dispatch .initial => [.initial]
  | .dispatch .quiescent => [.quiescent]
  | .dispatch .ready => [.ready]
  | .dispatch _ => []
  | .initial => [.initial, .done]
  | .enabling | .enabled _ _ => [.enabling, .ready]
  | .branch .waiting _ => [.waiting]
  | .branch .ready _ => [.ready]
  | .branch _ _ => []
  | .disabling | .disabled _ => [.ready]
  | .partner _ executes | .readying executes | .execute executes =>
    if executes then [.quiescent] else [.waiting]
  | .executing => [.quiescent, .done]
  | .finish => [.quiescent, .waiting, .done]

/-- A process that is enabling may be made ready wherever it is. -/
theorem SchedulePc.ready_mem_stages {pc : SchedulePc} (enabling : .enabling ∈ pc.stages) :
    .ready ∈ pc.stages := by
  revert enabling
  cases pc with
  | dispatch state => cases state <;> simp [stages]
  | branch state partner => cases state <;> simp [stages]
  | partner partner executes => cases executes <;> simp [stages]
  | readying executes => cases executes <;> simp [stages]
  | execute executes => cases executes <;> simp [stages]
  | _ => simp [stages]

/-- The process of an activation is in a state that goes with the point it has reached. -/
def Act.Staged (g : Globals) : Act → Prop
  | .schedule _ p pc => (g.proc p).state ∈ pc.stages
  | .select _ (.took (some p)) => (g.proc p).state = .initial ∨ (g.proc p).state = .ready
  | _ => True

/-- So are those of all activations. -/
def Staged (stack : List Act) (g : Globals) : Prop := ∀ act ∈ stack, act.Staged g

section General

variable {act : Act} {stack rest : List Act} {g g' : Globals} {p : Addr}

/-- A process stays in its state, or is made ready while it is enabling. -/
def Stays (g g' : Globals) (p : Addr) : Prop :=
  (g'.proc p).state = (g.proc p).state ∨ (g.proc p).state = .enabling ∧ (g'.proc p).state = .ready

theorem Act.Staged.keep (staged : act.Staged g) (stays : ∀ p, act.holds = some p → Stays g g' p) :
    act.Staged g' := by
  cases act with
  | schedule base p pc =>
    have staged : (g.proc p).state ∈ pc.stages := staged
    change (g'.proc p).state ∈ pc.stages
    rcases stays p rfl with same | ⟨was, now⟩
    · rw [same]
      exact staged
    · rw [was] at staged
      rw [now]
      exact SchedulePc.ready_mem_stages staged
  | select base pc =>
    cases pc with
    | took r =>
      cases r with
      | none => trivial
      | some p =>
        have staged : (g.proc p).state = .initial ∨ (g.proc p).state = .ready := staged
        change (g'.proc p).state = .initial ∨ (g'.proc p).state = .ready
        rcases stays p rfl with same | ⟨-, now⟩
        · rw [same]
          exact staged
        · exact Or.inr now
    | _ => trivial
  | _ => trivial

theorem Staged.keep (staged : Staged stack g)
    (stays : ∀ p ∈ stack.filterMap Act.holds, Stays g g' p) : Staged stack g' := fun act mem =>
  (staged act mem).keep fun p holds => stays p (List.mem_filterMap.mpr ⟨act, mem, holds⟩)

/-- States are the same. -/
theorem Staged.congr (staged : Staged stack g) (same : ∀ p, (g'.proc p).state = (g.proc p).state) :
    Staged stack g' := staged.keep fun p _ => Or.inl (same p)

theorem Staged.cons (here : act.Staged g) (below : Staged rest g) : Staged (act :: rest) g :=
  List.forall_mem_cons.mpr ⟨here, below⟩

theorem Staged.below (staged : Staged (act :: rest) g) : Staged rest g :=
  fun a mem => staged a (List.mem_cons_of_mem _ mem)

/-- A caller goes on with what is returned, but for that of `take`. -/
theorem Staged.returnTo (staged : Staged rest g) {v : Value}
    (other : v ≠ .unit → ∀ base under, rest ≠ .select base .taking :: under) :
    Staged (returnTo v rest) g := by
  by_cases unit : v = .unit
  · rw [unit, returnTo_unit]
    exact staged
  cases rest with
  | nil => exact staged
  | cons caller under =>
    refine .cons ?_ staged.below
    have here := staged caller List.mem_cons_self
    unfold Act.resume
    split
    · exact absurd rfl (other unit _ _)
    · exact here
    · exact here
    · exact here

/-- `append` changes no state. -/
theorem Staged.settled (staged : Staged stack g)
    (other : ∀ pri pc under, stack ≠ .take pri pc :: under) : Settled Staged stack g := by
  unfold Settled
  split
  · exact absurd rfl (other _ _ _)
  · rename_i p pc under
    have same := appendFrom_store (g := g) p pc
    simp only [Prod.mk.injEq] at same
    exact staged.below.congr fun q => by rw [same.1]
  · exact staged

end General

section Steps

variable {act : Act} {rest : List Act} {g : Globals}

/-- Only `take` and `handle_signal` stand over a caller of `take`. -/
theorem Stacked.not_taking (stacked : Stacked (act :: rest)) (take : act.callee ≠ .take)
    (signal : act.callee ≠ .signal) (base : Int) (under : List Act) :
    rest ≠ .select base .taking :: under := by
  rintro rfl
  have atop : Act.admits (.select base .taking) act.callee := stacked.1
  cases act with
  | take pri pc => exact take rfl
  | signal intr saved pc => exact signal rfl
  | _ => exact atop.elim

/-- A step leads to a stage, alone on the stack. -/
theorem exec_stage (staged : act.Staged g) : (exec act g).All Staged [] := by
  have one : ∀ {act : Act} {g : Globals}, act.Staged g → Staged [act] g := fun staged =>
    List.forall_mem_singleton.mpr staged
  have two : ∀ {act callee : Act} {g : Globals}, callee.Staged g → act.Staged g →
      Staged [callee, act] g := fun above staged => .cons above (List.forall_mem_singleton.mpr staged)
  cases act with
  | schedule base p pc =>
    have staged : (g.proc p).state ∈ pc.stages := staged
    cases pc with
    | top =>
      refine one ?_
      change (g.proc p).state ∈ (SchedulePc.dispatch (g.proc p).state).stages
      rcases state : (g.proc p).state with _ | _ | _ | _ | _ | _ <;>
        simp_all [SchedulePc.stages]
    | dispatch state =>
      cases state with
      | initial =>
        refine two trivial ?_
        change (g.proc p).state ∈ SchedulePc.stages .initial
        simp_all [SchedulePc.stages]
      | quiescent =>
        refine two trivial ?_
        simp [Act.Staged, SchedulePc.stages]
      | ready =>
        refine two trivial ?_
        change (g.proc p).state ∈ SchedulePc.stages .disabling
        simp_all [SchedulePc.stages]
      | _ => simp [SchedulePc.stages] at staged
    | initial =>
      refine one ?_
      simp [Act.Staged, SchedulePc.stages]
    | enabling => trivial
    | enabled found partner =>
      refine one ?_
      have states : (g.proc p).state = .enabling ∨ (g.proc p).state = .ready := by
        simpa [SchedulePc.stages] using staged
      rcases states with state | state <;> cases found <;>
        simp [Act.Staged, SchedulePc.stages, state, PState.afterEnabling]
    | branch state partner =>
      cases state with
      | waiting =>
        refine one ?_
        change (g.proc p).state ∈ SchedulePc.stages (.partner partner false)
        simp_all [SchedulePc.stages]
      | ready =>
        refine two trivial ?_
        change (g.proc p).state ∈ SchedulePc.stages .disabling
        simp_all [SchedulePc.stages]
      | _ => simp [SchedulePc.stages] at staged
    | disabling => trivial
    | disabled partner =>
      refine one ?_
      simp [Act.Staged, SchedulePc.stages]
    | partner partner executes =>
      cases partner with
      | none => exact one staged
      | some q => exact two trivial staged
    | readying executes => exact one staged
    | execute executes =>
      cases executes with
      | false =>
        refine one ?_
        change (g.proc p).state ∈ SchedulePc.stages .finish
        simp_all [SchedulePc.stages]
      | true =>
        refine two trivial ?_
        change (g.proc p).state ∈ SchedulePc.stages .executing
        simp_all [SchedulePc.stages]
    | executing =>
      refine one ?_
      change (g.proc p).state ∈ SchedulePc.stages .finish
      rcases (by simpa [SchedulePc.stages] using staged :
        (g.proc p).state = .quiescent ∨ (g.proc p).state = .done) with state | state <;>
        simp [SchedulePc.stages, state]
    | finish =>
      simp only [exec, execSchedule, Globals.disable_proc]
      rcases (by simpa [SchedulePc.stages] using staged : (g.proc p).state = .quiescent ∨
        (g.proc p).state = .waiting ∨ (g.proc p).state = .done) with state | state | state <;>
        simp only [state]
      · refine one ?_
        change (g.proc p).state ∈ SchedulePc.stages .top
        simp [SchedulePc.stages, state]
      · exact one trivial
      · exact one trivial
  | select base pc =>
    cases pc with
    | top => exact one trivial
    | chosen highest =>
      simp only [exec, execSelect]
      split
      · exact List.forall_mem_nil _
      · exact two trivial trivial
    | taking => trivial
    | took r =>
      cases r with
      | none => trivial
      | some p =>
        refine one ?_
        have staged : (g.proc p).state = .initial ∨ (g.proc p).state = .ready := staged
        change (g.proc p).state ∈ SchedulePc.stages .top
        rcases staged with state | state <;> simp [SchedulePc.stages, state]
  | main pc =>
    cases pc <;> simp only [exec, execMain] <;> (repeat' split) <;>
      first | trivial | exact one trivial | exact two trivial trivial
  | take pri pc =>
    cases pc <;> simp only [exec, execTake] <;> (repeat' split) <;>
      first | exact one trivial | exact List.forall_mem_nil _
  | append p pc =>
    cases pc <;> simp only [exec, execAppend] <;> (repeat' split) <;>
      first | exact one trivial | exact List.forall_mem_nil _
  | start args pc =>
    cases pc <;> simp only [exec, execStart] <;> (repeat' split) <;>
      first | trivial | exact one trivial | exact two trivial trivial | exact List.forall_mem_nil _
  | rtc p => trivial
  | enableAlt p pc =>
    cases pc <;> simp only [exec, execEnableAlt] <;> (repeat' split) <;>
      first | trivial | exact one trivial | exact List.forall_mem_nil _
  | disableAlt p pc =>
    cases pc <;> simp only [exec, execDisableAlt] <;> (repeat' split) <;>
      first | trivial | exact one trivial | exact List.forall_mem_nil _
  | ready q pc =>
    cases pc <;> simp only [exec, execReady, callSchedule] <;> (repeat' split) <;>
      first | trivial | exact one trivial | exact two trivial trivial | exact List.forall_mem_nil _
  | signal intr saved pc =>
    cases pc <;> simp only [exec, execSignal, callScheduleAtCurrent, callSchedule] <;>
      (repeat' split) <;>
      first | trivial | exact one trivial | exact two trivial trivial | exact List.forall_mem_nil _
  | timeoutHandler pc =>
    cases pc <;> simp only [exec, execTimeoutHandler, readyOrFault] <;> (repeat' split) <;>
      first | trivial | exact one trivial | exact two trivial trivial | exact List.forall_mem_nil _
  | userHandler intrsrc =>
    simp only [exec, execUserHandler]
    (repeat' split) <;>
      first | trivial | exact one trivial | exact two trivial trivial | exact List.forall_mem_nil _

/-- The innermost activation has no process that another one holds, but that it may make one ready
that is enabling. -/
structure Apart (act : Act) (rest : List Act) (g : Globals) : Prop where
  /-- A process is in progress once. -/
  single : ((act :: rest).filterMap Act.holds).Nodup
  /-- Its record is not filled. -/
  filled : ∀ p ∈ rest.filterMap Act.holds, act.reserves ≠ some p
  /-- It is enabling where it is made ready. -/
  enabling : ∀ p ∈ rest.filterMap Act.holds, act = .ready p .test → (g.proc p).state = .enabling

/-- So it is where the queues hold what they should. -/
theorem Implements.apart {s : Sched Addr} (impl : Implements s (act :: rest) g) (own : s.Exact)
    (rightly : readiesRightly .run ⟨act :: rest, g, none⟩ = true) : Apart act rest g := by
  have live := fun p => impl.live_iff (p := p)
  obtain ⟨queue, free, rep, rfl⟩ := impl
  have inner : ∀ p ∈ rest.filterMap Act.holds, p ∈ (act :: rest).filterMap Act.holds := by
    intro p mem
    obtain ⟨a, below, holds⟩ := List.mem_filterMap.mp mem
    exact List.mem_filterMap.mpr ⟨a, List.mem_cons_of_mem _ below, holds⟩
  refine ⟨own.single, fun p held fills => ?_, fun p held is => ?_⟩
  · have known := (live p).mp (own.held p (inner p held))
    simp [initialised, fills] at known
  · subst is
    simp only [readiesRightly, Bool.and_eq_true, Bool.or_eq_true, decide_eq_true_eq] at rightly
    obtain ⟨-, (enabling | ⟨-, absent⟩) | last⟩ := rightly
    · exact enabling
    · exact absurd (inner p held) absent
    · have queued : p ∈ queue (g.proc p).pri :=
        List.mem_of_getLast? ((rep.fifo _).last.symm.trans last)
      exact absurd (inner p held) (own.idle _ p queued)

/-- A step keeps the state of a process that another activation holds, or makes it ready while it is
enabling. -/
theorem exec_stays (apart : Apart act rest g) :
    (exec act g).All (fun _ g' => ∀ p ∈ rest.filterMap Act.holds, Stays g g' p) rest := by
  have each : ∀ p : { p // p ∈ rest.filterMap Act.holds },
      (exec act g).All (fun _ g' => Stays g g' p) rest := by
    rintro ⟨p, held⟩
    by_cases own : act.process = some p ∨ ∃ pc, act = .ready p pc
    · cases act with
      | schedule base q pc =>
        obtain rfl : q = p := by simpa [Act.process] using own
        exact absurd held (List.nodup_cons.mp apart.single).1
      | rtc q => trivial
      | enableAlt q pc =>
        cases pc <;> simp only [exec, execEnableAlt] <;> (repeat' split) <;>
          first | trivial | exact Or.inl rfl | exact Or.inl (by simp)
      | disableAlt q pc =>
        cases pc <;> simp only [exec, execDisableAlt] <;> (repeat' split) <;>
          first | trivial | exact Or.inl rfl | exact Or.inl (by simp)
      | ready q pc =>
        obtain rfl : q = p := by simpa [Act.process] using own
        cases pc with
        | test =>
          have enabling := apart.enabling q held rfl
          rw [exec, execReady, if_pos enabling]
          exact Or.inr ⟨enabling, by simp⟩
        | _ =>
          simp only [exec, execReady, callSchedule]
          (repeat' split) <;> first | trivial | exact Or.inl rfl
      | _ => simp [Act.process] at own
    · have other := not_or.mp own
      refine (exec_spares other.1 (fun pc same => other.2 ⟨pc, same⟩) (apart.filled p held)).imp
        fun _ g' same => Or.inl ?_
      rw [same]
  exact (Result.All.forall each).imp fun _ _ all p held => all ⟨p, held⟩

/-- Application code changes no state but by `terminate`. -/
theorem execUser_states {op : Op} (other : op ≠ .terminate) : (execUser op act g).All
    (fun _ g' => ∀ p, (g'.proc p).state = (g.proc p).state) rest := by
  unfold execUser
  split
  · split
    · cases op with
      | terminate => exact absurd rfl other
      | _ =>
        simp only [userRtc]
        (repeat' split) <;> first | trivial | exact fun _ => rfl | exact fun p => by simp
    · trivial
  · cases op <;> simp only [userMain, callSchedule] <;> (repeat' split) <;>
      first | trivial | exact fun _ => rfl
  · trivial

/-- What an activation leaves on the stack above the others, and these. -/
theorem Staged.all {r : Result} (here : r.All Staged [])
    (below : r.All (fun _ g' => Staged rest g') rest)
    (other : ∀ v g', r = .ret v g' → v ≠ .unit → ∀ base under, rest ≠ .select base .taking :: under) :
    r.All Staged rest := by
  cases r with
  | next act' g' => exact .cons (here act' List.mem_cons_self) below
  | call act' callee g' =>
    exact .cons (here callee List.mem_cons_self)
      (.cons (here act' (List.mem_cons_of_mem _ List.mem_cons_self)) below)
  | ret v g' => exact Staged.returnTo below (other v g' rfl)
  | stop why => trivial
  | stuck => trivial

/-- Only `schedule` calls `take`, where it has found a level. -/
theorem exec_takes_none (other : queueing (act :: rest) = false) (orderly : Orderly (act :: rest))
    (chosen : ¬ ∃ base highest, act = .select base (.chosen highest)) :
    (exec act g).All (fun stack _ => ∀ pri pc under, stack ≠ .take pri pc :: under) rest := by
  have follows := exec_follows act g
  cases result : exec act g with
  | next act' g' =>
    rw [result] at follows
    rintro pri pc under same
    obtain ⟨rfl, -⟩ := List.cons.inj same
    rcases follows with callee | ⟨-, ready⟩
    · cases act <;> cases callee
      cases other
    · cases ready
  | call caller callee g' =>
    rintro pri pc under same
    obtain ⟨rfl, -⟩ := List.cons.inj same
    exact chosen (caller_takes result)
  | ret v g' =>
    rintro pri pc under same
    have caller := orderly.caller v
    rw [same] at caller
    cases caller
  | stop why => trivial
  | stuck => trivial

/-- `handle_signal` returns nothing. -/
theorem exec_signal_unit {intr : Nat} {saved : SigSet} {pc : SignalPc} {v : Value} {g' : Globals}
    (returns : exec (.signal intr saved pc) g = .ret v g') : v = .unit := by
  cases pc <;> simp only [exec, execSignal, callScheduleAtCurrent, callSchedule] at returns <;>
    (repeat' split at returns) <;> cases returns
  rfl

/-- Every step of the running code leads from stages to stages. -/
theorem Staged.step (staged : Staged (act :: rest) g) (other : queueing (act :: rest) = false)
    (orderly : Orderly (act :: rest)) {s : Sched Addr} (impl : Implements s (act :: rest) g)
    (own : s.Exact) (rightly : readiesRightly .run ⟨act :: rest, g, none⟩ = true) :
    (exec act g).All (Settled Staged) rest := by
  have below : (exec act g).All (fun _ g' => Staged rest g') rest :=
    (exec_stays (impl.apart own rightly)).imp fun _ g' stays => staged.below.keep stays
  by_cases chosen : ∃ base highest, act = .select base (.chosen highest)
  · obtain ⟨base, highest, rfl⟩ := chosen
    obtain ⟨queue, free, rep, rfl⟩ := impl
    simp only [exec, execSelect]
    split
    · rw [Result.all_ret, settled_of_not_queueing (orderly.caller _), returnTo_unit]
      exact staged.below
    · simp only [Result.all_call, Settled, Globals.takeFrom, Globals.takeHead_eq]
      cases head : (g.readyQ highest).head with
      | none =>
        simp only [Globals.enter_readyQ, head]
        exact .cons trivial staged.below
      | some p =>
        simp only [Globals.enter_readyQ, head]
        have headed : ((view (Act.select base (.chosen highest) :: rest) g).readyQ highest).head =
          some p := head
        obtain ⟨cells, queued, -⟩ := rep.take headed
        exact .cons (own.runnable highest p (by simp [View.sched, queued])) staged.below
  · have here := exec_stage (staged act List.mem_cons_self)
    have all := Staged.all here below fun v g' returns different base under same => ?_
    · exact (all.and (exec_takes_none other orderly chosen)).imp fun stack g' both =>
        both.1.settled both.2
    · refine orderly.stacked.not_taking (fun take => ?_) (fun signal => ?_) base under same
      · cases act <;> cases take
        cases other
      · cases act <;> cases signal
        exact different (exec_signal_unit returns)

/-- Application code returns nothing. -/
theorem execUser_unit {op : Op} {v : Value} {g' : Globals} (returns : execUser op act g = .ret v g') :
    v = .unit := by
  unfold execUser at returns
  split at returns
  · split at returns
    · cases op <;> simp only [userRtc] at returns <;> (repeat' split at returns) <;> cases returns
      rfl
    · cases returns
  · cases op <;> simp only [userMain, callSchedule] at returns <;> (repeat' split at returns) <;>
      cases returns
  · cases returns

/-- So does every call of application code. -/
theorem Staged.user {op : Op} (staged : Staged (act :: rest) g) (orderly : Orderly (act :: rest))
    (self : op = .terminate → ∀ p, act = .rtc p → g.current = some p)
    (single : ((act :: rest).filterMap Act.holds).Nodup) :
    (execUser op act g).All (Settled Staged) rest := by
  have takesNone : (execUser op act g).All
      (fun stack _ => ∀ pri pc under, stack ≠ .take pri pc :: under) rest := by
    refine (execUser_other orderly).imp fun stack g' none pri pc under same => ?_
    rw [same] at none
    cases none
  suffices all : (execUser op act g).All Staged rest from
    (all.and takesNone).imp fun stack g' both => both.1.settled both.2
  by_cases terminates : op = .terminate
  · subst terminates
    cases act with
    | rtc p =>
      have current := self rfl p rfl
      simp only [execUser, userRtc, current]
      split
      · refine .cons trivial ?_
        obtain ⟨base, under, rfl | rfl⟩ := orderly.stacked.1.caller_of_rtc
        all_goals
          have apart := (List.nodup_cons.mp single).1
          refine .cons (by simp [Act.Staged, SchedulePc.stages]) ?_
          refine staged.below.below.keep fun q held => Or.inl ?_
          have other : q ≠ p := fun same => apart (same ▸ held)
          simp [Globals.setState_of_ne _ _ other]
      · trivial
    | main pc => cases pc <;> trivial
    | _ => trivial
  · have below : (execUser op act g).All (fun _ g' => Staged rest g') rest :=
      (execUser_states terminates).imp fun _ g' same => staged.below.congr same
    have here : (execUser op act g).All Staged [] := by
      unfold execUser
      split
      · split
        · cases op <;> simp only [userRtc] <;> (repeat' split) <;>
            simp [Staged, Act.Staged, Result.All]
        · trivial
      · cases op <;> simp only [userMain, callSchedule] <;> (repeat' split) <;>
          simp [Staged, Act.Staged, Result.All]
      · trivial
    exact Staged.all here below fun v g' returns different => absurd (execUser_unit returns) different

end Steps

/-! ## Runs -/

/-- In runs that keep the queues every process in progress is in the state of its stage. -/
theorem staged_kept : Kept (fun label s => (keepsQueues label s = true ∧ Orderly s.stack) ∧
    Settled (fun stack g => ∃ s, Implements s stack g ∧ s.Exact) s.stack s.g) (Settled Staged) := by
  refine Kept.settled ?_ ?_ ?_ ?_ ?_
  · rintro label s ⟨⟨keeps, orderly⟩, -⟩
    simp only [keepsQueues, Bool.and_eq_true] at keeps
    exact ⟨keeps.1.1, orderly.stacked⟩
  · rintro act rest g other ⟨⟨keeps, orderly⟩, own⟩ staged
    obtain ⟨s, impl, own⟩ := (settled_of_not_queueing other).mp own
    simp only [keepsQueues, Bool.and_eq_true] at keeps
    exact staged.step other orderly impl own keeps.2
  · rintro op act rest g ⟨⟨keeps, orderly⟩, own⟩ staged
    by_cases other : queueing (act :: rest) = false
    · obtain ⟨s, ⟨queue, free, rep, rfl⟩, own⟩ := (settled_of_not_queueing other).mp own
      simp only [keepsQueues, Bool.and_eq_true] at keeps
      refine staged.user orderly ?_ own.single
      rintro rfl p rfl
      simpa [terminatesItself] using keeps.1.2
    · cases act with
      | take pri pc => trivial
      | append p pc => trivial
      | _ => exact absurd rfl other
  · rintro intr stack g - - - staged
    exact .cons trivial (staged.congr fun _ => rfl)
  · rintro t stack g staged
    exact staged.congr fun _ => rfl

/-- The queues own what they should, and every process in progress is in the state of its stage. -/
theorem staged_of_run {first last : State} (booted : Booted first)
    (run : Run step (fun label s => keepsQueues label s = true) first last) :
    Starting last.stack last.g ∨ (Orderly last.stack ∧
      Settled (fun stack g => ∃ s, Implements s stack g ∧ s.Exact) last.stack last.g) ∧
        Settled Staged last.stack last.g := by
  have orderly := orderly_kept.mono fun label s (keeps : keepsQueues label s = true) => by
    simp only [keepsQueues, Bool.and_eq_true] at keeps
    exact keeps.1.1
  have kept := (orderly.and exact_kept).and (staged_kept.mono fun label s given =>
    ⟨⟨given.1, given.2.1⟩, given.2.2⟩)
  refine kept.from_sched_init (fun arena memlen g handlers pristine => ⟨⟨orderly_init,
    scheduled_init (fun s => Sched.Vacant.exact) pristine⟩, ?_⟩) booted run
  exact List.forall_mem_singleton.mpr trivial

/-- Where a process is, the ready queues being these. -/
inductive Whereabouts (queue : Nat → List Addr) (stack : List Act) (g : Globals) (p : Addr) : Prop where
  /-- It is in progress once, at a point of `schedule` that goes with its state. -/
  | inProgress (once : (stack.filterMap Act.holds).count p = 1)
      (staged : ∀ act ∈ stack, act.holds = some p → act.Staged g) (absent : ∀ i, p ∉ queue i)
  /-- It can run and is in its own queue once. -/
  | queued (runnable : (g.proc p).state = .initial ∨ (g.proc p).state = .ready)
      (idle : p ∉ stack.filterMap Act.holds)
      (once : ∀ i, (queue i).count p = if i = (g.proc p).pri then 1 else 0)
  /-- It waits in its ALT. -/
  | waits (waiting : (g.proc p).state = .waiting) (idle : p ∉ stack.filterMap Act.holds)
      (absent : ∀ i, p ∉ queue i)

/-- The whereabouts in an abstract scheduler, read off the memory. -/
theorem Implements.places {s : Sched Addr} {stack : List Act} {g : Globals}
    (impl : Implements s stack g) (own : s.Exact) (staged : Staged stack g) :
    ∃ queue : Nat → List Addr, (∀ i, Fifo g.mem.link (g.readyQ i).head (g.readyQ i).tail (queue i)) ∧
      ∀ p, initialised stack g p = true → Whereabouts queue stack g p := by
  obtain ⟨queue, free, rep, rfl⟩ := impl
  refine ⟨queue, rep.fifo, fun p known => ?_⟩
  have live : (view stack g).live p := live_view.mpr known
  by_cases held : p ∈ stack.filterMap Act.holds
  · refine .inProgress (List.count_eq_one_of_mem own.single held) (fun act mem _ => staged act mem) ?_
    exact fun i queued => own.idle i p queued held
  · rcases own.placed p live held with waiting | queued
    · refine .waits waiting held fun i queued => ?_
      have waiting : (g.proc p).state = .waiting := waiting
      rcases own.runnable i p queued with state | state
      · cases waiting.symm.trans state
      · cases waiting.symm.trans state
    · refine .queued (own.runnable _ p queued) held fun i => ?_
      split
      · rename_i level
        subst level
        exact List.count_eq_one_of_mem (own.once _) queued
      · rename_i other
        exact List.count_eq_zero_of_not_mem fun mem => other (own.level i p mem).symm

/-- In every run that keeps the queues, outside of queue operations, each process is in progress, in
its queue or waiting, and which it is its state tells. -/
theorem whereabouts {first last : State} (booted : Booted first)
    (run : Run step (fun label s => keepsQueues label s = true) first last)
    (boundary : queueing last.stack = false) : ∃ queue : Nat → List Addr,
      (∀ i, Fifo last.g.mem.link (last.g.readyQ i).head (last.g.readyQ i).tail (queue i)) ∧
        ∀ p, initialised last.stack last.g p = true → Whereabouts queue last.stack last.g p := by
  rcases staged_of_run booted run with starting | ⟨⟨-, own⟩, staged⟩
  · obtain ⟨queue, fifo, -⟩ := starting.queuesOwn
    refine ⟨queue, fifo, fun p known => ?_⟩
    simp [initialised, starting.log, allocated] at known
  · obtain ⟨s, impl, own⟩ := (settled_of_not_queueing boundary).mp own
    exact impl.places own ((settled_of_not_queueing boundary).mp staged)

/-- A process waits while the idle process is executed. -/
theorem whereabouts_while_waiting : ∃ last : State, (∃ queue : Nat → List Addr,
    (∀ i, Fifo last.g.mem.link (last.g.readyQ i).head (last.g.readyQ i).tail (queue i)) ∧
      ∀ p, initialised last.stack last.g p = true → Whereabouts queue last.stack last.g p) ∧
    (last.g.proc 1024).state = .waiting ∧ codeOf last.stack = some 1000 := by
  obtain ⟨last, run, checked⟩ := exists_run_of_executeUnder waitingThenIdle
    (fun s : State => !queueing s.stack && (decide ((s.g.proc 1024).state = .waiting) &&
      codeOf s.stack == some 1000))
    (by decide +kernel :
      (executeUnder step keepsQueues waitingThenIdle (zeroBoot 1000)).any _ = true)
  simp only [Bool.and_eq_true, Bool.not_eq_true', decide_eq_true_eq, beq_iff_eq] at checked
  exact ⟨last, whereabouts (zeroBoot_booted 1000) run checked.1, checked.2⟩

/-! ## The life cycle -/

/-- The changes of a process's state, each with the step that makes it. -/
inductive Passes (label : Label) (s : State) (p : Addr) : PState → PState → Prop where
  /-- The initial execution has returned. -/
  | executed {base : Int} {rest : List Act} (point : s.stack = .schedule base p .initial :: rest) :
      Passes label s p .initial .quiescent
  /-- It has returned, and that the process terminated in it is forgotten. -/
  | forgotten {base : Int} {rest : List Act} (point : s.stack = .schedule base p .initial :: rest) :
      Passes label s p .done .quiescent
  /-- The ALT begins. -/
  | enables {base : Int} {rest : List Act}
      (point : s.stack = .schedule base p (.dispatch .quiescent) :: rest) :
      Passes label s p .quiescent .enabling
  /-- No branch was ready. -/
  | waits {base : Int} {partner : Option Addr} {rest : List Act}
      (point : s.stack = .schedule base p (.enabled false partner) :: rest) :
      Passes label s p .enabling .waiting
  /-- A branch was ready. -/
  | found {base : Int} {partner : Option Addr} {rest : List Act}
      (point : s.stack = .schedule base p (.enabled true partner) :: rest) :
      Passes label s p .enabling .ready
  /-- The ALT is over. -/
  | disabled {base : Int} {partner : Option Addr} {rest : List Act}
      (point : s.stack = .schedule base p (.disabled partner) :: rest) :
      Passes label s p .ready .quiescent
  /-- A branch becomes ready while the process enables or waits. -/
  | readied {before : PState} {rest : List Act} (point : s.stack = .ready p .test :: rest)
      (alternates : before = .enabling ∨ before = .waiting) : Passes label s p before .ready
  /-- The process is made ready before its initial execution, as the last one of its queue. -/
  | early {rest : List Act} (point : s.stack = .ready p .test :: rest)
      (last : (s.g.readyQ (s.g.proc p).pri).tail = some p) : Passes label s p .initial .ready
  /-- The process terminates while it executes. -/
  | terminates {before : PState} {rest : List Act} (point : s.stack = .rtc p :: rest)
      (called : label = .user .terminate) (executing : before = .initial ∨ before = .quiescent) :
      Passes label s p before .done

/-- The state of the process is as before, or passed on. -/
def Passing (label : Label) (s : State) (p : Addr) (g : Globals) : Prop :=
  (g.proc p).state = (s.g.proc p).state ∨ Passes label s p (s.g.proc p).state (g.proc p).state

theorem Passing.of {label : Label} {s : State} {p : Addr} {g : Globals} {before after : PState}
    (was : (s.g.proc p).state = before) (now : (g.proc p).state = after)
    (passes : Passes label s p before after) : Passing label s p g := by
  subst was now
  exact Or.inr passes

section Steps

variable {act : Act} {rest : List Act} {g : Globals} {p : Addr}

/-- `schedule` for its own process. -/
theorem execSchedule_passes {base : Int} {pc : SchedulePc}
    (staged : (Act.schedule base p pc).Staged g) : (execSchedule base p pc g).All
      (fun _ g' => Passing .run ⟨.schedule base p pc :: rest, g, none⟩ p g') rest := by
  have staged : (g.proc p).state ∈ pc.stages := staged
  cases pc with
  | dispatch state =>
    cases state with
    | quiescent =>
      have state : (g.proc p).state = .quiescent := List.mem_singleton.mp staged
      exact .of state (by simp [Globals.emit]) (.enables rfl)
    | initial => exact Or.inl rfl
    | ready => exact Or.inl rfl
    | _ => cases staged
  | initial =>
    have states : (g.proc p).state = .initial ∨ (g.proc p).state = .done := by
      simpa [SchedulePc.stages] using staged
    rcases states with state | state
    · exact .of state (by simp) (.executed rfl)
    · exact .of state (by simp) (.forgotten rfl)
  | enabled found partner =>
    have states : (g.proc p).state = .enabling ∨ (g.proc p).state = .ready := by
      simpa [SchedulePc.stages] using staged
    rcases states with state | state
    · cases found with
      | false => exact .of state (by simp [state, PState.afterEnabling]) (.waits rfl)
      | true => exact .of state (by simp [state, PState.afterEnabling]) (.found rfl)
    · refine Or.inl ?_
      simp [state, PState.afterEnabling]
  | disabled partner =>
    have state : (g.proc p).state = .ready := List.mem_singleton.mp staged
    exact .of state (by simp) (.disabled rfl)
  | _ =>
    simp only [execSchedule, callDisableAlt]
    repeat' split
    all_goals first | trivial | exact Or.inl rfl

/-- Every step of the running code. -/
theorem exec_passes (staged : act.Staged g) (known : initialised (act :: rest) g p = true)
    (readied : act = .ready p .test → (g.proc p).state = .enabling ∨ (g.proc p).state = .waiting ∨
      ((g.proc p).state = .initial ∨ (g.proc p).state = .ready) ∧
        (g.readyQ (g.proc p).pri).tail = some p) :
    (exec act g).All (fun _ g' => Passing .run ⟨act :: rest, g, none⟩ p g') rest := by
  have filled : act.reserves ≠ some p := by
    intro fills
    simp [initialised, fills] at known
  by_cases own : act.process = some p ∨ ∃ pc, act = .ready p pc
  · cases act with
    | schedule base q pc =>
      obtain rfl : q = p := by simpa [Act.process] using own
      exact execSchedule_passes staged
    | rtc q => trivial
    | enableAlt q pc =>
      cases pc <;> simp only [exec, execEnableAlt] <;> (repeat' split) <;>
        first | trivial | exact Or.inl rfl | exact Or.inl (by simp)
    | disableAlt q pc =>
      cases pc <;> simp only [exec, execDisableAlt] <;> (repeat' split) <;>
        first | trivial | exact Or.inl rfl | exact Or.inl (by simp)
    | ready q pc =>
      obtain rfl : q = p := by simpa [Act.process] using own
      cases pc with
      | test =>
        have after : (exec (.ready q .test) g).All (fun _ g' => (g'.proc q).state = .ready) rest := by
          simp only [exec, execReady]
          split <;> simp [Result.All]
        refine after.imp fun _ g' state => ?_
        rcases readied rfl with enabling | waiting | ⟨initial | ready, last⟩
        · exact .of rfl state (.readied rfl (Or.inl enabling))
        · exact .of rfl state (.readied rfl (Or.inr waiting))
        · exact .of initial state (.early rfl last)
        · exact Or.inl (state.trans ready.symm)
      | _ =>
        simp only [exec, execReady, callSchedule]
        (repeat' split) <;> first | trivial | exact Or.inl rfl
    | _ => simp [Act.process] at own
  · have apart := not_or.mp own
    refine (exec_spares apart.1 (fun pc same => apart.2 ⟨pc, same⟩) filled).imp
      fun _ g' same => Or.inl ?_
    rw [same]

/-- Every call of application code. -/
theorem execUser_passes {op : Op} (staged : Staged (act :: rest) g) (stacked : Stacked (act :: rest))
    (self : op = .terminate → ∀ q, act = .rtc q → g.current = some q) :
    (execUser op act g).All (fun _ g' => Passing (.user op) ⟨act :: rest, g, none⟩ p g') rest := by
  by_cases terminates : op = .terminate
  · subst terminates
    cases act with
    | rtc q =>
      have current := self rfl q rfl
      simp only [execUser, userRtc, current]
      split
      · by_cases same : p = q
        · subst same
          have states : (g.proc p).state = .initial ∨ (g.proc p).state = .quiescent ∨
              (g.proc p).state = .done := by
            obtain ⟨base, under, rfl | rfl⟩ := stacked.1.caller_of_rtc
            · have caller : (g.proc p).state ∈ SchedulePc.stages .initial :=
                staged.below _ List.mem_cons_self
              rcases List.mem_cons.mp caller with initial | done
              · exact Or.inl initial
              · exact Or.inr (Or.inr (List.mem_singleton.mp done))
            · have caller : (g.proc p).state ∈ SchedulePc.stages .executing :=
                staged.below _ List.mem_cons_self
              simpa [SchedulePc.stages] using Or.inr caller
          rcases states with initial | quiescent | done
          · exact .of initial (by simp [Globals.emit]) (.terminates rfl rfl (Or.inl rfl))
          · exact .of quiescent (by simp [Globals.emit]) (.terminates rfl rfl (Or.inr rfl))
          · exact Or.inl (by simp [Globals.emit, done])
        · refine Or.inl ?_
          simp [Globals.setState_of_ne _ _ same]
      · trivial
    | main pc => cases pc <;> trivial
    | _ => trivial
  · exact (execUser_states terminates).imp fun _ g' same => Or.inl (same p)

end Steps

/-- A process is made ready in one of the states in which it should be. -/
theorem Sched.Exact.readied {rest : List Act} {g : Globals} {p : Addr} {s : Sched Addr}
    (own : s.Exact) (impl : Implements s (.ready p .test :: rest) g)
    (rightly : readiesRightly .run ⟨.ready p .test :: rest, g, none⟩ = true) :
    (g.proc p).state = .enabling ∨ (g.proc p).state = .waiting ∨
      ((g.proc p).state = .initial ∨ (g.proc p).state = .ready) ∧
        (g.readyQ (g.proc p).pri).tail = some p := by
  obtain ⟨queue, free, rep, rfl⟩ := impl
  simp only [readiesRightly, Bool.and_eq_true, Bool.or_eq_true, decide_eq_true_eq] at rightly
  obtain ⟨-, (enabling | ⟨waiting, -⟩) | last⟩ := rightly
  · exact Or.inl enabling
  · exact Or.inr (Or.inl waiting)
  · have queued : p ∈ queue (g.proc p).pri :=
      List.mem_of_getLast? ((rep.fifo _).last.symm.trans last)
    exact Or.inr (Or.inr ⟨own.runnable _ p queued, last⟩)

/-- In every run that keeps the queues, the state of a process changes only so, from the
initialisation of its record to its release. -/
theorem lifecycle {first before after : State} {label : Label} {p : Addr} (booted : Booted first)
    (run : Run step (fun label s => keepsQueues label s = true) first before)
    (keeps : keepsQueues label before = true) (stepped : step label before = some after)
    (known : initialised before.stack before.g p = true) : Passing label before p after.g := by
  rcases staged_of_run booted run with starting | ⟨⟨orderly, own⟩, staged⟩
  · simp [initialised, starting.log, allocated] at known
  · obtain ⟨stack, g, stopped⟩ := before
    have same : Passing label ⟨stack, g, none⟩ p g := Or.inl rfl
    simp only [keepsQueues, Bool.and_eq_true] at keeps
    cases stopped with
    | some why => simp [step] at stepped
    | none =>
      cases label with
      | run =>
        cases stack with
        | nil => cases stepped
        | cons act rest =>
          refine (exec_passes ?_ known ?_).apply same stepped
          · by_cases other : queueing (act :: rest) = false
            · exact (settled_of_not_queueing other).mp staged act List.mem_cons_self
            · cases act with
              | take pri pc => trivial
              | append q pc => trivial
              | _ => exact absurd rfl other
          · rintro rfl
            obtain ⟨s, impl, own⟩ := (settled_of_not_queueing rfl).mp own
            exact own.readied impl keeps.2
      | user op =>
        cases stack with
        | nil => cases stepped
        | cons act rest =>
          by_cases other : queueing (act :: rest) = false
          · refine (execUser_passes ((settled_of_not_queueing other).mp staged) orderly.stacked
              ?_).apply same stepped
            rintro rfl q rfl
            simpa [terminatesItself] using keeps.1.2
          · cases act with
            | take pri pc => cases stepped
            | append q pc => cases stepped
            | _ => exact absurd rfl other
      | interrupt intr =>
        simp only [step, Option.isSome_none, Bool.false_eq_true, if_false] at stepped
        split at stepped
        · cases stepped
          exact Or.inl rfl
        · cases stepped
      | clock t =>
        cases stepped
        exact Or.inl rfl

/-- No branch is ready, and the process passes from enabling to waiting. -/
theorem lifecycle_waits : ∃ before after : State, Passing .run before 1024 after.g ∧
    (before.g.proc 1024).state = .enabling ∧ (after.g.proc 1024).state = .waiting := by
  obtain ⟨before, run, checked⟩ := exists_run_of_executeUnder (waitingThenIdle.take 43)
    (fun s : State => keepsQueues .run s && initialised s.stack s.g 1024 &&
      decide ((s.g.proc 1024).state = .enabling) &&
        (step .run s).any fun after : State => decide ((after.g.proc 1024).state = .waiting))
    (by decide +kernel : (executeUnder step keepsQueues (waitingThenIdle.take 43)
      (zeroBoot 1000)).any _ = true)
  simp only [Bool.and_eq_true, decide_eq_true_eq, Option.any_eq_true] at checked
  obtain ⟨⟨⟨keeps, known⟩, enabling⟩, after, stepped, waiting⟩ := checked
  exact ⟨before, after, lifecycle (zeroBoot_booted 1000) run keeps stepped known, enabling, waiting⟩

end Microcsp
