import Microcsp.Current
import Microcsp.Nesting
import Microcsp.Refinement

/-!
# Preemption in the order of priorities

With interrupts only where they are meant to be enabled, `schedule` is entered with the priority of
the executing process as its base, and takes only processes above it. So the processes in progress
have rising priorities, no process is in progress twice, and a record can be released without any
activation of `schedule` going on with it. This needs no restriction on which processes are made
ready, as long as no record is used after its release.
-/

open Library

namespace Microcsp

/-! ## Conditions -/

/-- An interrupt may come while this activation is on top: it is in none of the functions that ask
for disabled interrupts. -/
def Act.interruptible : Act → Bool
  | .select _ _ | .take _ _ | .append _ _ | .ready _ _ => false
  | _ => true

/-- No interrupt is delivered inside `take`, `append` or `readyProcessIfNecessary` or while
`schedule` selects a process. -/
def guarded (label : Label) (s : State) : Bool :=
  match label, s.stack with
  | .interrupt _, act :: _ => act.interruptible
  | _, _ => true

/-- The record holds a process: it is allocated, and filled. -/
def initialised (stack : List Act) (g : Globals) (p : Addr) : Bool :=
  allocated g.log p && decide (p ∉ stack.filterMap Act.reserves)

/-- The records that hold processes depend on the history and on the reserved ones. -/
theorem initialised_congr {stack stack' : List Act} {g g' : Globals}
    (log : allocated g'.log = allocated g.log)
    (reserves : stack'.filterMap Act.reserves = stack.filterMap Act.reserves) (q : Addr) :
    initialised stack' g' q = initialised stack g q := by
  rw [initialised, log, reserves, initialised]

/-- At boot no record holds a process. -/
theorem Booted.not_initialised {s : State} (booted : Booted s) (p : Addr) :
    initialised s.stack s.g p = false := by
  obtain ⟨arena, memlen, stack, pristine⟩ := booted.uninitialised
  simp [initialised, pristine.log, allocated]

/-- `readyProcessIfNecessary` is called for a process whose record is not released. -/
def readiesLive (label : Label) (s : State) : Bool :=
  match label, s.stack with
  | .run, .ready q .test :: _ => initialised s.stack s.g q
  | _, _ => true

/-- A record is released when it is not linked into a ready queue. -/
def ReleasesUnqueued (label : Label) (s : State) : Prop :=
  match label, s.stack with
  | .run, .schedule _ p .finish :: _ => (s.g.proc p).state = .done →
    ∀ cells, Chain s.g.mem.link (s.g.readyQ (s.g.proc p).pri).head cells → p ∉ cells
  | _, _ => True

/-- A record is released when its queue is empty. -/
def releasesAlone (label : Label) (s : State) : Bool :=
  match label, s.stack with
  | .run, .schedule _ p .finish :: _ =>
    decide ((s.g.proc p).state = .done → (s.g.readyQ (s.g.proc p).pri).head = none)
  | _, _ => true

theorem releasesUnqueued_of_alone {label : Label} {s : State} (alone : releasesAlone label s = true) :
    ReleasesUnqueued label s := by
  unfold releasesAlone at alone
  unfold ReleasesUnqueued
  split at alone
  · intro done cells chain
    rw [of_decide_eq_true alone done] at chain
    cases chain
    simp
  · trivial

/-- The conditions: interrupts come where they should, `handle_signal` preempts no process by
itself, and no record is used after its release. -/
structure Regular (label : Label) (s : State) : Prop where
  /-- Where interrupts come. -/
  guarded : guarded label s = true
  /-- `handle_signal` finds nothing above the process it interrupts. -/
  preempts : preemptsNothing label s = true
  /-- A process made ready has its record. -/
  readies : readiesLive label s = true
  /-- A released record is in no queue. -/
  releases : ReleasesUnqueued label s

theorem undisturbed_of_guarded {label : Label} {s : State} (guard : guarded label s = true) :
    undisturbed label s = true := by
  unfold undisturbed
  split
  · obtain ⟨stack, g, stopped⟩ := s
    cases stack with
    | nil => rfl
    | cons act rest => cases act <;> first | rfl | cases guard
  · rfl

/-! ## Where interrupts came -/

/-- Every interrupt came to an activation that may be interrupted. -/
def Uncut : List Act → Prop
  | .signal _ _ _ :: act :: rest => act.interruptible = true ∧ Uncut (act :: rest)
  | _ :: rest => Uncut rest
  | [] => True

/-- The innermost activation may be interrupted. -/
def Interruptible : List Act → Prop
  | [] => True
  | act :: _ => act.interruptible = true

theorem uncut_signal {intr : Nat} {saved : SigSet} {pc : SignalPc} {rest : List Act} :
    Uncut (.signal intr saved pc :: rest) ↔ Interruptible rest ∧ Uncut rest := by
  cases rest <;> simp [Uncut, Interruptible]

theorem Uncut.tail {act : Act} {rest : List Act} (uncut : Uncut (act :: rest)) : Uncut rest := by
  cases act with
  | signal intr saved pc => exact (uncut_signal.mp uncut).2
  | _ => exact uncut

/-- An activation that is not one of `handle_signal` can be put anywhere. -/
theorem Uncut.cons {act : Act} {rest : List Act} (uncut : Uncut rest) (other : act.callee ≠ .signal) :
    Uncut (act :: rest) := by
  cases act with
  | signal intr saved pc => exact absurd rfl other
  | _ => exact uncut

/-- A return leaves what was interrupted as it is. -/
theorem Uncut.returnTo {rest : List Act} (uncut : Uncut rest) (v : Value) :
    Uncut (returnTo v rest) := by
  cases rest with
  | nil => trivial
  | cons caller under =>
    cases caller with
    | signal intr saved pc => exact uncut
    | _ => exact uncut.tail.cons (by rw [Act.resume_callee]; simp [Act.callee])

/-- A step keeps interrupts where they came. -/
theorem uncut_all {act : Act} {rest : List Act} {r : Result} (uncut : Uncut (act :: rest))
    (follows : r.All (fun stack _ => Follows act stack) []) :
    r.All (fun stack _ => Uncut stack) rest := by
  have replace : ∀ act', (act'.callee = .signal → act.callee = .signal) → Uncut (act' :: rest) := by
    intro act' same
    cases act' with
    | signal intr saved pc =>
      have atop := same rfl
      cases act with
      | signal intr' saved' pc' => exact uncut_signal.mpr (uncut_signal.mp uncut)
      | _ => cases atop
    | _ => exact uncut.tail
  cases r with
  | next act' g =>
    refine replace act' fun signal => ?_
    rcases follows with same | ⟨-, ready⟩
    · exact same.symm.trans signal
    · exact absurd (ready.symm.trans signal) (by simp)
  | call caller callee g =>
    obtain ⟨same, -, other⟩ := follows
    exact (replace caller same.symm.trans).cons other
  | ret v g => exact uncut.tail.returnTo v
  | stop why => trivial
  | stuck => trivial

/-- Guarded steps keep interrupts where they came. -/
theorem uncut_kept : Kept (fun label s => guarded label s = true) (fun stack _ => Uncut stack) where
  run act rest g _ uncut := uncut_all uncut (exec_follows act g)
  user op act rest g _ uncut := uncut_all uncut (execUser_follows op act g)
  interrupt intr stack g guard _ _ uncut := by
    refine uncut_signal.mpr ⟨?_, uncut⟩
    cases stack with
    | nil => trivial
    | cons act rest => exact guard
  clock t stack g _ uncut := uncut

/-! ## Bases -/

/-- A base of `schedule` over this stack: the priority of the process it interrupts, if there is
one. -/
def BaseOver (pri : Addr → Nat) (rest : List Act) (base : Int) : Prop :=
  level pri rest ≤ base ∧ (0 ≤ level pri rest → base = level pri rest)

/-- Every activation of `schedule` has such a base and a process above it. -/
def Based (pri : Addr → Nat) : List Act → Prop
  | [] => True
  | .select base (.took (some p)) :: rest => BaseOver pri rest base ∧ base < pri p ∧ Based pri rest
  | .select base _ :: rest => BaseOver pri rest base ∧ Based pri rest
  | .schedule base p _ :: rest => BaseOver pri rest base ∧ base < pri p ∧ Based pri rest
  | _ :: rest => Based pri rest

theorem Based.tail {pri : Addr → Nat} {act : Act} {rest : List Act} (based : Based pri (act :: rest)) :
    Based pri rest := by
  cases act with
  | select base pc =>
    cases pc with
    | took r =>
      cases r with
      | none => exact based.2
      | some p => exact based.2.2
    | _ => exact based.2
  | schedule base p pc => exact based.2.2
  | _ => exact based

section Congr

variable {pri pri' : Addr → Nat} {stack : List Act}

/-- The level depends on the priorities of processes in progress only. -/
theorem level_congr (same : ∀ p ∈ stack.filterMap Act.holds, pri' p = pri p) :
    level pri' stack = level pri stack := by
  induction stack with
  | nil => rfl
  | cons act rest ih =>
    have below : level pri' rest = level pri rest := ih fun p mem => same p (by
      obtain ⟨a, inside, holds⟩ := List.mem_filterMap.mp mem
      exact List.mem_filterMap.mpr ⟨a, List.mem_cons_of_mem _ inside, holds⟩)
    cases act with
    | main pc => rfl
    | schedule base p pc => simp only [level, same p List.mem_cons_self]
    | _ => exact below

/-- So do the bases. -/
theorem Based.congr (based : Based pri stack)
    (same : ∀ p ∈ stack.filterMap Act.holds, pri' p = pri p) : Based pri' stack := by
  induction stack with
  | nil => trivial
  | cons act rest ih =>
    have inner : ∀ p ∈ rest.filterMap Act.holds, pri' p = pri p := fun p mem => same p (by
      obtain ⟨a, inside, holds⟩ := List.mem_filterMap.mp mem
      exact List.mem_filterMap.mpr ⟨a, List.mem_cons_of_mem _ inside, holds⟩)
    have below : Based pri' rest := ih based.tail inner
    have levels : level pri' rest = level pri rest := level_congr inner
    cases act with
    | select base pc =>
      cases pc with
      | took r =>
        cases r with
        | none => exact ⟨by rw [BaseOver, levels]; exact based.1, below⟩
        | some p =>
          refine ⟨by rw [BaseOver, levels]; exact based.1, ?_, below⟩
          rw [same p List.mem_cons_self]
          exact based.2.1
      | _ => exact ⟨by rw [BaseOver, levels]; exact based.1, below⟩
    | schedule base p pc =>
      refine ⟨by rw [BaseOver, levels]; exact based.1, ?_, below⟩
      rw [same p List.mem_cons_self]
      exact based.2.1
    | _ => exact below

end Congr

/-- The level is that of the outline. -/
theorem level_outline (pri : Addr → Nat) (stack : List Act) :
    level pri (outline stack) = level pri stack := by
  induction stack with
  | nil => rfl
  | cons act rest ih =>
    cases act with
    | main pc => rfl
    | schedule base p pc => cases pc <;> rfl
    | ready q pc => cases pc <;> exact ih
    | _ => exact ih

/-- The bases are those of the outline. -/
theorem based_outline (pri : Addr → Nat) (stack : List Act) :
    Based pri (outline stack) ↔ Based pri stack := by
  induction stack with
  | nil => rfl
  | cons act rest ih =>
    have levels := level_outline pri rest
    cases act with
    | select base pc =>
      change Based pri (.select base pc :: outline rest) ↔ _
      cases pc with
      | took r => cases r <;> simp only [Based, BaseOver, levels, ih]
      | _ => simp only [Based, BaseOver, levels, ih]
    | schedule base p pc =>
      have canonical : ∀ pc', Based pri (.schedule base p pc' :: outline rest) ↔
          Based pri (.schedule base p pc :: rest) := fun pc' => by
        simp only [Based, BaseOver, levels, ih]
      cases pc <;> exact canonical _
    | ready q pc => cases pc <;> exact ih
    | _ => exact ih

/-- Below the innermost activation no process has been taken without being run. -/
theorem Stacked.not_took {stack : List Act} (stacked : Stacked stack) (uncut : Uncut stack)
    {base : Int} {r : Option Addr} : .select base (.took r) ∉ stack.tail := by
  induction stack with
  | nil => simp
  | cons act rest ih =>
    cases rest with
    | nil => simp
    | cons caller under =>
      have above := ih stacked.2 uncut.tail
      simp only [List.tail_cons, List.mem_cons, not_or] at above ⊢
      refine ⟨?_, above⟩
      rintro rfl
      have atop : Admitted act.callee (.select base (.took r) :: under) := stacked.1
      cases act with
      | signal intr saved pc => cases (uncut_signal.mp uncut).1
      | _ => exact atop

/-- Processes in progress are at most at the level, where none is taken without being run. -/
theorem Based.held_le {pri : Addr → Nat} {stack : List Act} (based : Based pri stack)
    (stacked : Stacked stack) (run : ∀ base r, .select base (.took r) ∉ stack) :
    ∀ p ∈ stack.filterMap Act.holds, (pri p : Int) ≤ level pri stack := by
  induction stack with
  | nil => simp
  | cons act rest ih =>
    have below := ih based.tail stacked.2 fun base r mem => run base r (List.mem_cons_of_mem _ mem)
    cases act with
    | main pc =>
      obtain rfl := Admitted.eq_nil_of_main stacked.1
      simp [Act.holds]
    | select base pc =>
      cases pc with
      | took r => exact absurd List.mem_cons_self (run base r)
      | _ => exact below
    | schedule base p pc =>
      obtain ⟨⟨atop, -⟩, above, -⟩ := based
      intro q mem
      rcases List.mem_cons.mp (mem : q ∈ p :: rest.filterMap Act.holds) with rfl | inner
      · exact Int.le_refl _
      · have le := below q inner
        simp only [level]
        omega
    | _ => exact below

/-- Where `schedule` has chosen a level above its base, all processes in progress are below it. -/
theorem Based.below_chosen {pri : Addr → Nat} {base : Int} {highest : Nat} {rest : List Act}
    (based : Based pri (.select base (.chosen highest) :: rest))
    (stacked : Stacked (.select base (.chosen highest) :: rest))
    (uncut : Uncut (.select base (.chosen highest) :: rest)) (above : base < highest) :
    ∀ p ∈ rest.filterMap Act.holds, pri p < highest := by
  have untaken : ∀ b r, .select b (.took r) ∉ rest := fun b r => stacked.not_took uncut
  have le := based.2.held_le stacked.2 untaken
  have low : level pri rest ≤ base := based.1.1
  intro p mem
  have within : (pri p : Int) ≤ level pri rest := le p mem
  omega

section Callers

variable {rest : List Act}

/-- `start` is called by code that may be interrupted. -/
theorem Admitted.interruptible_of_start (atop : Admitted .start rest) : Interruptible rest := by
  cases rest with
  | nil => trivial
  | cons caller under =>
    have calls : caller.admits .start := atop
    cases caller with
    | rtc p => rfl
    | main pc => rfl
    | _ => exact calls.elim

/-- So are the handlers. -/
theorem Admitted.interruptible_of_handler
    (atop : Admitted .timeoutHandler rest ∨ Admitted .userHandler rest) : Interruptible rest := by
  cases rest with
  | nil => trivial
  | cons caller under =>
    have calls : caller.admits .timeoutHandler ∨ caller.admits .userHandler := atop
    cases caller with
    | signal intr saved pc => rfl
    | _ => exact (calls.elim id id).elim

/-- So is `readyProcessIfNecessary`. -/
theorem Admitted.interruptible_of_ready (atop : Admitted .ready rest) : Interruptible rest := by
  cases rest with
  | nil => trivial
  | cons caller under =>
    have calls : caller.admits .ready := atop
    cases caller with
    | schedule base p pc => rfl
    | timeoutHandler pc => rfl
    | signal intr saved pc => rfl
    | _ => exact calls.elim

end Callers

/-- Where control may be interrupted, `current` is the innermost process in progress, if there is
one. -/
theorem Coherent.level_eq {pri : Addr → Nat} {stack : List Act} {c : Option Addr}
    (coherent : Coherent stack c) (stacked : Stacked stack) (uncut : Uncut stack)
    (interruptible : Interruptible stack) :
    level pri stack = -1 ∨ ∃ p, c = some p ∧ level pri stack = pri p := by
  induction stack with
  | nil => exact Or.inl rfl
  | cons act rest ih =>
    have below := fun (coherent : Coherent rest c) => ih coherent stacked.2 uncut.tail
    cases act with
    | main pc => exact Or.inl rfl
    | schedule base p pc => exact Or.inr ⟨p, coherent.1, rfl⟩
    | rtc p =>
      obtain ⟨base, under, rfl | rfl⟩ := stacked.1.caller_of_rtc <;>
        exact Or.inr ⟨p, coherent.1, rfl⟩
    | enableAlt p pc =>
      obtain ⟨base, under, rfl⟩ := stacked.1.caller_of_enableAlt
      exact Or.inr ⟨p, coherent.1, rfl⟩
    | disableAlt p pc =>
      obtain ⟨base, under, rfl⟩ := stacked.1.caller_of_disableAlt
      exact Or.inr ⟨p, coherent.1, rfl⟩
    | start args pc => exact below coherent stacked.1.interruptible_of_start
    | signal intr saved pc => exact below coherent (uncut_signal.mp uncut).1
    | timeoutHandler pc => exact below coherent (Admitted.interruptible_of_handler (Or.inl stacked.1))
    | userHandler intrsrc =>
      exact below coherent (Admitted.interruptible_of_handler (Or.inr stacked.1))
    | _ => cases interruptible

/-- The priority of `current` is a base there. -/
theorem Coherent.baseOver {pri : Addr → Nat} {stack : List Act} {c : Addr}
    (coherent : Coherent stack (some c)) (stacked : Stacked stack) (uncut : Uncut stack)
    (interruptible : Interruptible stack) : BaseOver pri stack (pri c) := by
  have eq : level pri stack = -1 ∨ ∃ p, some c = some p ∧ level pri stack = pri p :=
    coherent.level_eq stacked uncut interruptible
  rcases eq with none | ⟨p, same, own⟩
  · constructor
    · omega
    · intro some
      omega
  · obtain rfl := Option.some.inj same
    exact ⟨own.le, fun _ => own.symm⟩

/-! ## The invariant -/

/-- What the rest of the program needs of the processes in progress and in the queues. -/
structure Holds (stack : List Act) (g : Globals) : Prop where
  /-- A process in progress has a record. -/
  held : ∀ p ∈ stack.filterMap Act.holds, initialised stack g p = true
  /-- A process is in progress once. -/
  single : (stack.filterMap Act.holds).Nodup
  /-- The first process of a queue has a record and is at its own level. -/
  head : ∀ i p, (g.readyQ i).head = some p → initialised stack g p = true ∧ (g.proc p).pri = i

section Representation

variable {s : Sched Addr} {stack : List Act} {g : Globals}

theorem live_view {p : Addr} : (view stack g).live p ↔ initialised stack g p = true := by
  simp [View.live, view, initialised]

theorem Implements.live_iff (impl : Implements s stack g) {p : Addr} :
    s.live p ↔ initialised stack g p = true := by
  obtain ⟨queue, free, rep, rfl⟩ := impl
  exact live_view

/-- The order of the abstract scheduler, read off the memory. -/
theorem Implements.holds (impl : Implements s stack g) (rising : s.Rising) : Holds stack g := by
  obtain ⟨queue, free, rep, rfl⟩ := impl
  refine ⟨fun p held => live_view.mp (rising.held p held), ?_, fun i p head => ?_⟩
  · refine rising.falling.imp fun {p q} less (same : p = q) => ?_
    rw [same] at less
    exact Nat.lt_irrefl _ less
  · have first : (g.readyQ i).head = (queue i).head? := (rep.fifo i).head_eq
    rw [head] at first
    have mem : p ∈ queue i := List.mem_of_mem_head? first.symm
    exact ⟨live_view.mp (rising.live i p mem), rising.level i p mem⟩

/-- A process that is linked into no queue is in none of the abstract scheduler. -/
theorem Implements.unqueued (impl : Implements s stack g) (leveled : s.Leveled) {p : Addr}
    (absent : ∀ cells, Chain g.mem.link (g.readyQ (g.proc p).pri).head cells → p ∉ cells)
    (level : Nat) : p ∉ s.queue level := by
  obtain ⟨queue, free, rep, rfl⟩ := impl
  intro mem
  have own : (g.proc p).pri = level := leveled.level level p mem
  subst own
  exact absent _ (rep.fifo (g.proc p).pri).chain mem

/-- Regular steps are actions that the abstract scheduler may take. -/
theorem Implements.mayPreempt (impl : Implements s stack g) (rising : s.Rising) {label : Label}
    (readies : readiesLive label ⟨stack, g, none⟩ = true)
    (releases : ReleasesUnqueued label ⟨stack, g, none⟩) (stacked : Stacked stack)
    (uncut : Uncut stack) (based : queueing stack = false → Based g.pri stack) :
    s.MayPreempt (action label ⟨stack, g, none⟩) := by
  have pri : ∀ p, s.pri p = (g.proc p).pri := by
    obtain ⟨queue, free, rep, rfl⟩ := impl
    exact fun p => rfl
  have held : s.held = stack.filterMap Act.holds := by
    obtain ⟨queue, free, rep, rfl⟩ := impl
    rfl
  unfold action
  split
  · rename_i act rest same
    obtain rfl : stack = act :: rest := same
    unfold Act.action
    split
    case h_3 base highest =>
      split
      · trivial
      · rename_i above
        intro p mem
        rw [held] at mem
        rw [pri]
        exact (based rfl).below_chosen stacked uncut (by omega) p mem
    case h_8 base p =>
      split
      · rename_i done
        exact impl.unqueued rising.toLeveled (releases done)
      · trivial
      · trivial
    case h_9 q =>
      obtain ⟨queue, free, rep, rfl⟩ := impl
      exact live_view.mpr readies
    all_goals trivial
  · unfold Op.action
    split <;> trivial
  · trivial

end Representation

/-- The bases on the stack are right. -/
def BasesInv (stack : List Act) (g : Globals) : Prop := Based g.pri stack

section Steps

variable {rest : List Act} {g : Globals}

/-- Quiet steps keep the bases. -/
theorem BasesInv.quiet {stack stack' : List Act} {g' : Globals} (based : BasesInv stack g)
    (step : Quiet stack g stack' g') : BasesInv stack' g' := by
  have same : g'.pri = g.pri := funext step.pri
  unfold BasesInv
  rw [same, ← based_outline, step.outline, based_outline]
  exact based

/-- The initialisation of a record changes the priority of no process in progress. -/
theorem BasesInv.fill {act act' : Act} {g' : Globals} {record : Addr}
    (based : BasesInv (act :: rest) g) (holds : Holds (act :: rest) g)
    (reserves : act.reserves = some record) (stored : ∀ q, q ≠ record → g'.proc q = g.proc q)
    (same : ∀ pri, Based pri (act :: rest) → Based pri (act' :: rest)) :
    BasesInv (act' :: rest) g' := by
  have reserved : record ∈ (act :: rest).filterMap Act.reserves :=
    List.mem_filterMap.mpr ⟨act, List.mem_cons_self, reserves⟩
  refine same _ (Based.congr based fun p held => ?_)
  have other : p ≠ record := by
    rintro rfl
    have known := holds.held p held
    simp [initialised, reserved] at known
  exact congrArg Process.pri (stored p other)

theorem execMain_based {pc : MainPc} (orderly : Orderly (.main pc :: rest))
    (holds : Holds (.main pc :: rest) g) (based : BasesInv (.main pc :: rest) g) :
    (execMain pc g).All (Settled BasesInv) rest := by
  have sound := orderly.sound _ List.mem_cons_self
  cases pc with
  | memoryInit arena memlen => exact sound.elim
  | schedInit => exact sound.elim
  | idleAlloc =>
    simp only [execMain]
    repeat' split
    all_goals first | exact based | trivial
  | idleFill index record =>
    simp only [execMain, Result.all_call, Settled, Globals.appendFrom, Globals.appendLink_eq]
    exact based.fill holds rfl (fun q other => Globals.setProc_of_ne g _ other) fun _ under => under
  | timerInit => exact based
  | user => trivial
  | running => trivial

theorem execStart_based {args : StartArgs} {pc : StartPc}
    (orderly : Orderly (.start args pc :: rest)) (holds : Holds (.start args pc :: rest) g)
    (based : BasesInv (.start args pc :: rest) g) :
    (execStart args pc g).All (Settled BasesInv) rest := by
  cases pc with
  | check =>
    simp only [execStart]
    repeat' split
    all_goals first | exact based | trivial
  | alloc index =>
    simp only [execStart]
    repeat' split
    all_goals first | exact based | trivial
  | fill index record =>
    simp only [execStart, Result.all_call, Settled, Globals.appendFrom, Globals.appendLink_eq]
    exact based.fill holds rfl (fun q other => Globals.setProc_of_ne g _ other) fun _ under => under
  | appended =>
    rw [execStart, Result.all_ret, settled_of_not_queueing (orderly.caller _), returnTo_unit]
    exact based

theorem execSelect_based {base : Int} {pc : SelectPc} (orderly : Orderly (.select base pc :: rest))
    (holds : Holds (.select base pc :: rest) g) (based : BasesInv (.select base pc :: rest) g) :
    (execSelect base pc g).All (Settled BasesInv) rest := by
  cases pc with
  | top => exact based
  | chosen highest =>
    simp only [execSelect]
    split
    · rw [Result.all_ret, settled_of_not_queueing (orderly.caller _), returnTo_unit]
      exact based.2
    · rename_i above
      simp only [Result.all_call, Settled, Globals.takeFrom, Globals.takeHead_eq]
      cases head : (g.readyQ highest).head with
      | none =>
        simp only [Globals.enter_readyQ, head]
        exact based
      | some p =>
        simp only [Globals.enter_readyQ, head]
        refine ⟨based.1, ?_, based.2⟩
        have own : g.pri p = highest := (holds.head highest p head).2
        change base < g.pri p
        omega
  | taking => trivial
  | took r =>
    cases r with
    | none => trivial
    | some p => exact based

theorem execSchedule_based {base : Int} {p : Addr} {pc : SchedulePc}
    (based : BasesInv (.schedule base p pc :: rest) g) :
    (execSchedule base p pc g).All (Settled BasesInv) rest := by
  have calm : pc.calm = true → (execSchedule base p pc g).All (Settled BasesInv) rest := fun calm =>
    (execSchedule_quiet calm).imp fun _ _ settled => settled.imp fun _ _ step => based.quiet step
  have stored : ∀ state pc', Based (g.setState p state).pri (.schedule base p pc' :: rest) := by
    intro state pc'
    rw [Globals.pri_setState]
    exact based
  cases pc with
  | dispatch state =>
    cases state with
    | initial => exact based
    | quiescent => exact stored .enabling .enabling
    | _ => exact calm rfl
  | initial => exact stored .quiescent .finish
  | enabled found partner =>
    exact stored ((g.proc p).state.afterEnabling found)
      (.branch ((g.proc p).state.afterEnabling found) partner)
  | disabled partner => exact stored .quiescent (.partner partner true)
  | execute execute => cases execute <;> exact based
  | finish =>
    simp only [execSchedule, Globals.disable_proc]
    cases state : (g.proc p).state with
    | done => exact ⟨based.1, based.2.2⟩
    | waiting => exact ⟨based.1, based.2.2⟩
    | _ => exact based
  | _ => exact calm rfl

theorem execReady_based {q : Addr} {pc : ReadyPc} (orderly : Orderly (.ready q pc :: rest))
    (uncut : Uncut (.ready q pc :: rest)) (coherent : CurrentInv (.ready q pc :: rest) g)
    (based : BasesInv (.ready q pc :: rest) g) :
    (execReady q pc g).All (Settled BasesInv) rest := by
  have back : ∀ g, Settled BasesInv rest g ↔ BasesInv rest g := fun g =>
    settled_of_not_queueing (by simpa using orderly.caller .unit)
  cases pc with
  | test =>
    simp only [execReady]
    split
    · rw [Result.all_ret, returnTo_unit, back]
      unfold BasesInv
      rw [Globals.pri_setState]
      exact based
    · simp only [Result.all_call, Settled, Globals.appendFrom, Globals.appendLink_eq]
      change Based (((g.setState q .waiting).setState q .ready)).pri rest
      rw [Globals.pri_setState, Globals.pri_setState]
      exact based
  | appended =>
    simp only [execReady, callSchedule]
    split
    · trivial
    · rename_i c current
      split
      · have here : Coherent rest g.current := coherent
        rw [current] at here
        exact ⟨here.baseOver orderly.stacked.2 uncut.tail
          (Admitted.interruptible_of_ready orderly.stacked.1), based⟩
      · rw [Result.all_ret, returnTo_unit, back]
        exact based
  | scheduling prev =>
    rw [execReady, Result.all_ret, returnTo_unit, back]
    exact based

/-- Every step of the running code keeps the bases. -/
theorem exec_based {act : Act} (other : queueing (act :: rest) = false)
    (orderly : Orderly (act :: rest)) (uncut : Uncut (act :: rest))
    (coherent : CurrentInv (act :: rest) g) (holds : Holds (act :: rest) g)
    (based : BasesInv (act :: rest) g) : (exec act g).All (Settled BasesInv) rest := by
  have calm : act.calm = true → (exec act g).All (Settled BasesInv) rest := fun calm =>
    (exec_quiet calm orderly).imp fun _ _ settled => settled.imp fun _ _ step => based.quiet step
  cases act with
  | main pc => exact execMain_based orderly holds based
  | select base pc => exact execSelect_based orderly holds based
  | schedule base p pc => exact execSchedule_based based
  | take pri pc => cases other
  | append p pc => cases other
  | start args pc => exact execStart_based orderly holds based
  | ready q pc => exact execReady_based orderly uncut coherent based
  | signal intr saved pc =>
    cases pc with
    | handled previously =>
      simp only [exec, execSignal, callScheduleAtCurrent, callSchedule]
      split
      · split
        · trivial
        · rename_i c current
          have here : Coherent rest g.current := coherent
          rw [show g.current = some c from current] at here
          exact ⟨here.baseOver orderly.stacked.2 uncut.tail (uncut_signal.mp uncut).1, based⟩
      · exact based
    | _ => exact calm rfl
  | _ => exact calm rfl

/-- So does every call of application code. -/
theorem execUser_based {op : Op} {act : Act} (orderly : Orderly (act :: rest))
    (based : BasesInv (act :: rest) g) : (execUser op act g).All (Settled BasesInv) rest := by
  have calm : op.calm act = true → (execUser op act g).All (Settled BasesInv) rest := fun calm =>
    (execUser_quiet calm orderly).imp fun _ _ settled => settled.imp fun _ _ step => based.quiet step
  cases op with
  | terminate =>
    cases act with
    | rtc p =>
      simp only [execUser, userRtc]
      split
      · split
        · trivial
        · change Based ((g.setState _ .done)).pri rest
          rw [Globals.pri_setState]
          exact based
      · trivial
    | _ => exact calm rfl
  | start args =>
    unfold execUser
    split
    · split
      · exact based
      · trivial
    · exact based
    · trivial
  | ret =>
    cases act with
    | main pc =>
      cases pc with
      | user => exact ⟨⟨by simp [level, priMin], by simp [level]⟩, based⟩
      | _ => trivial
    | _ => exact calm rfl
  | _ => exact calm rfl

end Steps

/-- What is known between queue operations. -/
structure Ranks (stack : List Act) (g : Globals) : Prop where
  /-- The stack is orderly. -/
  orderly : Orderly stack
  /-- Interrupts came where they should. -/
  uncut : Uncut stack
  /-- The processes in progress find themselves in `current`. -/
  coherent : CurrentInv stack g
  /-- The machine is in a state of a scheduler that preempts in order. -/
  rising : ∃ s, Implements s stack g ∧ s.Rising
  /-- The bases are right. -/
  bases : BasesInv stack g

/-- What is known of the whole run. -/
structure Ranked (stack : List Act) (g : Globals) : Prop where
  /-- The stack is orderly. -/
  orderly : Orderly stack
  /-- Interrupts came where they should. -/
  uncut : Uncut stack
  /-- The processes in progress find themselves in `current`. -/
  coherent : CurrentInv stack g
  /-- The machine gets to a state of a scheduler that preempts in order. -/
  rising : Settled (fun stack g => ∃ s, Implements s stack g ∧ s.Rising) stack g
  /-- The bases get right. -/
  bases : Settled BasesInv stack g

theorem Ranked.ranks {stack : List Act} {g : Globals} (ranked : Ranked stack g)
    (other : queueing stack = false) : Ranks stack g :=
  ⟨ranked.orderly, ranked.uncut, ranked.coherent, (settled_of_not_queueing other).mp ranked.rising,
    (settled_of_not_queueing other).mp ranked.bases⟩

/-- The processes in progress and in the queues. -/
theorem Ranks.holds {stack : List Act} {g : Globals} (ranks : Ranks stack g) : Holds stack g := by
  obtain ⟨s, impl, rising⟩ := ranks.rising
  exact impl.holds rising

/-- A process that `schedule` chooses is not in progress. -/
theorem Ranks.chosen_free {base : Int} {highest : Nat} {rest : List Act} {g : Globals} {p : Addr}
    (ranks : Ranks (.select base (.chosen highest) :: rest) g) (above : base < highest)
    (head : (g.readyQ highest).head = some p) : p ∉ rest.filterMap Act.holds := by
  intro mem
  have below := ranks.bases.below_chosen ranks.orderly.stacked ranks.uncut above p mem
  have own : g.pri p = highest := (ranks.holds.head highest p head).2
  omega

section Records

variable {act : Act} {rest : List Act} {g : Globals}

/-- A process keeps its record until `schedule` releases it. -/
theorem Ranks.exec_initialised (ranks : Ranks (act :: rest) g)
    (other : queueing (act :: rest) = false) (readies : readiesLive .run ⟨act :: rest, g, none⟩ = true)
    (releases : ReleasesUnqueued .run ⟨act :: rest, g, none⟩) :
    (exec act g).All (Settled fun stack' g' => ∀ q, initialised (act :: rest) g q = true →
      act.action g ≠ .release q → initialised stack' g' q = true) rest := by
  obtain ⟨s, impl, rising⟩ := ranks.rising
  have may : s.MayPreempt (act.action g) := impl.mayPreempt rising readies releases
    ranks.orderly.stacked ranks.uncut fun _ => ranks.bases
  have safe := rising.safe (action_possible impl) may
  refine (exec_simulates other ranks.orderly rising.toLeveled safe impl).imp fun _ _ settled =>
    settled.imp fun _ _ after q known kept => ?_
  exact after.live_iff.mp (Sched.live_next (impl.live_iff.mpr known) kept)

/-- Application code releases none. -/
theorem Ranks.execUser_initialised {op : Op} (ranks : Ranks (act :: rest) g) :
    (execUser op act g).All (Settled fun stack' g' => ∀ q, initialised (act :: rest) g q = true →
      initialised stack' g' q = true) rest := by
  obtain ⟨s, impl, -⟩ := ranks.rising
  have self : op = .terminate → ∀ p, act = .rtc p → g.current = some p := by
    rintro - p rfl
    exact ranks.coherent.1
  refine (execUser_simulates ranks.orderly self impl).imp fun _ _ settled =>
    settled.imp fun _ _ after q known => ?_
  refine after.live_iff.mp (Sched.live_next (impl.live_iff.mpr known) ?_)
  unfold Op.action
  split <;> simp

end Records

/-- What every step leaves right, whatever the bases and the queues. -/
theorem shape_kept : Kept (fun label s => Regular label s)
    (fun stack g => (Orderly stack ∧ Uncut stack) ∧ CurrentInv stack g) := by
  refine Kept.and (Kept.and (orderly_kept.mono fun label s regular => ?_)
    (uncut_kept.mono fun label s allowed => ?_)) (currentInv_kept.mono fun label s allowed => ?_)
  · exact undisturbed_of_guarded regular.guarded
  · exact allowed.1.guarded
  · exact allowed.1.preempts

/-- `terminate` acts on the process that calls it. -/
theorem terminatesItself_of_coherent {label : Label} {s : State}
    (coherent : CurrentInv s.stack s.g) : terminatesItself label s = true := by
  obtain ⟨stack, g, stopped⟩ := s
  unfold terminatesItself
  split
  · rename_i p rest same
    obtain rfl : stack = .rtc p :: rest := same
    exact decide_eq_true coherent.1
  · rfl

/-- Regular steps keep the order of preemption. -/
theorem ranked_kept : Kept Regular Ranked := by
  have order : Kept (fun label s => (Regular label s ∧ (Orderly s.stack ∧ Uncut s.stack) ∧
      CurrentInv s.stack s.g) ∧ Settled BasesInv s.stack s.g)
      (Settled fun stack g => ∃ s, Implements s stack g ∧ s.Rising) := by
    refine Kept.scheduled Sched.Rising Sched.MayPreempt ?_ (fun s rising => rising.toLeveled)
      (fun s a rising possible may => rising.safe possible may)
      (fun s a rising possible may => rising.next possible may) ?_
    · rintro label s ⟨⟨regular, shape⟩, -⟩
      exact ⟨undisturbed_of_guarded regular.guarded, shape.1.1,
        terminatesItself_of_coherent shape.2⟩
    · rintro label stack g s ⟨⟨regular, shape⟩, bases⟩ rising impl
      exact impl.mayPreempt rising regular.readies regular.releases shape.1.1.stacked shape.1.2
        fun other => (settled_of_not_queueing other).mp bases
  have bases : Kept (fun label s => (Regular label s ∧ (Orderly s.stack ∧ Uncut s.stack) ∧
      CurrentInv s.stack s.g) ∧ Settled (fun stack g => ∃ s, Implements s stack g ∧ s.Rising)
      s.stack s.g) (Settled BasesInv) := by
    refine Kept.settled (fun label s known => ?_) ?_ ?_ ?_ ?_
    · exact ⟨undisturbed_of_guarded known.1.1.guarded, known.1.2.1.1.stacked⟩
    · rintro act rest g other ⟨⟨-, ⟨orderly, uncut⟩, coherent⟩, rising⟩ based
      obtain ⟨s, impl, rising⟩ := (settled_of_not_queueing other).mp rising
      exact exec_based other orderly uncut coherent (impl.holds rising) based
    · rintro op act rest g ⟨⟨-, ⟨orderly, -⟩, -⟩, -⟩ based
      exact execUser_based orderly based
    · exact fun intr stack g _ _ _ based => based.quiet (quiet_interrupt intr stack g)
    · exact fun t stack g based => based.quiet (quiet_clock t stack g)
  have all := shape_kept.and (order.mutual bases)
  refine all.iff fun stack g => ?_
  exact ⟨fun known => ⟨known.1.1.1, known.1.1.2, known.1.2, known.2.1, known.2.2⟩,
    fun ranked => ⟨⟨⟨ranked.orderly, ranked.uncut⟩, ranked.coherent⟩, ranked.rising, ranked.bases⟩⟩

/-- After `sched_init` nothing is in progress. -/
theorem ranked_start {arena memlen : Nat} {g : Globals} {handlers : Nat → Option Handler}
    (pristine : Pristine g) : Ranked [.main .idleAlloc] { g with
      mem := g.mem.memoryInit arena memlen, interruptHandler := handlers } where
  orderly := orderly_init
  uncut := trivial
  coherent := trivial
  rising := by
    refine scheduled_init (fun s vacant => ?_) pristine
    obtain ⟨empty, idle, -⟩ := vacant
    exact ⟨⟨by simp [empty], by simp [empty]⟩, by simp [idle], by simp [idle]⟩
  bases := trivial

/-- The invariant rule for what rests on the order of preemption, and for what this order rests
on. -/
theorem Kept.over_ranks {ok : Label → State → Prop} {P : List Act → Globals → Prop}
    (regular : ∀ label s, ok label s → Settled P s.stack s.g → Ranked s.stack s.g → Regular label s)
    (run : ∀ act rest g, queueing (act :: rest) = false → ok .run ⟨act :: rest, g, none⟩ →
      Ranks (act :: rest) g → P (act :: rest) g → (exec act g).All (Settled P) rest)
    (user : ∀ op act rest g, ok (.user op) ⟨act :: rest, g, none⟩ → Ranks (act :: rest) g →
      P (act :: rest) g → (execUser op act g).All (Settled P) rest)
    (interrupt : ∀ intr stack g, ok (.interrupt intr) ⟨stack, g, none⟩ → Ranks stack g →
      P stack g → P (.signal intr g.blocked .enter :: stack) g.disable)
    (clock : ∀ t stack g, P stack g → P stack { g with now := t }) :
    Kept ok (fun stack g => Ranked stack g ∧ Settled P stack g) := by
  have condition : ∀ label s, (ok label s ∧ Ranked s.stack s.g) → Settled P s.stack s.g →
      undisturbed label s = true ∧ Stacked s.stack := fun label s known held =>
    ⟨undisturbed_of_guarded (regular label s known.1 held known.2).guarded, known.2.orderly.stacked⟩
  refine Kept.mutual (ranked_kept.given fun label s known => regular label s known.1 known.2) ?_
  refine (Kept.settled (fun label s known => condition label s known.1 known.2) ?_ ?_ ?_ clock).given
    fun label s known held => (⟨known, held⟩ : (ok label s ∧ Ranked s.stack s.g) ∧ _)
  · rintro act rest g other ⟨⟨allowed, ranked⟩, -⟩ held
    exact run act rest g other allowed (ranked.ranks other) held
  · rintro op act rest g ⟨⟨allowed, ranked⟩, -⟩ held
    cases act with
    | take pri pc => trivial
    | append p pc => trivial
    | _ => exact user op _ rest g allowed (ranked.ranks rfl) held
  · rintro intr stack g known - - held
    have other : queueing stack = false := by
      simpa [undisturbed] using (condition _ _ known.1 known.2).1
    exact interrupt intr stack g known.1.1 (known.1.2.ranks other) held

end Microcsp
