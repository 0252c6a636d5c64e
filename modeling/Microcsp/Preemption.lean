import Microcsp.Ranking

/-!
# Preemptive scheduling

`schedule` takes a process from the highest queue that is not empty, and `readyProcessIfNecessary`
and `handle_signal` call it for whatever they have queued above the executing process. `start` calls
`append` and leaves it at that. So nothing above an executing process is queued in every run in
which `start` is not called from its code for a process above it.
-/

open Library

namespace Microcsp

/-- A process starts no process above itself. -/
def startsBelow (label : Label) (s : State) : Bool :=
  match label, s.stack with
  | .run, .start args (.fill _ _) :: .rtc p :: _ => decide (args.pri ≤ (s.g.proc p).pri)
  | _, _ => true

/-- The conditions: interrupts come where they should, a process starts no process above itself,
and no record is used after its release. -/
structure KeepsOrder (label : Label) (s : State) : Prop where
  /-- Where interrupts come. -/
  guarded : guarded label s = true
  /-- What processes start. -/
  starts : startsBelow label s = true
  /-- A process made ready has its record. -/
  readies : readiesLive label s = true
  /-- A released record is in no queue. -/
  releases : ReleasesUnqueued label s

/-! ## Clear levels -/

/-- The ready queues above this level are empty. -/
def Clear (level : Int) (g : Globals) : Prop := ∀ i : Nat, level < i → (g.readyQ i).head = none

/-- The ready queues above the innermost process in progress are empty, if there is one. -/
def ClearOver (stack : List Act) (g : Globals) : Prop :=
  0 ≤ level g.pri stack → Clear (level g.pri stack) g

section Clear

variable {g : Globals}

theorem Clear.mono {low high : Int} (clear : Clear low g) (le : low ≤ high) : Clear high g :=
  fun i above => clear i (by omega)

/-- `append` leaves the levels above the process as they are. -/
theorem Clear.enqueue {level : Int} (clear : Clear level g) {p : Addr} (le : (g.proc p).pri ≤ level) :
    Clear level (g.enqueue p) := by
  intro i above
  have other : i ≠ (g.proc p).pri := by omega
  simp only [Globals.enqueue, Function.update_of_ne other]
  exact clear i above

/-- `take` leaves the levels above the queue as they are. -/
theorem Clear.dequeue {level : Nat} (clear : Clear level g) (p : Addr) : Clear level (g.dequeue p level) := by
  intro i above
  have other : i ≠ level := by omega
  simp only [Globals.dequeue, Function.update_of_ne other]
  exact clear i above

/-- The mask says which queues are empty. -/
theorem Implements.mask {s : Sched Addr} {stack : List Act} (impl : Implements s stack g) (i : Nat) :
    g.priorityMask.getLsbD i = true ↔ (g.readyQ i).head ≠ none := by
  obtain ⟨queue, free, rep, rfl⟩ := impl
  have head : (g.readyQ i).head = (queue i).head? := (rep.fifo i).head_eq
  rw [head, ne_eq, List.head?_eq_none_iff]
  exact rep.mask i

/-- Nothing is queued above the level that `highest_ready` finds. -/
theorem Ranks.clear_highest {stack : List Act} (ranks : Ranks stack g) :
    Clear (highestReady g.priorityMask) g := by
  obtain ⟨s, impl, -⟩ := ranks.rising
  intro i above
  by_contra ready
  have le := le_highestReady ((impl.mask i).mpr ready)
  omega

/-- It finds nothing above a level that nothing is queued above. -/
theorem Ranks.highest_le {stack : List Act} (ranks : Ranks stack g) {level : Nat}
    (clear : Clear level g) : highestReady g.priorityMask ≤ level := by
  obtain ⟨s, impl, -⟩ := ranks.rising
  refine highestReady_le fun i above => ?_
  rw [← Bool.not_eq_true, impl.mask i, not_not]
  exact clear i (by omega)

end Clear

/-! ## The invariant -/

/-- While `schedule` selects a process, and after `append` has queued one, more may be queued than
the process in progress allows. Otherwise nothing is queued above it. A selection on behalf of
`handle_signal` starts with nothing queued above the interrupted process. -/
def PreemptionInv (stack : List Act) (g : Globals) : Prop :=
  match stack with
  | .select _ .top :: rest => interrupted rest → ClearOver rest g
  | .select _ (.chosen highest) :: rest =>
    (interrupted rest → ClearOver rest g) ∧ highest = highestReady g.priorityMask
  | .select _ .taking :: _ => True
  | .select _ (.took r) :: _ => ∀ p ∈ r, Clear (g.pri p) g
  | .ready q .appended :: rest =>
    0 ≤ level g.pri rest → Clear (max (level g.pri rest) (g.pri q)) g
  | stack => ClearOver stack g

/-- The innermost activation neither selects nor queues a process. -/
def Plain : List Act → Prop
  | .select _ _ :: _ | .take _ _ :: _ | .append _ _ :: _ | .ready _ .appended :: _ => False
  | _ => True

section Steps

variable {stack stack' rest : List Act} {g g' : Globals}

theorem PreemptionInv.of_plain (plain : Plain stack) : PreemptionInv stack g ↔ ClearOver stack g := by
  unfold Plain at plain
  split at plain
  · exact plain.elim
  · exact plain.elim
  · exact plain.elim
  · exact plain.elim
  · unfold PreemptionInv
    split <;> first | rfl | simp_all

theorem Plain.not_queueing (plain : Plain stack) : queueing stack = false := by
  unfold Plain at plain
  unfold queueing
  split <;> simp_all

theorem Plain.settled (plain : Plain stack) :
    Settled PreemptionInv stack g ↔ ClearOver stack g := by
  rw [settled_of_not_queueing plain.not_queueing, PreemptionInv.of_plain plain]

/-- What is clear depends on the levels, the priorities and the outline of the stack. -/
theorem ClearOver.congr (clear : ClearOver stack g) (levels : level g'.pri stack' = level g.pri stack)
    (queues : g'.readyQ = g.readyQ) : ClearOver stack' g' := by
  unfold ClearOver Clear at *
  rw [levels, queues]
  exact clear

theorem ClearOver.quiet (clear : ClearOver stack g) (step : Quiet stack g stack' g') :
    ClearOver stack' g' := by
  have same : g'.pri = g.pri := funext step.pri
  refine clear.congr ?_ step.readyQ
  rw [same, ← level_outline, step.outline, level_outline]

/-- A function that may be interrupted neither selects nor queues a process. -/
theorem Interruptible.plain (interruptible : Interruptible stack) : Plain stack := by
  cases stack with
  | nil => trivial
  | cons act rest => cases act <;> trivial

/-- So it is with the caller of anything but a queue operation. -/
theorem Admitted.plain {callee : Callee} (atop : Admitted callee rest)
    (other : callee ≠ .take ∧ (∀ p, callee ≠ .append p) ∧ callee ≠ .signal) : Plain rest := by
  cases rest with
  | nil => trivial
  | cons caller under =>
    have calls : caller.admits callee := atop
    obtain ⟨take, append, signal⟩ := other
    cases caller with
    | select base pc =>
      cases callee with
      | take => exact absurd rfl take
      | signal => exact absurd rfl signal
      | _ => exact calls.elim
    | take pri pc => cases callee <;> first | exact absurd rfl signal | exact calls.elim
    | append p pc => cases callee <;> first | exact absurd rfl signal | exact calls.elim
    | ready q pc =>
      cases pc with
      | appended =>
        cases callee with
        | append p => exact absurd rfl (append p)
        | signal => exact absurd rfl signal
        | _ => exact calls.elim
      | _ => trivial
    | _ => trivial

theorem Plain.returnTo {v : Value} (plain : Plain rest) : Plain (returnTo v rest) := by
  cases rest with
  | nil => trivial
  | cons caller under =>
    simp only [Microcsp.returnTo, Act.resume]
    split <;> trivial

/-- Quiet activations go on so. -/
theorem exec_plain {act : Act} (calm : act.calm = true) (stacked : Stacked (act :: rest))
    (uncut : Uncut (act :: rest)) : (exec act g).All (fun stack _ => Plain stack) rest := by
  have caller : ∀ c, act.callee = c → c ≠ .take ∧ (∀ p, c ≠ .append p) ∧ c ≠ .signal →
      ∀ v, Plain (returnTo v rest) := by
    rintro c rfl other v
    exact (stacked.1.plain other).returnTo
  cases act with
  | schedule base p pc =>
    cases pc <;> simp only [exec, execSchedule, callDisableAlt] <;> (repeat' split) <;> trivial
  | rtc p => trivial
  | enableAlt p pc =>
    have back := caller _ rfl (by simp [Act.callee])
    clear caller
    cases pc <;> simp only [exec, execEnableAlt] <;> (repeat' split) <;> first | trivial | exact back _
  | disableAlt p pc =>
    have back := caller _ rfl (by simp [Act.callee])
    clear caller
    cases pc <;> simp only [exec, execDisableAlt] <;> (repeat' split) <;>
      first | trivial | exact back _
  | signal intr saved pc =>
    have back : Plain (returnTo .unit rest) := (uncut_signal.mp uncut).1.plain.returnTo
    cases pc <;> simp only [exec, execSignal] <;> (repeat' split) <;> trivial
  | timeoutHandler pc =>
    have back := caller _ rfl (by simp [Act.callee])
    clear caller
    cases pc <;> simp only [exec, execTimeoutHandler, readyOrFault] <;> (repeat' split) <;>
      first | trivial | exact back _
  | userHandler intrsrc =>
    have back := caller _ rfl (by simp [Act.callee])
    simp only [exec, execUserHandler]
    (repeat' split) <;> first | trivial | exact back _
  | _ => cases calm

/-- So do quiet calls of application code. -/
theorem execUser_plain {op : Op} {act : Act} (calm : op.calm act = true)
    (stacked : Stacked (act :: rest)) : (execUser op act g).All (fun stack _ => Plain stack) rest := by
  unfold execUser
  split
  · rename_i p
    have back : Plain (returnTo .unit rest) :=
      (Admitted.plain stacked.1 (by simp [Act.callee])).returnTo
    split
    · cases op <;> simp only [userRtc] <;> (repeat' split) <;> trivial
    · trivial
  · cases op <;> simp only [userMain] <;> (repeat' split) <;> trivial
  · trivial

/-- Quiet steps keep the levels clear. -/
theorem ClearOver.all {r : Result} (clear : ClearOver stack g)
    (quiet : r.All (Settled (Quiet stack g)) rest) (plain : r.All (fun stack _ => Plain stack) rest) :
    r.All (Settled PreemptionInv) rest :=
  (quiet.and plain).imp fun _ _ both => both.2.settled.mpr
    (clear.quiet ((settled_of_not_queueing both.2.not_queueing).mp both.1))

theorem execMain_preemption {pc : MainPc} (orderly : Orderly (.main pc :: rest)) :
    (execMain pc g).All (Settled PreemptionInv) rest := by
  have sound := orderly.sound _ List.mem_cons_self
  have idle : ∀ pc g, ClearOver (.main pc :: rest) g := fun pc g known => absurd known (by simp [level])
  cases pc with
  | memoryInit arena memlen => exact sound.elim
  | schedInit => exact sound.elim
  | idleAlloc =>
    simp only [execMain]
    repeat' split
    all_goals first | exact idle _ _ | trivial
  | idleFill index record => exact idle _ _
  | timerInit => exact idle _ _
  | user => trivial
  | running => trivial

/-- `start` is called by the rtc function of a process or by `main`. -/
theorem Admitted.caller_of_start (atop : Admitted .start rest) :
    (∃ p under, rest = .rtc p :: under) ∨ ∃ under, rest = .main .user :: under := by
  cases rest with
  | nil => simp [Admitted] at atop
  | cons caller under =>
    have calls : caller.admits .start := atop
    cases caller with
    | rtc p => exact Or.inl ⟨p, under, rfl⟩
    | main pc =>
      cases pc with
      | user => exact Or.inr ⟨under, rfl⟩
      | _ => exact calls.elim
    | _ => exact calls.elim

/-- A new process that is at most at the level of the executing one is queued. -/
theorem ClearOver.fill {p record : Addr} {under : List Act} {filled : Globals}
    (own : ∀ pri, level pri (.rtc p :: under) = pri p) (clear : ClearOver (.rtc p :: under) g)
    (queues : filled.readyQ = g.readyQ) (stored : filled.proc p = g.proc p)
    (le : (filled.proc record).pri ≤ (g.proc p).pri) :
    ClearOver (.rtc p :: under) (filled.enqueue record) := by
  have same : (filled.enqueue record).pri p = g.pri p := congrArg Process.pri stored
  intro _
  rw [own, same]
  refine Clear.enqueue (fun i above => ?_) (Int.ofNat_le.mpr le)
  rw [queues]
  refine clear ?_ i ?_
  · rw [own]
    exact Int.natCast_nonneg _
  · rw [own]
    exact above

theorem execStart_preemption {args : StartArgs} {pc : StartPc} (ranks : Ranks (.start args pc :: rest) g)
    (starts : startsBelow .run ⟨.start args pc :: rest, g, none⟩ = true)
    (clear : ClearOver (.start args pc :: rest) g) :
    (execStart args pc g).All (Settled PreemptionInv) rest := by
  have atop : Admitted .start rest := ranks.orderly.stacked.1
  cases pc with
  | check =>
    simp only [execStart]
    repeat' split
    all_goals first | exact clear | trivial
  | alloc index =>
    simp only [execStart]
    repeat' split
    all_goals first | exact clear | trivial
  | fill index record =>
    simp only [execStart, Result.all_call, Settled, Globals.appendFrom, Globals.appendLink_eq]
    have apart : ∀ q ∈ rest.filterMap Act.holds, q ≠ record := by
      rintro q held rfl
      have known := ranks.holds.held q held
      simp [initialised, Act.reserves] at known
    rcases atop.caller_of_start with ⟨q, under, rfl⟩ | ⟨under, rfl⟩
    · obtain ⟨base, outer, frame⟩ := (ranks.orderly.stacked.2.1 : Admitted (.rtc q) under).caller_of_rtc
      have own : ∀ pri, level pri (.rtc q :: under) = pri q := by
        intro pri
        rcases frame with rfl | rfl <;> rfl
      have other : q ≠ record := apart q (by rcases frame with rfl | rfl <;> exact List.mem_cons_self)
      refine ClearOver.fill own clear rfl (Globals.setProc_of_ne g _ other) ?_
      simp only [startsBelow, decide_eq_true_eq] at starts
      change ((g.setProc record _).proc record).pri ≤ (g.proc q).pri
      rw [Globals.setProc_self]
      exact Int.toNat_le.mpr starts
    · exact fun some => absurd some (by simp [level])
  | appended =>
    have plain := atop.plain (by simp)
    rw [execStart, Result.all_ret, returnTo_unit, plain.settled]
    exact clear

theorem execSelect_preemption {base : Int} {pc : SelectPc} (ranks : Ranks (.select base pc :: rest) g)
    (inv : PreemptionInv (.select base pc :: rest) g) :
    (execSelect base pc g).All (Settled PreemptionInv) rest := by
  have plain : Plain rest := Admitted.plain ranks.orderly.stacked.1 (by simp [Act.callee])
  cases pc with
  | top => exact ⟨inv, rfl⟩
  | chosen highest =>
    obtain ⟨-, rfl⟩ := inv
    have clear := ranks.clear_highest
    obtain ⟨low, exact⟩ : BaseOver g.pri rest base := ranks.bases.1
    simp only [execSelect]
    split
    · rename_i below
      rw [Result.all_ret, returnTo_unit, plain.settled]
      intro some
      have same := exact some
      exact clear.mono (by omega)
    · simp only [Result.all_call, Settled, Globals.takeFrom, Globals.takeHead_eq]
      cases head : (g.readyQ (highestReady g.priorityMask)).head with
      | none =>
        simp only [Globals.enter_readyQ, head]
        exact fun p none => absurd none (by simp)
      | some p =>
        simp only [Globals.enter_readyQ, head]
        intro q same
        obtain rfl := Option.some.inj same
        have own : g.pri p = highestReady g.priorityMask := (ranks.holds.head _ p head).2
        change Clear (g.pri p) _
        rw [own]
        exact Clear.dequeue clear p
  | taking => trivial
  | took r =>
    cases r with
    | none => trivial
    | some p => exact fun _ => inv p rfl

/-- A selection that goes on after a process interrupts none. -/
theorem Ranks.not_interrupted {base : Int} {p : Addr} {pc : SchedulePc}
    (ranks : Ranks (.schedule base p pc :: rest) g) (atop : interrupted rest) : ClearOver rest g' := by
  intro some
  have here : Coherent rest none := ranks.coherent.2 none
  have interruptible : Interruptible rest := by
    unfold interrupted at atop
    split at atop
    · rfl
    · exact atop.elim
  rcases here.level_eq ranks.orderly.stacked.2 ranks.uncut.tail interruptible with none | ⟨q, is, -⟩
  · rw [none] at some
    omega
  · cases is

theorem execSchedule_preemption {base : Int} {p : Addr} {pc : SchedulePc}
    (ranks : Ranks (.schedule base p pc :: rest) g) (clear : ClearOver (.schedule base p pc :: rest) g) :
    (execSchedule base p pc g).All (Settled PreemptionInv) rest := by
  have stored : ∀ state stack, (∀ pri, level pri stack = pri p) → ClearOver stack (g.setState p state) := by
    intro state stack own
    refine clear.congr ?_ rfl
    rw [own, Globals.pri_setState, level]
  have calm : pc.calm = true → (execSchedule base p pc g).All (Settled PreemptionInv) rest :=
    fun calm => clear.all (execSchedule_quiet calm)
      (exec_plain (show (Act.schedule base p pc).calm = true from calm) ranks.orderly.stacked
        ranks.uncut : (exec (.schedule base p pc) g).All _ _)
  cases pc with
  | dispatch state =>
    cases state with
    | initial => exact clear
    | quiescent => exact stored .enabling _ fun _ => rfl
    | _ => exact clear
  | initial => exact stored .quiescent _ fun _ => rfl
  | enabled found partner => exact stored ((g.proc p).state.afterEnabling found) _ fun _ => rfl
  | disabled partner => exact stored .quiescent _ fun _ => rfl
  | execute execute => cases execute <;> exact clear
  | finish =>
    simp only [execSchedule, Globals.disable_proc]
    cases state : (g.proc p).state with
    | done => exact fun atop => ranks.not_interrupted atop
    | waiting => exact fun atop => ranks.not_interrupted atop
    | _ => exact clear
  | _ => exact calm rfl

theorem execReady_preemption {q : Addr} {pc : ReadyPc} (ranks : Ranks (.ready q pc :: rest) g)
    (inv : PreemptionInv (.ready q pc :: rest) g) :
    (execReady q pc g).All (Settled PreemptionInv) rest := by
  have plain : Plain rest := Admitted.plain ranks.orderly.stacked.1 (by simp [Act.callee])
  cases pc with
  | test =>
    have clear : ClearOver rest g := inv
    simp only [execReady]
    split
    · rw [Result.all_ret, returnTo_unit, plain.settled]
      refine clear.congr ?_ rfl
      rw [Globals.pri_setState]
    · simp only [Result.all_call, Settled, Globals.appendFrom, Globals.appendLink_eq]
      intro some
      have same : ((g.setState q .waiting).setState q .ready).pri = g.pri := by
        rw [Globals.pri_setState, Globals.pri_setState]
      change 0 ≤ level ((g.setState q .waiting).setState q .ready).pri rest at some
      change Clear (max (level ((g.setState q .waiting).setState q .ready).pri rest)
        (((g.setState q .waiting).setState q .ready).pri q)) _
      rw [same] at some ⊢
      refine Clear.enqueue (fun i above => ?_) ?_
      · exact clear some i (by omega)
      · change (((((g.setState q .waiting).setState q .ready).pri q : Nat)) : Int) ≤ _
        rw [same]
        omega
  | appended =>
    simp only [execReady, callSchedule]
    split
    · trivial
    · rename_i c current
      split
      · exact fun atop => atop.elim
      · rename_i low
        rw [Result.all_ret, returnTo_unit, plain.settled]
        intro some
        have here : Coherent rest g.current := ranks.coherent
        rw [current] at here
        have own : BaseOver g.pri rest (g.pri c) := here.baseOver ranks.orderly.stacked.2
          ranks.uncut.tail (Admitted.interruptible_of_ready ranks.orderly.stacked.1)
        have same := own.2 some
        have le : g.pri q ≤ g.pri c := Nat.le_of_not_lt low
        have clear : Clear (max (level g.pri rest) (g.pri q)) g := inv some
        exact clear.mono (by omega)
  | scheduling prev =>
    rw [execReady, Result.all_ret, returnTo_unit, plain.settled]
    exact inv

/-- Every step of the running code keeps the invariant. -/
theorem exec_preemption {act : Act} (other : queueing (act :: rest) = false)
    (starts : startsBelow .run ⟨act :: rest, g, none⟩ = true) (ranks : Ranks (act :: rest) g)
    (inv : PreemptionInv (act :: rest) g) : (exec act g).All (Settled PreemptionInv) rest := by
  have calm : act.calm = true → Plain (act :: rest) → (exec act g).All (Settled PreemptionInv) rest :=
    fun calm plain => ((PreemptionInv.of_plain plain).mp inv).all (exec_quiet calm ranks.orderly)
      (exec_plain calm ranks.orderly.stacked ranks.uncut)
  cases act with
  | main pc => exact execMain_preemption ranks.orderly
  | select base pc => exact execSelect_preemption ranks inv
  | schedule base p pc => exact execSchedule_preemption ranks inv
  | take pri pc => cases other
  | append p pc => cases other
  | start args pc => exact execStart_preemption ranks starts inv
  | ready q pc => exact execReady_preemption ranks inv
  | signal intr saved pc =>
    cases pc with
    | handled previously =>
      simp only [exec, execSignal, callScheduleAtCurrent, callSchedule]
      split
      · split
        · trivial
        · exact fun _ => inv
      · exact inv
    | _ => exact calm rfl trivial
  | _ => exact calm rfl trivial

/-- So does every call of application code. -/
theorem execUser_preemption {op : Op} {act : Act} (orderly : Orderly (act :: rest))
    (inv : PreemptionInv (act :: rest) g) : (execUser op act g).All (Settled PreemptionInv) rest := by
  have calm : op.calm act = true → Plain (act :: rest) →
      (execUser op act g).All (Settled PreemptionInv) rest := fun calm plain =>
    ((PreemptionInv.of_plain plain).mp inv).all (execUser_quiet calm orderly)
      (execUser_plain calm orderly.stacked)
  cases act with
  | rtc p =>
    cases op with
    | terminate =>
      simp only [execUser, userRtc]
      split
      · split
        · trivial
        · refine ClearOver.congr inv ?_ rfl
          change level (g.setState _ .done).pri _ = _
          rw [Globals.pri_setState]
      · trivial
    | start args =>
      simp only [execUser, userRtc]
      split
      · exact inv
      · trivial
    | _ => exact calm rfl trivial
  | main pc =>
    cases pc with
    | user =>
      cases op with
      | ret => exact fun atop => atop.elim
      | start args => exact inv
      | _ => exact calm rfl trivial
    | _ => trivial
  | _ => trivial

end Steps

/-- Where no process is in progress none executes. -/
theorem Stacked.idle {pri : Addr → Nat} {stack : List Act} (stacked : Stacked stack)
    (none : level pri stack < 0) : ∀ act ∈ stack, act.process = .none := by
  induction stack with
  | nil => simp
  | cons act rest ih =>
    have below := ih stacked.2
    cases act with
    | main pc =>
      obtain rfl := Admitted.eq_nil_of_main stacked.1
      simp [Act.process]
    | schedule base p pc =>
      simp only [level] at none
      omega
    | rtc p =>
      obtain ⟨base, under, rfl | rfl⟩ := stacked.1.caller_of_rtc <;>
      · simp only [level] at none
        omega
    | enableAlt p pc =>
      obtain ⟨base, under, rfl⟩ := stacked.1.caller_of_enableAlt
      simp only [level] at none
      omega
    | disableAlt p pc =>
      obtain ⟨base, under, rfl⟩ := stacked.1.caller_of_disableAlt
      simp only [level] at none
      omega
    | _ => exact List.forall_mem_cons.mpr ⟨rfl, below none⟩

/-- With nothing queued above an interrupted process `handle_signal` preempts none. -/
theorem PreemptionInv.preempts {label : Label} {stack : List Act} {g : Globals}
    (inv : PreemptionInv stack g) (ranks : Ranks stack g) :
    preemptsNothing label ⟨stack, g, none⟩ = true := by
  unfold preemptsNothing
  split
  · rename_i base highest intr saved pc rest same
    obtain rfl : stack = .select base (.chosen highest) :: .signal intr saved pc :: rest := same
    obtain ⟨clear, rfl⟩ := inv
    have clear : ClearOver rest g := clear trivial
    have atop : BaseOver g.pri rest base := ranks.bases.1
    by_cases some : 0 ≤ level g.pri rest
    · obtain ⟨n, own⟩ := Int.eq_ofNat_of_zero_le some
      have clear : Clear (n : Int) g := own ▸ clear some
      have low := ranks.highest_le clear
      have same := atop.2 some
      have none : ((highestReady g.priorityMask : Nat) : Int) ≤ base := by omega
      simp [none]
    · have none : level g.pri rest < 0 := by omega
      have idle := ranks.orderly.stacked.2.2.idle none
      simp only [Bool.or_eq_true, List.all_eq_true, Option.isNone_iff_eq_none]
      exact Or.inr idle
  · rfl

/-- In runs under the conditions the invariant holds, and processes preempt each other in order. -/
theorem preemption_kept : Kept KeepsOrder
    (fun stack g => Ranked stack g ∧ Settled PreemptionInv stack g) := by
  refine Kept.over_ranks ?_ ?_ ?_ ?_ ?_
  · rintro label ⟨stack, g, stopped⟩ keeps held ranked
    refine ⟨keeps.guarded, ?_, keeps.readies, keeps.releases⟩
    by_cases other : queueing stack = false
    · exact ((settled_of_not_queueing other).mp held).preempts (ranked.ranks other)
    · cases stack with
      | nil => exact absurd rfl other
      | cons act rest =>
        cases act with
        | take pri pc => cases label <;> rfl
        | append p pc => cases label <;> rfl
        | _ => exact absurd rfl other
  · exact fun act rest g other keeps ranks inv => exec_preemption other keeps.starts ranks inv
  · exact fun op act rest g _ ranks inv => execUser_preemption ranks.orderly inv
  · intro intr stack g keeps ranks inv
    have interruptible : Interruptible stack := by
      cases stack with
      | nil => trivial
      | cons act rest => exact keeps.guarded
    exact (PreemptionInv.of_plain interruptible.plain).mp inv
  · exact fun t stack g inv => inv

/-! ## The result -/

/-- Control in the code of a process is at the level of that process. -/
theorem Stacked.level_of_codeOf {stack : List Act} {p : Addr} (stacked : Stacked stack)
    (executing : codeOf stack = some p) (pri : Addr → Nat) : level pri stack = pri p := by
  induction stack with
  | nil => cases executing
  | cons act rest ih =>
    cases act with
    | rtc q =>
      cases executing
      obtain ⟨base, under, rfl | rfl⟩ := stacked.1.caller_of_rtc <;> rfl
    | enableAlt q pc =>
      cases executing
      obtain ⟨base, under, rfl⟩ := stacked.1.caller_of_enableAlt
      rfl
    | disableAlt q pc =>
      cases executing
      obtain ⟨base, under, rfl⟩ := stacked.1.caller_of_disableAlt
      rfl
    | append q pc => exact ih stacked.2 executing
    | start args pc => exact ih stacked.2 executing
    | _ => cases executing

/-- While the code of a process executes, even inside a queue operation that `start` has called,
nothing is queued above it. -/
theorem Ranked.clear {stack : List Act} {g : Globals} {p : Addr} (ranked : Ranked stack g)
    (settled : Settled PreemptionInv stack g) (executing : codeOf stack = some p) :
    Clear (g.pri p) g := by
  have own := ranked.orderly.stacked.level_of_codeOf executing
  have here : ∀ act rest g, Plain (act :: rest) → PreemptionInv (act :: rest) g →
      level g.pri (act :: rest) = g.pri p → Clear (g.pri p) g := by
    intro act rest g plain inv own
    have clear := (PreemptionInv.of_plain plain).mp inv
    rw [ClearOver, own] at clear
    exact clear (Int.natCast_nonneg _)
  cases stack with
  | nil => cases executing
  | cons act rest =>
    cases act with
    | append q pc =>
      obtain ⟨under, rfl | ⟨args, rfl⟩ | rfl⟩ := ranked.orderly.stacked.1.caller_of_append
      · cases executing
      · have clear := here (.start args .appended) under _ trivial settled (own _)
        rw [Globals.pri, g.appendFrom_proc q pc] at clear
        exact fun i above => g.appendFrom_head q (clear i above)
      · cases executing
    | rtc q => exact here (.rtc q) rest g trivial settled (own _)
    | enableAlt q pc => exact here (.enableAlt q pc) rest g trivial settled (own _)
    | disableAlt q pc => exact here (.disableAlt q pc) rest g trivial settled (own _)
    | start args pc => exact here (.start args pc) rest g trivial settled (own _)
    | _ => cases executing

/-- While the code of a process executes with interrupts enabled, the queues above its priority are
empty, and outside of queue operations no process above it is in any queue. -/
def Unpreempted (s : State) : Prop :=
  ∀ p, codeOf s.stack = some p → s.g.masked = false →
    (∀ i, (s.g.proc p).pri < i → (s.g.readyQ i).head = none) ∧
    (queueing s.stack = false → ∀ i cells, Chain s.g.mem.link (s.g.readyQ i).head cells →
      ∀ q ∈ cells, (s.g.proc q).pri ≤ (s.g.proc p).pri)

/-- In every run under the conditions an executing process is never less urgent than a queued
one. -/
theorem nothing_queued_above {first last : State} (booted : Booted first)
    (run : Run step KeepsOrder first last) : Unpreempted last := by
  intro p executing _
  rcases preemption_kept.from_sched_init (fun arena memlen g handlers pristine =>
    ⟨ranked_start pristine, fun known => absurd known (by simp [level])⟩) booted run with
    starting | ⟨ranked, settled⟩
  · obtain ⟨pc, alone⟩ := starting.alone
    rw [alone] at executing
    cases executing
  · have clear := ranked.clear settled executing
    refine ⟨fun i above => clear i (Int.ofNat_lt.mpr above), fun other i cells chain q mem => ?_⟩
    obtain ⟨s, impl, rising⟩ := (ranked.ranks other).rising
    obtain ⟨queue, free, rep, rfl⟩ := impl
    obtain rfl : cells = queue i := chain.unique (rep.fifo i).chain
    have own : (last.g.proc q).pri = i := rising.level i q mem
    by_contra high
    have empty := clear i (Int.ofNat_lt.mpr (show (last.g.proc p).pri < i by omega))
    rw [rep.queue_eq_nil empty] at mem
    cases mem

/-- A process of priority 2 goes on while one of priority 1 that it has started is queued. -/
theorem nothing_queued_above_after_start : ∃ last : State, Unpreempted last ∧
    codeOf last.stack = some 1024 ∧ (last.g.proc 1024).pri = 2 ∧
      (last.g.readyQ 1).head = some 1064 := by
  let input : Guard := ⟨.chanin 0 none 0, true⟩
  let labels := runs 11 ++ [.user (startWith input 2)] ++ runs 10 ++ [.user .ret] ++ runs 10 ++
    [.user (startWith input 1)] ++ runs 9
  obtain ⟨last, run, checked⟩ := exists_run_of_executeUnder labels
    (fun s : State => codeOf s.stack == some 1024 && decide ((s.g.proc 1024).pri = 2) &&
      (s.g.readyQ 1).head == some 1064)
    (by decide +kernel : (executeUnder step (fun label s => guarded label s && startsBelow label s &&
      readiesLive label s && releasesAlone label s) labels (zeroBoot 1000)).any _ = true)
  simp only [Bool.and_eq_true, beq_iff_eq, decide_eq_true_eq] at checked
  refine ⟨last, nothing_queued_above (zeroBoot_booted 1000) (run.mono fun label s keeps => ?_),
    checked.1.1, checked.1.2, checked.2⟩
  simp only [Bool.and_eq_true] at keeps
  exact ⟨keeps.1.1.1, keeps.1.1.2, keeps.1.2, releasesUnqueued_of_alone keeps.2⟩

theorem sometimes_queued_above :
    ¬ ∀ first last, Booted first → Run step Always first last → Unpreempted last := by
  intro always
  obtain ⟨last, run, wrong⟩ := exists_run_of_execute (startThenTick.take 44)
    (fun s : State => codeOf s.stack == some 1024 && !s.g.masked && decide ((s.g.proc 1024).pri = 1) &&
      (s.g.readyQ 2).head == some 1064)
    (by decide +kernel : (execute step (startThenTick.take 44) (zeroBoot 1000)).any _ = true)
  simp only [Bool.and_eq_true, Bool.not_eq_true', beq_iff_eq, decide_eq_true_eq] at wrong
  have empty := (always _ last (zeroBoot_booted 1000) run 1024 wrong.1.1.1 wrong.1.1.2).1 2
    (by rw [wrong.1.2]; decide)
  rw [wrong.2] at empty
  cases empty

end Microcsp
