import Microcsp.Quiet
import Microcsp.Representation

/-!
# The machine refines the abstract scheduler

Each step of the machine is one action of the abstract scheduler, where a queue operation counts as
done when it is called. The steps that are not actions leave everything the scheduler works on as
it is. The conditions are that no interrupt disturbs a queue operation and that no process in
progress is made ready unless it is enabling.
-/

open Library

namespace Microcsp

/-! ## Actions -/

/-- What a step of an activation is to the abstract scheduler. -/
def Act.action (act : Act) (g : Globals) : SchedAct Addr :=
  match act with
  | .main (.idleFill _ record) => .create record priMin
  | .start args (.fill _ record) => .create record args.pri.toNat
  | .select base (.chosen highest) => if (highest : Int) ≤ base then .skip else .take highest
  | .schedule _ p (.dispatch .quiescent) => .mark p .enabling
  | .schedule _ p .initial => .mark p .quiescent
  | .schedule _ p (.enabled found _) => .mark p ((g.proc p).state.afterEnabling found)
  | .schedule _ p (.disabled _) => .mark p .quiescent
  | .schedule _ p .finish =>
    match (g.proc p).state with
    | .done => .release p
    | .waiting => .leave
    | _ => .skip
  | .ready q .test => .ready q
  | _ => .skip

/-- What a call of application code is to it. -/
def Op.action (op : Op) (act : Act) : SchedAct Addr :=
  match op, act with
  | .terminate, .rtc p => .mark p .done
  | _, _ => .skip

/-- What a step is to it. -/
def action (label : Label) (s : State) : SchedAct Addr :=
  match label, s.stack with
  | .run, act :: _ => act.action s.g
  | .user op, act :: _ => op.action act
  | _, _ => .skip

/-! ## Values that the view is made of -/

section View

variable (g : Globals) (p : Addr)

theorem state_setProc (proc : Process) : (fun q => ((g.setProc p proc).proc q).state) =
    Function.update (fun q => (g.proc q).state) p proc.state := by
  funext q
  by_cases same : q = p
  · subst same
    simp
  · rw [Globals.setProc_of_ne g proc same, Function.update_of_ne same]

theorem pri_setProc (proc : Process) : (fun q => ((g.setProc p proc).proc q).pri) =
    Function.update (fun q => (g.proc q).pri) p proc.pri := by
  funext q
  by_cases same : q = p
  · subst same
    simp
  · rw [Globals.setProc_of_ne g proc same, Function.update_of_ne same]

/-- A store of a state. -/
theorem view_setState (stack : List Act) (state : PState) : view stack (g.setState p state) =
    { view stack g with state := Function.update (view stack g).state p state } :=
  View.ext rfl rfl rfl (state_setProc ..) (funext fun q => Globals.setState_pri g p q state) rfl rfl
    rfl

theorem view_enqueue (stack : List Act) : view stack (g.enqueue p) = (view stack g).append p := rfl

/-- What an activation holds depends on its outline. -/
theorem Act.holds_outline (act : Act) : act.outline.bind Act.holds = act.holds := by
  cases act with
  | schedule base p pc => cases pc <;> rfl
  | ready q pc => cases pc <;> rfl
  | _ => rfl

/-- So does what it reserves. -/
theorem Act.reserves_outline (act : Act) : act.outline.bind Act.reserves = act.reserves := by
  cases act with
  | schedule base p pc => cases pc <;> rfl
  | ready q pc => cases pc <;> rfl
  | _ => rfl

end View

/-! ## The refinement relation -/

/-- The machine is in a state of this abstract scheduler. -/
def Implements (s : Sched Addr) (stack : List Act) (g : Globals) : Prop :=
  ∃ queue free, Represents queue free (view stack g) ∧ (view stack g).sched queue = s

namespace Implements

variable {s : Sched Addr} {stack stack' : List Act} {g g' : Globals}

/-- Nothing the scheduler works on has changed. -/
theorem silent (impl : Implements s stack g) (same : view stack' g' = view stack g) :
    Implements s stack' g' := by
  unfold Implements
  rw [same]
  exact impl

/-- A quiet step. -/
theorem quiet (impl : Implements s stack g) (step : Quiet stack g stack' g') :
    Implements s stack' g' := by
  refine impl.silent (View.ext step.mem step.readyQ step.mask (funext step.state)
    (funext step.pri) ?_ (step.filterMap Act.holds_outline) (step.filterMap Act.reserves_outline))
  refine step.of_log allocated fun e log quiet => allocated_cons ?_ log
  cases e <;> first | rfl | cases quiet

/-- One state has changed. -/
theorem mark (impl : Implements s stack g) {p : Addr} {state : PState}
    (changed : view stack' g' = view stack (g.setState p state)) :
    Implements (s.mark p state) stack' g' := by
  obtain ⟨queue, free, rep, rfl⟩ := impl
  unfold Implements
  rw [changed, view_setState]
  exact ⟨queue, free, rep.setState _, rfl⟩

/-- `allocate_mem` changes nothing for the abstract scheduler. -/
theorem allocate (impl : Implements s stack g) {index : Nat} {record : Addr}
    {mem : Memory} (known : index < nalloc) (made : g.mem.allocateMem index = some (record, mem))
    (changed : view stack' g' = (view stack g).allocate record mem) :
    Implements s stack' g' := by
  obtain ⟨queue, free, rep, rfl⟩ := impl
  obtain ⟨fresh, free', rep'⟩ := rep.allocate known made
  unfold Implements
  rw [changed]
  refine ⟨queue, free', rep', ?_⟩
  simp only [View.sched, View.live_allocate fresh]
  rfl

/-- The initialisation of a record and the call of `append` for it create a process. -/
theorem create (impl : Implements s stack g) (leveled : s.Leveled) {record : Addr}
    {pri : Nat} {reserved : List Addr} (next : (view stack g).reserved = record :: reserved)
    (bound : pri ≤ priMax) (changed : view stack' g' = ((view stack g).fill record pri).append record) :
    Implements (s.next (.create record pri)) stack' g' ∧ s.Possible (.create record pri) := by
  obtain ⟨queue, free, rep, rfl⟩ := impl
  obtain ⟨rep', fresh, created⟩ := rep.fill leveled next bound
  refine ⟨?_, fresh⟩
  have leveled' : (((view stack g).fill record pri).sched queue).Leveled := by
    rw [created]
    exact leveled.create fresh pri
  have live : ((view stack g).fill record pri).live record := by
    change (((view stack g).fill record pri).sched queue).live record
    rw [created]
    exact Or.inl rfl
  unfold Implements
  rw [changed]
  refine ⟨_, free, rep'.append leveled' live, ?_⟩
  rw [Sched.next, ← created]
  rfl

/-- `append` for a process that gets ready. -/
theorem ready (impl : Implements s stack g) (leveled : s.Leveled) {p : Addr} (live : s.live p)
    (other : s.state p ≠ .enabling) (changed : view stack' g' = View.append
      { view stack g with state := Function.update (view stack g).state p .ready } p) :
    Implements (s.next (.ready p)) stack' g' := by
  obtain ⟨queue, free, rep, rfl⟩ := impl
  have marked : (((view stack g).sched queue).mark p .ready).Leveled := ⟨leveled.live, leveled.level⟩
  have rep' := (rep.setState (Function.update (view stack g).state p .ready)).append marked live
  unfold Implements
  rw [changed, Sched.next, if_neg other]
  exact ⟨_, free, rep', rfl⟩

/-- `take` from a queue that is not empty. -/
theorem take (impl : Implements s stack g) {level : Nat} {p : Addr}
    (head : (g.readyQ level).head = some p) (changed : view stack' g' = (view stack g).take level p) :
    Implements (s.next (.take level)) stack' g' := by
  obtain ⟨queue, free, rep, rfl⟩ := impl
  obtain ⟨rest, cells, rep'⟩ := rep.take head
  unfold Implements
  rw [changed]
  refine ⟨_, free, rep', ?_⟩
  have queued : ((view stack g).sched queue).queue level = p :: rest := cells
  simp only [Sched.next, queued]
  rfl

/-- `take` from an empty queue. -/
theorem take_none (impl : Implements s stack g) {level : Nat} (head : (g.readyQ level).head = none) :
    s.next (.take level) = s := by
  obtain ⟨queue, free, rep, rfl⟩ := impl
  have queued : ((view stack g).sched queue).queue level = [] := rep.queue_eq_nil head
  simp only [Sched.next, queued]

/-- The innermost process waits. -/
theorem leave (impl : Implements s stack g)
    (changed : view stack' g' = { view stack g with held := (view stack g).held.tail }) :
    Implements (s.next .leave) stack' g' := by
  obtain ⟨queue, free, rep, rfl⟩ := impl
  unfold Implements
  rw [changed]
  exact ⟨queue, free, rep.setHeld _, rfl⟩

/-- The innermost process has terminated. -/
theorem release (impl : Implements s stack g) {p : Addr} {index : Nat}
    (safe : s.Safe (.release p)) (changed : view stack' g' = (view stack g).release index p) :
    Implements (s.next (.release p)) stack' g' := by
  obtain ⟨queue, free, rep, rfl⟩ := impl
  obtain ⟨free', rep'⟩ := rep.release safe.1 safe.2 index
  unfold Implements
  rw [changed]
  refine ⟨queue, free', rep', ?_⟩
  have live : ((view stack g).release index p).live = fun q => (view stack g).live q ∧ q ≠ p :=
    funext fun q => propext View.live_release
  simp only [View.sched, live]
  rfl

end Implements

/-! ## Simulation -/

section Simulation

variable {s : Sched Addr} {rest : List Act} {g : Globals}

/-- `main` -/
theorem execMain_simulates {pc : MainPc} (orderly : Orderly (.main pc :: rest))
    (leveled : s.Leveled) (impl : Implements s (.main pc :: rest) g) :
    (execMain pc g).All (Settled (Implements (s.next ((Act.main pc).action g)))) rest := by
  have sound := orderly.sound _ List.mem_cons_self
  cases pc with
  | memoryInit arena memlen => exact sound.elim
  | schedInit => exact sound.elim
  | idleAlloc =>
    simp only [execMain]
    split
    · rename_i index found
      split
      · trivial
      · rename_i record mem made
        exact impl.allocate (findMemIndex_bound found) made
          (View.ext rfl rfl rfl rfl rfl (allocated_alloc ..) rfl rfl)
    · trivial
    · trivial
  | idleFill index record =>
    simp only [execMain, Result.all_call, Settled, Globals.appendFrom, Globals.appendLink_eq]
    refine (impl.create leveled rfl (Nat.zero_le _) ?_).1
    rw [view_enqueue]
    refine congrArg (View.append · record) ?_
    exact View.ext rfl rfl rfl (state_setProc ..) (pri_setProc ..) rfl rfl rfl
  | timerInit => exact impl.silent rfl
  | user => trivial
  | running => trivial

/-- `start` -/
theorem execStart_simulates {args : StartArgs} {pc : StartPc}
    (orderly : Orderly (.start args pc :: rest)) (leveled : s.Leveled)
    (impl : Implements s (.start args pc :: rest) g) :
    (execStart args pc g).All (Settled (Implements (s.next ((Act.start args pc).action g)))) rest := by
  have sound := orderly.sound _ List.mem_cons_self
  cases pc with
  | check =>
    simp only [execStart]
    split
    · trivial
    · split
      · exact impl.silent rfl
      · trivial
      · trivial
  | alloc index =>
    simp only [execStart]
    split
    · trivial
    · rename_i record mem made
      exact impl.allocate sound.1 made
        (View.ext rfl rfl rfl rfl rfl (allocated_alloc ..) rfl rfl)
  | fill index record =>
    have bound : args.pri.toNat ≤ priMax := Int.toNat_le.mpr sound.2
    simp only [execStart, Result.all_call, Settled, Globals.appendFrom, Globals.appendLink_eq]
    refine (impl.create leveled rfl bound ?_).1
    rw [view_enqueue]
    refine congrArg (View.append · record) ?_
    exact View.ext rfl rfl rfl (state_setProc ..) (pri_setProc ..) rfl rfl rfl
  | appended =>
    rw [execStart, Result.all_ret, settled_of_not_queueing (orderly.caller _), returnTo_unit]
    exact impl.silent rfl

/-- `schedule` while it selects a process -/
theorem execSelect_simulates {base : Int} {pc : SelectPc}
    (orderly : Orderly (.select base pc :: rest)) (impl : Implements s (.select base pc :: rest) g) :
    (execSelect base pc g).All (Settled (Implements (s.next ((Act.select base pc).action g))))
      rest := by
  cases pc with
  | top => exact impl.silent rfl
  | chosen highest =>
    simp only [execSelect, Act.action]
    split
    · rw [Result.all_ret, settled_of_not_queueing (orderly.caller _), returnTo_unit]
      exact impl.silent rfl
    · simp only [Result.all_call, Settled, Globals.takeFrom, Globals.takeHead_eq]
      cases head : (g.readyQ highest).head with
      | none =>
        simp only [Globals.enter_readyQ, head]
        rw [impl.take_none head]
        exact impl.silent rfl
      | some p =>
        simp only [Globals.enter_readyQ, head]
        exact impl.take head rfl
  | taking => trivial
  | took r =>
    cases r with
    | none => trivial
    | some p => exact impl.silent rfl

/-- `schedule` while it runs a process -/
theorem execSchedule_simulates {base : Int} {p : Addr} {pc : SchedulePc}
    (safe : s.Safe ((Act.schedule base p pc).action g))
    (impl : Implements s (.schedule base p pc :: rest) g) :
    (execSchedule base p pc g).All
      (Settled (Implements (s.next ((Act.schedule base p pc).action g)))) rest := by
  have calm : pc.calm = true → (Act.schedule base p pc).action g = .skip →
      (execSchedule base p pc g).All
        (Settled (Implements (s.next ((Act.schedule base p pc).action g)))) rest := by
    intro calm skip
    rw [skip]
    exact (execSchedule_quiet calm).imp fun stack g settled =>
      settled.imp fun stack g step => impl.quiet step
  cases pc with
  | dispatch state =>
    cases state with
    | initial => exact impl.silent rfl
    | quiescent => exact impl.mark rfl
    | _ => exact calm rfl rfl
  | initial => exact impl.mark rfl
  | enabled found partner => exact impl.mark rfl
  | disabled partner => exact impl.mark rfl
  | execute execute =>
    cases execute with
    | false => exact impl.silent rfl
    | true => exact impl.silent rfl
  | finish =>
    simp only [execSchedule, Globals.disable_proc, Act.action] at safe ⊢
    cases state : (g.proc p).state with
    | done =>
      rw [state] at safe
      exact impl.release safe
        (View.ext rfl rfl rfl rfl rfl (allocated_release ..) rfl rfl)
    | waiting => exact impl.leave rfl
    | _ => exact impl.silent rfl
  | _ => exact calm rfl rfl

/-- `readyProcessIfNecessary` -/
theorem execReady_simulates {q : Addr} {pc : ReadyPc} (orderly : Orderly (.ready q pc :: rest))
    (leveled : s.Leveled) (safe : s.Safe ((Act.ready q pc).action g))
    (impl : Implements s (.ready q pc :: rest) g) :
    (execReady q pc g).All (Settled (Implements (s.next ((Act.ready q pc).action g)))) rest := by
  have back : ∀ g, Settled (Implements s) rest g ↔ Implements s rest g := fun g =>
    settled_of_not_queueing (by simpa using orderly.caller .unit)
  cases pc with
  | test =>
    have state : s.state q = (g.proc q).state := by
      obtain ⟨queue, free, rep, rfl⟩ := impl
      rfl
    simp only [execReady, Act.action]
    split
    · rename_i enabling
      rw [Result.all_ret, returnTo_unit, Sched.next, if_pos (state.trans enabling),
        settled_of_not_queueing (by simpa using orderly.caller .unit)]
      exact impl.mark rfl
    · rename_i other
      simp only [Result.all_call, Settled, Globals.appendFrom, Globals.appendLink_eq]
      refine impl.ready leveled safe (fun enabling => other (state.symm.trans enabling)) ?_
      rw [view_enqueue]
      refine congrArg (View.append · q) ?_
      have twice : view (.ready q .test :: rest) ((g.setState q .waiting).setState q .ready) =
          view (.ready q .test :: rest) (g.setState q .ready) := by
        rw [view_setState, view_setState, view_setState]
        simp only [Function.update_idem]
      exact twice.trans (view_setState ..)
  | appended =>
    simp only [execReady, callSchedule]
    split
    · trivial
    · split
      · exact impl.silent rfl
      · rw [Result.all_ret, returnTo_unit]
        exact (back _).mpr (impl.silent rfl)
  | scheduling prev =>
    rw [execReady, Result.all_ret, returnTo_unit]
    exact (back _).mpr (impl.silent rfl)

/-- Every step of the running code is the action it stands for. -/
theorem exec_simulates {act : Act} (other : queueing (act :: rest) = false)
    (orderly : Orderly (act :: rest)) (leveled : s.Leveled) (safe : s.Safe (act.action g))
    (impl : Implements s (act :: rest) g) :
    (exec act g).All (Settled (Implements (s.next (act.action g)))) rest := by
  have calm : act.calm = true → act.action g = .skip →
      (exec act g).All (Settled (Implements (s.next (act.action g)))) rest := by
    intro calm skip
    rw [skip]
    exact (exec_quiet calm orderly).imp fun stack g settled =>
      settled.imp fun stack g step => impl.quiet step
  cases act with
  | main pc => exact execMain_simulates orderly leveled impl
  | select base pc => exact execSelect_simulates orderly impl
  | schedule base p pc => exact execSchedule_simulates safe impl
  | take pri pc => cases other
  | append p pc => cases other
  | start args pc => exact execStart_simulates orderly leveled impl
  | ready q pc => exact execReady_simulates orderly leveled safe impl
  | signal intr saved pc =>
    cases pc with
    | handled previously =>
      simp only [exec, execSignal, callScheduleAtCurrent, callSchedule]
      repeat' split
      all_goals first | exact impl.silent rfl | trivial
    | _ => exact calm rfl rfl
  | _ => exact calm rfl rfl

/-- So is every call of application code, where `terminate` finds the executing process in
`current`. -/
theorem execUser_simulates {op : Op} {act : Act} (orderly : Orderly (act :: rest))
    (self : op = .terminate → ∀ p, act = .rtc p → g.current = some p)
    (impl : Implements s (act :: rest) g) :
    (execUser op act g).All (Settled (Implements (s.next (op.action act)))) rest := by
  have calm : op.calm act = true → op.action act = .skip →
      (execUser op act g).All (Settled (Implements (s.next (op.action act)))) rest := by
    intro calm skip
    rw [skip]
    exact (execUser_quiet calm orderly).imp fun stack g settled =>
      settled.imp fun stack g step => impl.quiet step
  cases op with
  | terminate =>
    cases act with
    | rtc p =>
      simp only [execUser, userRtc, self rfl p rfl]
      split
      · exact impl.mark rfl
      · trivial
    | _ => exact calm rfl rfl
  | start args =>
    unfold execUser
    split
    · split
      · exact impl.silent rfl
      · trivial
    · exact impl.silent rfl
    · trivial
  | ret =>
    cases act with
    | main pc =>
      cases pc with
      | user => exact impl.silent rfl
      | _ => trivial
    | _ => exact calm rfl rfl
  | _ => exact calm rfl rfl

/-- The actions of running code are possible. -/
theorem action_possible {act : Act} (impl : Implements s (act :: rest) g) : s.Possible (act.action g) := by
  have held : ∀ p, act.holds = some p → s.held.head? = some p := by
    obtain ⟨queue, free, rep, rfl⟩ := impl
    intro p holds
    simp [View.sched, view, List.filterMap_cons, holds]
  have state : ∀ p, s.state p = (g.proc p).state := by
    obtain ⟨queue, free, rep, rfl⟩ := impl
    exact fun p => rfl
  have fresh : ∀ p, act.reserves = some p → ¬ s.live p := by
    obtain ⟨queue, free, rep, rfl⟩ := impl
    intro p reserves live
    exact live.2 (by simp [view, List.filterMap_cons, reserves])
  unfold Act.action
  split
  · exact fresh _ rfl
  · exact fresh _ rfl
  · split <;> trivial
  · exact List.mem_of_mem_head? (held _ rfl)
  · exact List.mem_of_mem_head? (held _ rfl)
  · exact List.mem_of_mem_head? (held _ rfl)
  · exact List.mem_of_mem_head? (held _ rfl)
  · split
    · rename_i done
      exact ⟨held _ rfl, (state _).trans done⟩
    · rename_i waiting
      exact ⟨_, held _ rfl, (state _).trans waiting⟩
    · trivial
  · trivial
  · trivial

/-- So are those of application code. -/
theorem op_action_possible {op : Op} {act : Act} (orderly : Orderly (act :: rest))
    (impl : Implements s (act :: rest) g) : s.Possible (op.action act) := by
  unfold Op.action
  split
  · rename_i p
    obtain ⟨queue, free, rep, rfl⟩ := impl
    obtain ⟨base, under, rfl | rfl⟩ := (orderly.stacked.1 : Admitted (.rtc p) rest).caller_of_rtc
    · exact List.mem_cons_self
    · exact List.mem_cons_self
  · trivial

end Simulation

/-! ## Runs -/

/-- `terminate` is called where `current` is the executing process. -/
def terminatesItself (label : Label) (s : State) : Bool :=
  match label, s.stack with
  | .user .terminate, .rtc p :: _ => decide (s.g.current = some p)
  | _, _ => true

/-- An invariant of the abstract scheduler that every action under a condition keeps is one of the
machine. -/
theorem Kept.scheduled {ok : Label → State → Prop} (inv : Sched Addr → Prop)
    (may : Sched Addr → SchedAct Addr → Prop)
    (quiet : ∀ label s, ok label s → undisturbed label s = true ∧ Orderly s.stack ∧
      terminatesItself label s = true)
    (leveled : ∀ s, inv s → s.Leveled)
    (safe : ∀ s a, inv s → s.Possible a → may s a → s.Safe a)
    (keeps : ∀ s a, inv s → s.Possible a → may s a → inv (s.next a))
    (allowed : ∀ label stack g s, ok label ⟨stack, g, none⟩ → inv s → Implements s stack g →
      may s (action label ⟨stack, g, none⟩)) :
    Kept ok (Settled fun stack g => ∃ s, Implements s stack g ∧ inv s) := by
  refine Kept.settled (fun label s known => ⟨(quiet label s known).1, (quiet label s known).2.1.stacked⟩)
    ?_ ?_ ?_ ?_
  · rintro act rest g other known ⟨s, impl, holds⟩
    have orderly : Orderly (act :: rest) := (quiet _ _ known).2.1
    have now : may s (act.action g) := allowed _ _ _ s known holds impl
    have possible := action_possible impl
    have all := exec_simulates other orderly (leveled s holds) (safe s _ holds possible now) impl
    have next : inv (s.next (act.action g)) := keeps s _ holds possible now
    exact all.imp fun stack g settled => settled.imp fun stack g impl => ⟨_, impl, next⟩
  · rintro op act rest g known ⟨s, impl, holds⟩
    have orderly : Orderly (act :: rest) := (quiet _ _ known).2.1
    have self : op = .terminate → ∀ p, act = .rtc p → g.current = some p := by
      rintro rfl p rfl
      simpa [terminatesItself] using (quiet _ _ known).2.2
    have now : may s (op.action act) := allowed _ _ _ s known holds impl
    have all := execUser_simulates orderly self impl
    have next : inv (s.next (op.action act)) := keeps s _ holds (op_action_possible orderly impl) now
    exact all.imp fun stack g settled => settled.imp fun stack g impl => ⟨_, impl, next⟩
  · rintro intr stack g - - - ⟨s, impl, holds⟩
    exact ⟨s, impl.silent rfl, holds⟩
  · rintro t stack g ⟨s, impl, holds⟩
    exact ⟨s, impl.silent rfl, holds⟩

/-- The scheduler with no process. -/
def Sched.Vacant (s : Sched Addr) : Prop :=
  (∀ level, s.queue level = []) ∧ s.held = [] ∧ ∀ p, ¬ s.live p

/-- After `sched_init` the machine is in a state of a scheduler with no process. -/
theorem scheduled_init {inv : Sched Addr → Prop} (vacant : ∀ s : Sched Addr, s.Vacant → inv s)
    {arena memlen : Nat} {g : Globals} {handlers : Nat → Option Handler} (pristine : Pristine g) :
    Settled (fun stack g => ∃ s, Implements s stack g ∧ inv s) [.main .idleAlloc] { g with
      mem := g.mem.memoryInit arena memlen, interruptHandler := handlers } := by
  have none : ∀ p, allocated g.log p = false := fun p => by rw [pristine.log]; rfl
  refine ⟨_, ⟨fun _ => [], fun _ => [], ?_, rfl⟩, vacant _ ⟨fun _ => rfl, rfl, fun p live => ?_⟩⟩
  · constructor
    case fifo =>
      intro i
      simp only [view, pristine.queues]
      exact Fifo.empty _
    case mask => simp [view, pristine.mask]
    case bound => exact fun p live => absurd live.1 (by simp [view, none])
    case chain => exact fun i => .nil
    case freed => simp
    case apart => simp
    case below => exact fun p known => absurd known (by simp [view, none])
    case reserved => simp [view, Act.reserves]
    case distinct => exact List.nodup_nil
  · exact absurd live.1 (by simp [view, none])

end Microcsp
