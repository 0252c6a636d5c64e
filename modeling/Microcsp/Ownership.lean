import Microcsp.Ranking

/-!
# Ready-queue ownership

A process that can run is in the queue of its priority or in progress, as long as
`readyProcessIfNecessary` is called for processes that it treats rightly. It was meant to append
only processes that wait, but it appends every process that is not enabling, and a process that
waits may still be in progress, in an outer activation of `schedule` that has not looked at its
state again.
-/

open Library

namespace Microcsp

/-- `readyProcessIfNecessary` is called for a process that is enabling, for one that waits and is
not in progress, or for the last one of its queue, where appending it again changes nothing. -/
def readiesRightly (label : Label) (s : State) : Bool :=
  match label, s.stack with
  | .run, .ready q .test :: _ =>
    initialised s.stack s.g q &&
      (decide ((s.g.proc q).state = .enabling) ||
        decide ((s.g.proc q).state = .waiting ∧ q ∉ s.stack.filterMap Act.holds) ||
        decide ((s.g.readyQ (s.g.proc q).pri).tail = some q))
  | _, _ => true

/-- The ready queues, read off the link words, hold each process that can run and is not in
progress once, at its own level, and nothing else. -/
def QueuesOwn (stack : List Act) (g : Globals) : Prop :=
  ∃ queue : Nat → List Addr,
    (∀ i, Fifo g.mem.link (g.readyQ i).head (g.readyQ i).tail (queue i)) ∧
    ∀ i p, (queue i).count p =
      if initialised stack g p = true ∧ ((g.proc p).state = .initial ∨ (g.proc p).state = .ready) ∧
        p ∉ stack.filterMap Act.holds ∧ (g.proc p).pri = i then 1 else 0

/-- The scheduler with no process owns nothing. -/
theorem Sched.Vacant.exact {s : Sched Addr} (vacant : s.Vacant) : s.Exact := by
  obtain ⟨empty, idle, dead⟩ := vacant
  refine ⟨⟨⟨?_, ?_⟩, ?_, ?_, ?_, ?_⟩, ?_, fun p live => absurd live (dead p)⟩ <;>
    simp [empty, idle]

section Representation

variable {s : Sched Addr} {stack : List Act} {g : Globals}

/-- The condition on the state is the one on the abstract scheduler. -/
theorem Implements.mayReadyExactly (impl : Implements s stack g) {label : Label}
    (rightly : readiesRightly label ⟨stack, g, none⟩ = true) :
    s.MayReadyExactly (action label ⟨stack, g, none⟩) := by
  obtain ⟨queue, free, rep, rfl⟩ := impl
  unfold action
  split
  · rename_i act rest same
    obtain rfl : stack = act :: rest := same
    unfold Act.action
    split
    case h_9 q =>
      simp only [readiesRightly, Bool.and_eq_true, Bool.or_eq_true, decide_eq_true_eq] at rightly
      obtain ⟨known, (enabling | ⟨waiting, free⟩) | last⟩ := rightly
      · exact ⟨live_view.mpr known, Or.inl enabling⟩
      · exact ⟨live_view.mpr known, Or.inr (Or.inl ⟨waiting, free⟩)⟩
      · exact ⟨live_view.mpr known, Or.inr (Or.inr ((rep.fifo _).last.symm.trans last))⟩
    all_goals first | trivial | (split <;> trivial)
  · unfold Op.action
    split <;> trivial
  · trivial

/-- Exact ownership of the abstract scheduler, read off the memory. -/
theorem Implements.queuesOwn (impl : Implements s stack g) (own : s.Exact) : QueuesOwn stack g := by
  obtain ⟨queue, free, rep, rfl⟩ := impl
  refine ⟨queue, rep.fifo, fun i p => ?_⟩
  split
  · rename_i can
    obtain ⟨known, runnable, idle, rfl⟩ := can
    refine List.count_eq_one_of_mem (own.once _) ?_
    rcases own.placed p (live_view.mpr known) idle with waiting | queued
    · have state : (g.proc p).state = .waiting := waiting
      rw [state] at runnable
      rcases runnable with wrong | wrong <;> cases wrong
    · exact queued
  · rename_i cannot
    refine List.count_eq_zero_of_not_mem fun queued => cannot ?_
    exact ⟨live_view.mp (own.live i p queued), own.runnable i p queued, own.idle i p queued,
      own.level i p queued⟩

end Representation

/-- The conditions under which every queue holds what it should. -/
def keepsQueues (label : Label) (s : State) : Bool :=
  undisturbed label s && terminatesItself label s && readiesRightly label s

/-- Exact ownership is kept. -/
theorem exact_kept : Kept (fun label s => keepsQueues label s = true ∧ Orderly s.stack)
    (Settled fun stack g => ∃ s, Implements s stack g ∧ s.Exact) := by
  refine Kept.scheduled Sched.Exact Sched.MayReadyExactly ?_ (fun s own => own.toLeveled)
    (fun s a own possible may => own.safe possible (own.mayReady may))
    (fun s a own possible may => own.next possible may) ?_
  · rintro label s ⟨keeps, orderly⟩
    simp only [keepsQueues, Bool.and_eq_true] at keeps
    exact ⟨keeps.1.1, orderly, keeps.1.2⟩
  · rintro label stack g s ⟨keeps, -⟩ - impl
    simp only [keepsQueues, Bool.and_eq_true] at keeps
    exact impl.mayReadyExactly keeps.2

/-- In runs that keep the queues these own what they should. -/
theorem exact_of_run {first s : State} (booted : Booted first)
    (run : Run step (fun label s => keepsQueues label s = true) first s) :
    Starting s.stack s.g ∨ Orderly s.stack ∧
      Settled (fun stack g => ∃ s, Implements s stack g ∧ s.Exact) s.stack s.g := by
  have kept := (orderly_kept.mono fun label s (keeps : keepsQueues label s = true) => by
    simp only [keepsQueues, Bool.and_eq_true] at keeps
    exact keeps.1.1).and exact_kept
  exact kept.from_sched_init (fun arena memlen g handlers pristine =>
    ⟨orderly_init, scheduled_init (fun s => Sched.Vacant.exact) pristine⟩) booted run

/-- Before the scheduler is initialised there is nothing to own. -/
theorem Starting.queuesOwn {stack : List Act} {g : Globals} (starting : Starting stack g) :
    QueuesOwn stack g := by
  refine ⟨fun _ => [], fun i => ?_, fun i p => ?_⟩
  · rw [starting.queues i]
    exact Fifo.empty _
  · rw [if_neg fun can => ?_]
    · rfl
    · simp [initialised, starting.log, allocated] at can

/-- In every run under the conditions, whenever no queue operation is in progress, each process
that can run and is not in progress is once in its own queue, and no other process is queued. -/
theorem ready_queues_own {first last : State} (booted : Booted first)
    (run : Run step (fun label s => keepsQueues label s) first last)
    (boundary : queueing last.stack = false) : QueuesOwn last.stack last.g := by
  have kept := (orderly_kept.mono fun label s keeps => by
    simp only [keepsQueues, Bool.and_eq_true] at keeps
    exact keeps.1.1).and exact_kept
  rcases kept.from_sched_init (fun arena memlen g handlers pristine =>
    ⟨orderly_init, scheduled_init (fun s => Sched.Vacant.exact) pristine⟩) booted run with
    starting | ⟨orderly, settled⟩
  · exact starting.queuesOwn
  · obtain ⟨s, impl, own⟩ := (settled_of_not_queueing boundary).mp settled
    exact impl.queuesOwn own

/-- A process of priority 2 is queued while the one of priority 1 that started it is in progress. -/
theorem ready_queues_own_after_start :
    ∃ last : State, QueuesOwn last.stack last.g ∧ (last.g.readyQ 2).head = some 1064 ∧
      1024 ∈ last.stack.filterMap Act.holds := by
  obtain ⟨last, run, checked⟩ := exists_run_of_executeUnder (startThenTick.take 44)
    (fun s : State => !queueing s.stack && (s.g.readyQ 2).head == some 1064 &&
      decide (1024 ∈ s.stack.filterMap Act.holds))
    (by decide +kernel : (executeUnder step keepsQueues (startThenTick.take 44)
      (zeroBoot 1000)).any _ = true)
  simp only [Bool.and_eq_true, Bool.not_eq_true', beq_iff_eq, decide_eq_true_eq] at checked
  exact ⟨last, ready_queues_own (zeroBoot_booted 1000) run checked.1.1, checked.1.2, checked.2⟩

theorem ready_queues_not_always_own : ¬ ∀ first last, Booted first → Run step Always first last →
    queueing last.stack = false → QueuesOwn last.stack last.g := by
  intro always
  obtain ⟨last, run, wrong⟩ := exists_run_of_execute (comm.take 117)
    (fun s : State => !queueing s.stack && (s.g.readyQ 1).head == some 1024 &&
      decide (1024 ∈ s.stack.filterMap Act.holds))
    (by decide +kernel : (execute step (comm.take 117) (zeroBoot 1000)).any _ = true)
  simp only [Bool.and_eq_true, Bool.not_eq_true', beq_iff_eq, decide_eq_true_eq] at wrong
  obtain ⟨queue, fifo, counts⟩ := always _ last (zeroBoot_booted 1000) run wrong.1.1
  have head := fifo 1
  rw [wrong.1.2] at head
  obtain ⟨rest, cells⟩ := head.eq_cons
  have count := counts 1 1024
  rw [cells, if_neg fun can => can.2.2.1 wrong.2] at count
  simp at count

end Microcsp
