import Microcsp.Ranking
import Microcsp.ReadyQueues

/-!
# Making a process ready

`readyProcessIfNecessary` is to do nothing for a process that is neither enabling nor waiting. Its
second test is an assignment, so that it appends every process that is not enabling, also one that is
in its queue already, and whatever stands behind that process there is lost.
-/

open Library

namespace Microcsp

/-! ## The call as a whole -/

/-- What a call of `readyProcessIfNecessary` comes to. -/
inductive Readied where
  /-- It returns. -/
  | returns (g : Globals)
  /-- It calls `schedule` on behalf of the current process. -/
  | schedules (current : Addr) (g : Globals)
  /-- It reads through a NULL pointer. -/
  | fault

/-- The branch for a process that is taken to be waiting, up to the return of `append`. -/
def readyAppend (g : Globals) (p : Addr) : Globals :=
  (((g.setState p .waiting).setState p .ready).enter .append).appendLink p

/-- `readyProcessIfNecessary`, with interrupts disabled, up to a call of `schedule`. -/
def readyCall (g : Globals) (p : Addr) : Readied :=
  if (g.proc p).state = .enabling then .returns (g.setState p .ready)
  else
    let g := readyAppend g p
    match g.current with
    | none => .fault
    | some c => if (g.proc c).pri < (g.proc p).pri then .schedules c g else .returns g

/-- The globals at the end of the call, or when it calls `schedule`. -/
def Readied.globals : Readied → Option Globals
  | .returns g => some g
  | .schedules _ g => some g
  | .fault => none

/-- A step of the running code that calls, followed by a run. -/
theorem run_call {act act' callee : Act} {rest : List Act} {g g' : Globals} {last : State}
    (made : exec act g = .call act' callee g')
    (run : Run step Always ⟨callee :: act' :: rest, g', none⟩ last) :
    Run step Always ⟨act :: rest, g, none⟩ last := by
  have stepped : step .run ⟨act :: rest, g, none⟩ = some ⟨callee :: act' :: rest, g', none⟩ := by
    simp [step, made, Result.apply]
  exact Run.head trivial stepped run

/-- The state in which the call has come to its result. -/
def Readied.reached (p : Addr) (rest : List Act) : Readied → State → Prop
  | .returns g, last => last = ⟨returnTo .unit rest, g, none⟩
  | .schedules c g, last =>
    last = ⟨.select (g.proc c).pri .top :: .ready p (.scheduling c) :: rest, g.enter .schedule, none⟩
  | .fault, last => last.stopped = some (.fault "current is NULL")

/-- The statements of `readyProcessIfNecessary` come to the whole. -/
theorem ready_runs (g : Globals) (p : Addr) (rest : List Act) :
    ∃ last, Run step Always ⟨.ready p .test :: rest, g, none⟩ last ∧
      (readyCall g p).reached p rest last := by
  unfold readyCall
  by_cases enabling : (g.proc p).state = .enabling
  · rw [if_pos enabling]
    exact ⟨_, run_ret (by simp only [exec, execReady, if_pos enabling]), rfl⟩
  · rw [if_neg enabling]
    have called : exec (.ready p .test) g = .call (.ready p .appended) (.append p .link)
        (((g.setState p .waiting).setState p .ready).enter .append) := by
      simp only [exec, execReady, if_neg enabling]
    have first : ∀ {last : State},
        Run step Always ⟨.ready p .appended :: rest, readyAppend g p, none⟩ last →
        Run step Always ⟨.ready p .test :: rest, g, none⟩ last := fun run =>
      run_call called (Relation.ReflTransGen.trans (append_runs _ p _) run)
    generalize readyAppend g p = g' at first
    simp only
    cases current : g'.current with
    | none =>
      refine ⟨⟨.ready p .appended :: rest, g', some (.fault "current is NULL")⟩,
        first (Run.head trivial (?_ : step .run _ = _) (.refl _)), rfl⟩
      simp [step, exec, execReady, current, Result.apply]
    | some c =>
      by_cases above : (g'.proc c).pri < (g'.proc p).pri
      · refine ⟨_, first (run_call ?_ (.refl _)), by simp only [if_pos above]; rfl⟩
        simp only [exec, execReady, current, if_pos above, callSchedule]
      · refine ⟨_, first (run_ret ?_), by simp only [if_neg above]; rfl⟩
        simp only [exec, execReady, current, if_neg above]

/-! ## What it is for -/

/-- No scheduling state is changed. -/
def SameStates (g g' : Globals) : Prop := ∀ q, (g'.proc q).state = (g.proc q).state

/-- The call returns, and no scheduling state and no ready queue is changed. -/
def ChangesNothing (g : Globals) (queue : Nat → List Addr) (p : Addr) : Prop :=
  ∃ g', readyCall g p = .returns g' ∧ SameStates g g' ∧ InLists g' queue

/-- A second call in a row has no effect. -/
def TwiceAsOnce (g : Globals) (p : Addr) : Prop :=
  ∃ g₁ g₂, readyCall g p = .returns g₁ ∧ readyCall g₁ p = .returns g₂ ∧ SameStates g₁ g₂ ∧
    ∃ queue, InLists g₁ queue ∧ InLists g₂ queue

/-- Every process that was queued is still reached from the head of its queue, when the call returns
or calls `schedule`. -/
def LosesNobody (g : Globals) (queue : Nat → List Addr) (p : Addr) : Prop :=
  ∀ g', (readyCall g p).globals = some g' →
    ∃ queue', InLists g' queue' ∧ ∀ i, ∀ q ∈ queue i, q ∈ queue' i

/-- Readying is idempotent and loses nobody. -/
structure ReadyRight (g : Globals) (queue : Nat → List Addr) (p c : Addr) : Prop where
  /-- A process that is neither enabling nor waiting is left alone. -/
  idle : (g.proc p).state ≠ .enabling → (g.proc p).state ≠ .waiting → ChangesNothing g queue p
  /-- An enabling or waiting process that is not above the current one may be made ready twice. -/
  twice : (g.proc p).state = .enabling ∨ (g.proc p).state = .waiting →
    (g.proc p).pri ≤ (g.proc c).pri → TwiceAsOnce g p
  /-- Nobody is lost. -/
  kept : LosesNobody g queue p

/-- When it is so: an enabling process, unless it is above the current one, and a ready one stand
last in their queue already, a waiting one is not queued or last, and a ready one is not above the
current one. -/
def ReadySafe (g : Globals) (queue : Nat → List Addr) (p c : Addr) : Prop :=
  let last := (queue (g.proc p).pri).getLast? = some p
  match (g.proc p).state with
  | .enabling => (g.proc p).pri ≤ (g.proc c).pri → last
  | .waiting => p ∉ queue (g.proc p).pri ∨ last
  | .ready => last ∧ (g.proc p).pri ≤ (g.proc c).pri
  | _ => False

section Result

variable {g : Globals} {queue : Nat → List Addr} {p c : Addr}

/-- The state of a process does not matter for the queues. -/
theorem InLists.setState (inv : InLists g queue) (state : PState) :
    InLists (g.setState p state) queue := by
  refine ⟨inv.levels, fun i q mem => ?_⟩
  have pri : ((g.setState p state).proc q).pri = (g.proc q).pri := by
    by_cases same : q = p
    · subst same
      simp [Globals.setState, Globals.setProc]
    · rw [Globals.setState_of_ne _ state same]
  rw [pri]
  exact inv.level i q mem

@[simp] theorem readyAppend_pri (q : Addr) : ((readyAppend g p).proc q).pri = (g.proc q).pri := by
  rw [readyAppend, Globals.appendLink_eq, Globals.enqueue_proc, Globals.enter_proc]
  by_cases same : q = p
  · subst same
    simp [Globals.setState, Globals.setProc]
  · rw [Globals.setState_of_ne _ _ same, Globals.setState_of_ne _ _ same]

/-- The process is ready, and no other state is changed. -/
theorem readyAppend_state (q : Addr) :
    ((readyAppend g p).proc q).state = if q = p then .ready else (g.proc q).state := by
  rw [readyAppend, Globals.appendLink_eq, Globals.enqueue_proc, Globals.enter_proc]
  by_cases same : q = p
  · subst same
    simp [Globals.setState, Globals.setProc]
  · rw [Globals.setState_of_ne _ _ same, Globals.setState_of_ne _ _ same, if_neg same]

@[simp] theorem readyAppend_current : (readyAppend g p).current = g.current := by
  rw [readyAppend, Globals.appendLink_eq]
  rfl

/-- The process stands last in its queue, which has lost what stood behind it. -/
theorem readyAppend_lists (inv : InLists g queue) (bound : (g.proc p).pri ≤ priMax) :
    InLists (readyAppend g p) (Function.update queue (g.proc p).pri
      ((queue (g.proc p).pri).takeWhile (fun q => decide (q ≠ p)) ++ [p])) := by
  have stored : InLists ((g.setState p .waiting).setState p .ready) queue :=
    (inv.setState .waiting).setState .ready
  have marked : InLists (((g.setState p .waiting).setState p .ready).enter .append) queue :=
    ⟨stored.levels, stored.level⟩
  have pri : ((((g.setState p .waiting).setState p .ready).enter .append).proc p).pri =
      (g.proc p).pri := by
    simp [Globals.setState, Globals.setProc]
  have requeued := marked.requeue (p := p) (by rw [pri]; exact bound)
  rwa [pri] at requeued

/-- The call, for a process that is not enabling. -/
theorem readyCall_append (running : g.current = some c) (other : (g.proc p).state ≠ .enabling) :
    readyCall g p = if (g.proc c).pri < (g.proc p).pri then .schedules c (readyAppend g p)
      else .returns (readyAppend g p) := by
  simp only [readyCall, if_neg other, readyAppend_current, running, readyAppend_pri]

/-- The queue is the same exactly where the process stood last in it. -/
theorem update_eq_iff (inv : InLists g queue) :
    Function.update queue (g.proc p).pri
        ((queue (g.proc p).pri).takeWhile (fun q => decide (q ≠ p)) ++ [p]) = queue ↔
      (queue (g.proc p).pri).getLast? = some p := by
  rw [← takeWhile_append_eq_iff (inv.levels.fifo _).chain.nodup]
  constructor
  · intro same
    have own := congrFun same (g.proc p).pri
    rwa [Function.update_self] at own
  · intro same
    rw [same, Function.update_eq_self]

/-- A call for a process that is not enabling changes nothing exactly where the process is ready,
stands last in its queue and is not above the current one. -/
theorem changesNothing_iff (inv : InLists g queue) (bound : (g.proc p).pri ≤ priMax)
    (running : g.current = some c) (other : (g.proc p).state ≠ .enabling) :
    ChangesNothing g queue p ↔ (g.proc p).state = .ready ∧
      (queue (g.proc p).pri).getLast? = some p ∧ (g.proc p).pri ≤ (g.proc c).pri := by
  unfold ChangesNothing
  rw [readyCall_append running other]
  have lists := readyAppend_lists inv bound
  constructor
  · rintro ⟨g', made, states, same⟩
    split at made
    · cases made
    · rename_i below
      obtain rfl := Readied.returns.inj made
      have own := states p
      rw [readyAppend_state, if_pos rfl] at own
      exact ⟨own.symm, (update_eq_iff inv).mp (lists.unique same), Nat.le_of_not_lt below⟩
  · rintro ⟨ready, last, below⟩
    rw [if_neg (Nat.not_lt_of_le below)]
    refine ⟨_, rfl, fun q => ?_, ?_⟩
    · rw [readyAppend_state]
      split
      · rename_i same
        rw [same, ready]
      · rfl
    · rwa [(update_eq_iff inv).mpr last] at lists

/-- A second call, for a process that the first one has made ready. -/
theorem readyCall_again {g : Globals} {queue : Nat → List Addr} (inv : InLists g queue)
    (bound : (g.proc p).pri ≤ priMax) (running : g.current = some c)
    (ready : (g.proc p).state = .ready) (below : (g.proc p).pri ≤ (g.proc c).pri) :
    (∃ g₂, readyCall g p = .returns g₂ ∧ SameStates g g₂ ∧
      ∃ queue, InLists g queue ∧ InLists g₂ queue) ↔
      (queue (g.proc p).pri).getLast? = some p := by
  have other : (g.proc p).state ≠ .enabling := by
    rw [ready]
    decide
  have nothing := changesNothing_iff inv bound running other
  constructor
  · rintro ⟨g₂, made, states, others, first, second⟩
    obtain rfl := first.unique inv
    exact (nothing.mp ⟨g₂, made, states, second⟩).2.1
  · intro last
    obtain ⟨g₂, made, states, same⟩ := nothing.mpr ⟨ready, last, below⟩
    exact ⟨g₂, made, states, queue, inv, same⟩

/-- A waiting process that is not above the current one may be made ready twice. -/
theorem twiceAsOnce_waiting (inv : InLists g queue) (bound : (g.proc p).pri ≤ priMax)
    (running : g.current = some c) (waiting : (g.proc p).state = .waiting)
    (below : (g.proc p).pri ≤ (g.proc c).pri) : TwiceAsOnce g p := by
  have other : (g.proc p).state ≠ .enabling := by
    rw [waiting]
    decide
  have first : readyCall g p = .returns (readyAppend g p) := by
    rw [readyCall_append running other, if_neg (Nat.not_lt_of_le below)]
  have again := readyCall_again (readyAppend_lists inv bound) (by simpa using bound)
    (by simpa using running) (by rw [readyAppend_state, if_pos rfl]) (by simpa using below)
  obtain ⟨g₂, second, same⟩ := again.mpr (by simp)
  exact ⟨_, g₂, first, second, same⟩

/-- An enabling process that is not above the current one may be made ready twice exactly where it
stands last in its queue. -/
theorem twiceAsOnce_enabling (inv : InLists g queue) (bound : (g.proc p).pri ≤ priMax)
    (running : g.current = some c) (enabling : (g.proc p).state = .enabling)
    (below : (g.proc p).pri ≤ (g.proc c).pri) :
    TwiceAsOnce g p ↔ (queue (g.proc p).pri).getLast? = some p := by
  have first : readyCall g p = .returns (g.setState p .ready) := by
    rw [readyCall, if_pos enabling]
  have pri : ∀ q, ((g.setState p .ready).proc q).pri = (g.proc q).pri := by
    intro q
    by_cases same : q = p
    · subst same
      simp [Globals.setState, Globals.setProc]
    · rw [Globals.setState_of_ne _ _ same]
  have ready : ((g.setState p .ready).proc p).state = .ready := by
    simp [Globals.setState, Globals.setProc]
  have again := readyCall_again (inv.setState (p := p) .ready) (by rw [pri]; exact bound)
    (by simpa using running) ready (by rw [pri, pri]; exact below)
  rw [pri] at again
  rw [← again]
  constructor
  · rintro ⟨g₁, g₂, made, second, same⟩
    obtain rfl := Readied.returns.inj (first.symm.trans made)
    exact ⟨g₂, second, same⟩
  · rintro ⟨g₂, second, same⟩
    exact ⟨_, g₂, first, second, same⟩

/-- Nobody is lost exactly where the process is enabling, or is not queued, or stands last. -/
theorem losesNobody_iff (inv : InLists g queue) (bound : (g.proc p).pri ≤ priMax)
    (running : g.current = some c) :
    LosesNobody g queue p ↔ (g.proc p).state = .enabling ∨
      p ∉ queue (g.proc p).pri ∨ (queue (g.proc p).pri).getLast? = some p := by
  unfold LosesNobody
  by_cases enabling : (g.proc p).state = .enabling
  · refine iff_of_true (fun g' made => ?_) (Or.inl enabling)
    rw [readyCall, if_pos enabling] at made
    obtain rfl := Option.some.inj made
    exact ⟨queue, inv.setState .ready, fun i q mem => mem⟩
  · have reached : (readyCall g p).globals = some (readyAppend g p) := by
      rw [readyCall_append running enabling]
      split <;> rfl
    have lists := readyAppend_lists inv bound
    have kept := subset_takeWhile_append_iff (b := p) (inv.levels.fifo (g.proc p).pri).chain.nodup
    rw [← kept, or_iff_right enabling]
    constructor
    · intro all q mem
      obtain ⟨queue', same, subset⟩ := all _ reached
      obtain rfl := same.unique lists
      have found := subset _ q mem
      rwa [Function.update_self] at found
    · intro all g' made
      obtain rfl := Option.some.inj (reached.symm.trans made)
      refine ⟨_, lists, fun i q mem => ?_⟩
      by_cases same : i = (g.proc p).pri
      · subst same
        rw [Function.update_self]
        exact all q mem
      · rwa [Function.update_of_ne same]

end Result

/-- In every well-formed state, and for every process, `readyProcessIfNecessary` is idempotent and
loses nobody exactly where this is safe. -/
theorem ready_right_iff {g : Globals} {queue : Nat → List Addr} (inv : InLists g queue)
    {p c : Addr} (bound : (g.proc p).pri ≤ priMax) (running : g.current = some c) :
    ReadyRight g queue p c ↔ ReadySafe g queue p c := by
  have nobody := losesNobody_iff inv bound running
  unfold ReadySafe
  cases state : (g.proc p).state with
  | enabling =>
    have twice := twiceAsOnce_enabling inv bound running state
    simp only
    constructor
    · intro right below
      exact (twice below).mp (right.twice (Or.inl state) below)
    · intro last
      exact ⟨fun other => absurd state other, fun _ below => (twice below).mpr (last below),
        nobody.mpr (Or.inl state)⟩
  | waiting =>
    have kept : LosesNobody g queue p ↔
        p ∉ queue (g.proc p).pri ∨ (queue (g.proc p).pri).getLast? = some p := by
      simpa [state] using nobody
    constructor
    · intro right
      exact kept.mp right.kept
    · intro safe
      exact ⟨fun _ other => absurd state other,
        fun _ below => twiceAsOnce_waiting inv bound running state below, kept.mpr safe⟩
  | ready =>
    have nothing := changesNothing_iff inv bound running (p := p) (by rw [state]; decide)
    constructor
    · intro right
      have is := nothing.mp (right.idle (by rw [state]; decide) (by rw [state]; decide))
      exact is.2
    · intro safe
      refine ⟨fun _ _ => nothing.mpr ⟨state, safe⟩, ?_, nobody.mpr (Or.inr (Or.inr safe.1))⟩
      rintro (enabling | waiting)
      · rw [state] at enabling
        cases enabling
      · rw [state] at waiting
        cases waiting
  | _ =>
    have nothing := changesNothing_iff inv bound running (p := p) (by rw [state]; decide)
    refine iff_of_false (fun right => ?_) id
    have is := nothing.mp (right.idle (by rw [state]; decide) (by rw [state]; decide))
    rw [state] at is
    cases is.1

/-- A waiting process and the process that readies it, with empty queues. -/
theorem ready_right_iff_waiting : ∃ g : Globals, (g.proc 1064).state = .waiting ∧
    g.current = some 1104 ∧ (ReadyRight g (fun _ => []) 1064 1104 ↔
      ReadySafe g (fun _ => []) 1064 1104) := by
  obtain ⟨g, left⟩ : ∃ g, execMain .schedInit { twoLevels with mem := twoLevels.mem } =
      .next (.main .idleAlloc) g := ⟨_, rfl⟩
  have empty := inLists_of_sched_init twoLevels_pristine left
  have running : InLists { g with current := some 1104 } fun _ => [] := ⟨empty.levels, empty.level⟩
  have waiting := running.setState (p := 1064) .waiting
  have bound : (({ g with current := some 1104 }.setState 1064 .waiting).proc 1064).pri ≤ priMax := by
    simp only [execMain, Result.next.injEq, true_and] at left
    subst left
    decide
  refine ⟨_, ?_, rfl, ready_right_iff waiting bound rfl⟩
  simp [Globals.setState, Globals.setProc]

/-! ## Where a process is lost -/

/-- Where no queue operation is in progress, the ready queues are well formed. -/
theorem Ranked.inLists {stack : List Act} {g : Globals} (ranked : Ranked stack g)
    (other : queueing stack = false) : ∃ queue, InLists g queue := by
  obtain ⟨s, impl, rising⟩ := (ranked.ranks other).rising
  obtain ⟨queue, free, rep, rfl⟩ := impl
  exact ⟨queue, rep.levels, fun i p mem => rising.level i p mem⟩

/-- Two processes of one level wait for their interrupts, and while one of another level executes
these come, that of the first one twice. -/
def interruptTwice : List Label :=
  let waitFor := fun intrno : Nat => startWith ⟨.interrupt intrno none, true⟩
  runs 11 ++ [.user (waitFor 0 1)] ++ runs 10 ++ [.user (waitFor 1 1)] ++ runs 8 ++
    [.user (waitFor 2 2)] ++ runs 10 ++
    [.user (.connect 0 0), .user (.connect 1 1), .user (.connect 2 2), .user .ret] ++ runs 10 ++
    [.user (.initAlt 1), .user .ret] ++ runs 21 ++ [.user (.initAlt 1), .user .ret] ++ runs 23 ++
    [.user (.initAlt 1), .user .ret] ++ runs 23 ++ [.interrupt 5] ++ runs 26 ++ [.interrupt 3] ++
    runs 13 ++ [.interrupt 4] ++ runs 11 ++ [.interrupt 3] ++ runs 2

/-- The second interrupt of the first process finds it queued before the other one, which is lost. -/
theorem ready_loses_another : ∃ (last : State) (queue : Nat → List Addr),
    Run step Always (zeroBoot 32768) last ∧
    last.stack.head?.any (· matches .ready 1024 .test) = true ∧ last.g.masked = true ∧
    InLists last.g queue ∧ (last.g.proc 1024).state = .ready ∧ queue 1 = [1024, 1064] ∧
    ¬ReadyRight last.g queue 1024 1104 := by
  obtain ⟨last, run, checked⟩ := exists_run_of_executeUnder interruptTwice
    (fun s : State => s.stack.head?.any (· matches .ready 1024 .test) && s.g.masked &&
      !queueing s.stack && (s.g.readyQ 1).head == some 1024 && s.g.mem.link 1024 == some 1064 &&
      s.g.mem.link 1064 == none && s.g.current == some 1104 &&
      decide ((s.g.proc 1024).pri = 1) && (s.g.proc 1024).state == .ready)
    (by decide +kernel : (executeUnder step (fun label s => guarded label s &&
      preemptsNothing label s && readiesLive label s && releasesAlone label s) interruptTwice
        (zeroBoot 32768)).any _ = true)
  simp only [Bool.and_eq_true, Bool.not_eq_true', beq_iff_eq, decide_eq_true_eq] at checked
  obtain ⟨⟨⟨⟨⟨⟨⟨⟨top, masked⟩, other⟩, head⟩, next⟩, bottom⟩, running⟩, pri⟩, ready⟩ := checked
  have regular : Run step (fun label s => Regular label s) (zeroBoot 32768) last := by
    refine run.mono fun label s keeps => ?_
    simp only [Bool.and_eq_true] at keeps
    exact ⟨keeps.1.1.1, keeps.1.1.2, keeps.1.2, releasesUnqueued_of_alone keeps.2⟩
  have anyhow : Run step Always (zeroBoot 32768) last := run.mono fun _ _ _ => trivial
  have ranked : Ranked last.stack last.g := by
    rcases ranked_kept.from_sched_init (fun _ _ _ _ => ranked_start) (zeroBoot_booted 32768)
      regular with starting | ranked
    · obtain ⟨pc, alone⟩ := starting.alone
      rw [alone] at top
      cases top
    · exact ranked
  obtain ⟨queue, inv⟩ := ranked.inLists other
  have cells : queue 1 = [1024, 1064] := by
    have chain := (inv.levels.fifo 1).chain
    rw [head] at chain
    have listed : Chain last.g.mem.link (some 1024) [1024, 1064] := by
      refine .cons ?_
      rw [next]
      refine .cons ?_
      rw [bottom]
      exact .nil
    exact chain.unique listed
  refine ⟨last, queue, anyhow, top, masked, inv, ready, cells, fun right => ?_⟩
  have bound : (last.g.proc 1024).pri ≤ priMax := by
    rw [pri]
    decide
  have kept := (losesNobody_iff inv bound running).mp right.kept
  rw [ready, pri, cells] at kept
  simp at kept

end Microcsp
