import Microcsp.Exchange

/-!
# No missed rendezvous

Without interrupts and without `terminate`, a writer and the reader of its channel do not both wait
on it while process code executes or `schedule` selects, as long as `disable_alt` serves every
sender that it returns.
-/

open Library

namespace Microcsp

/-- The process waits on an ALT with such a guard among its guards. -/
def WaitsOnGuard (s : State) (q : Addr) (uses : Alternation → Nat → Prop) : Prop :=
  initialised s.stack s.g q = true ∧ (s.g.proc q).state = .waiting ∧
    ∃ i < (s.g.proc q).alt.nrGuards, uses (s.g.proc q).alt i

/-- The writer waits on an output to the channel, and the reader on an input from it. -/
def Missed (w : Wiring) (s : State) (c : ChanId) : Prop :=
  WaitsOnGuard s (w.writer c) (fun alt i => Sends alt c i) ∧
    WaitsOnGuard s (w.reader c) (fun alt i => Listens alt c i)

/-- The code of a process executes, or `schedule` selects a process. -/
def AtProcess (s : State) : Prop :=
  (codeOf s.stack).isSome = true ∨ ∃ base pc rest, s.stack = .select base pc :: rest

/-- The ALT that is about to be enabled has a guard. -/
def someGuard (label : Label) (s : State) : Bool :=
  match label, s.stack with
  | .run, .enableAlt p .enter :: _ => decide (0 < (s.g.proc p).alt.nrGuards)
  | _, _ => true

/-- There are no interrupts, nothing terminates, every ALT has a guard, and channels are used from one
process to another. -/
def cooperates (w : Wiring) (label : Label) (s : State) : Bool :=
  withoutInterrupts label s && noTermination label s && someGuard label s && pointToPoint w label s

section Waiting

variable {w : Wiring} {stack : List Act} {g : Globals} {q : Addr} {c : ChanId}

/-- The innermost activation is not `schedule` with a process, or `readyProcessIfNecessary`. -/
def AtRest : List Act → Prop
  | .schedule .. :: _ | .ready .. :: _ => False
  | _ => True

/-- An activation has at most one target. -/
theorem Act.one_target (act : Act) : ∃ target : Option Addr, act.targets = target.toList := by
  unfold Act.targets
  split
  · exact ⟨_, rfl⟩
  · exact ⟨_, rfl⟩
  · split
    · exact ⟨none, rfl⟩
    · exact ⟨_, rfl⟩
  · split
    · exact ⟨none, rfl⟩
    · exact ⟨_, rfl⟩
  · split
    · exact ⟨none, rfl⟩
    · exact ⟨_, rfl⟩
  · exact ⟨_, rfl⟩
  · exact ⟨_, rfl⟩
  · rename_i t
    exact ⟨some t, rfl⟩
  · exact ⟨none, rfl⟩

/-- A process that waits is in the channel of each active guard, but for the targets of an output in
progress. -/
theorem Rendezvous.registered (stacked : Stacked stack) (rest : AtRest stack)
    (inv : Rendezvous w stack g) (known : initialised stack g q = true)
    (waits : (g.proc q).state = .waiting) {i : Nat} (inside : i < (g.proc q).alt.nrGuards)
    (uses : Listens (g.proc q).alt c i ∨ Sends (g.proc q).alt c i) :
    g.waiting c = some q ∨ ∃ act ∈ stack.head?, q ∈ act.targets ∧
      ∃ p, (g.proc p).state = .enabling ∧ g.waiting c = some p := by
  by_cases free : q ∈ exempt stack
  · cases stack with
    | nil => cases free
    | cons act under =>
      have focus := inv.focus act rfl
      -- the process in the middle of its ALT does not wait
      have busy : ∀ p state, (g.proc p).state = state → state ≠ .waiting → q ≠ p := by
        rintro p state is other rfl
        exact other (is.symm.trans waits)
      cases act with
      | enableAlt p pc =>
        obtain ⟨base, outer, rfl⟩ :=
          (stacked.1 : Admitted (.enableAlt p) under).caller_of_enableAlt
        have enabling : (g.proc p).state = .enabling := by
          simpa [Act.Fits, SchedulePc.states] using
            inv.phase _ (List.mem_cons_of_mem _ List.mem_cons_self)
        have other := busy p _ enabling (by simp)
        have target : q ∈ (Act.enableAlt p pc).targets := by
          simpa [exempt, Act.inAlt, other] using free
        rcases focus.2 q target waits i inside c uses with own | overtaken
        · exact Or.inl own
        · exact Or.inr ⟨_, rfl, target, p, enabling, overtaken⟩
      | disableAlt p pc =>
        obtain ⟨base, outer, rfl⟩ :=
          (stacked.1 : Admitted (.disableAlt p) under).caller_of_disableAlt
        have ready : (g.proc p).state = .ready := by
          simpa [Act.Fits, SchedulePc.states] using
            inv.phase _ (List.mem_cons_of_mem _ List.mem_cons_self)
        have other := busy p _ ready (by simp)
        exact absurd (by simpa [exempt, Act.inAlt, Act.targets] using free) other
      | schedule base p pc => exact rest.elim
      | ready t pc => exact rest.elim
      | _ => cases free
  · exact Or.inl (((inv.stands q known free).waits waits).listed.here i (List.mem_range.mpr inside) c
      uses)

/-- Where the invariant holds, none is missed. -/
theorem Rendezvous.not_missed (stacked : Stacked stack) (rest : AtRest stack)
    (inv : Rendezvous w stack g) (stopped : Option Stop) : ¬ Missed w ⟨stack, g, stopped⟩ c := by
  rintro ⟨⟨alive, waits, i, inside, sends⟩, ⟨alive', waits', j, inside', listens⟩⟩
  have writer := inv.registered stacked rest alive waits inside (Or.inr sends)
  have reader := inv.registered stacked rest alive' waits' inside' (Or.inl listens)
  have apart := w.apart c
  have other : ∀ p q, (g.proc p).state = .enabling → (g.proc q).state = .waiting → p ≠ q := by
    rintro p q enabling waiting rfl
    exact absurd (enabling.symm.trans waiting) nofun
  rcases writer with here | ⟨act, top, target, p, enabling, here⟩
  · rcases reader with there | ⟨act', top', target', p', enabling', there⟩
    · exact apart (Option.some.inj (here.symm.trans there))
    · exact other p' _ enabling' waits (Option.some.inj (there.symm.trans here))
  · rcases reader with there | ⟨act', top', target', p', enabling', there⟩
    · exact other p _ enabling waits' (Option.some.inj (here.symm.trans there))
    · cases stack with
      | nil => cases top
      | cons act under =>
        cases top
        cases top'
        obtain ⟨t, targets⟩ := act.one_target
        rw [targets, Option.mem_toList] at target target'
        exact apart (Option.some.inj (target.symm.trans target'))

end Waiting

/-! ## Runs -/

/-- Where nothing terminates, a released record is in no queue. -/
theorem releasesUnqueued_of_nesting {label : Label} {s : State} (inv : NestingInv s.stack s.g) :
    ReleasesUnqueued label s := by
  obtain ⟨stack, g, stopped⟩ := s
  obtain ⟨valid, inv⟩ := inv
  unfold ReleasesUnqueued
  split
  · rename_i base p rest same
    obtain rfl : stack = _ := same
    intro done
    exact absurd done (inv.store.live p (inv.nested.frames_valid p List.mem_cons_self))
  · trivial

/-- What is known in the runs of the claim. -/
theorem missed_kept (w : Wiring) : Kept
    (fun label s => cooperates w label s = true ∧ servesPartner label s = true)
    (fun stack g => (Stacked stack ∧ NestingInv stack g) ∧
      Unsignalled stack ∧ Ranked stack g ∧ Settled (Rendezvous w) stack g) := by
  have parts : ∀ label s, cooperates w label s = true → withoutInterrupts label s = true ∧
      noTermination label s = true ∧ pointToPoint w label s = true := by
    intro label s allowed
    simp only [cooperates, Bool.and_eq_true] at allowed
    exact ⟨allowed.1.1.1, allowed.1.1.2, allowed.2⟩
  refine Kept.and (Kept.and (stacked_kept.mono fun _ _ _ => trivial) ?_) ?_
  · exact nestingInv_kept.mono fun label s known => ⟨(parts label s known.1.1).2.1, known.2⟩
  · refine (rendezvous_kept w).mono fun label s known => ?_
    obtain ⟨uninterrupted, -, wired⟩ := parts label s known.1.1
    exact ⟨uninterrupted, wired, known.1.2, releasesUnqueued_of_nesting known.2.2⟩

/-- After `sched_init` there are no records. -/
theorem nestingInv_sched_init {arena memlen : Nat} {g : Globals} {handlers : Nat → Option Handler}
    (pristine : Pristine g) : NestingInv [.main .idleAlloc] { g with
      mem := g.mem.memoryInit arena memlen, interruptHandler := handlers } := by
  have store : StoreOk (fun _ => False) { g with
      mem := g.mem.memoryInit arena memlen, interruptHandler := handlers } := by
    constructor <;>
      simp [pristine.current, pristine.queues, pristine.chan, pristine.ichan, pristine.timeout,
        initChannel, Memory.memoryInit]
  refine ⟨fun _ => False, store, ⟨List.forall_mem_nil _, trivial, trivial⟩, ?_, List.nodup_nil,
    List.forall_mem_nil _⟩
  intro p now
  exact (store.current p now).elim

/-- The code of a process is no part of `schedule`. -/
theorem atRest_of_codeOf {stack : List Act} (code : (codeOf stack).isSome = true) : AtRest stack := by
  cases stack with
  | nil => trivial
  | cons act rest =>
    cases act with
    | schedule base p pc => cases code
    | ready q pc => cases code
    | _ => trivial

theorem AtProcess.atRest {s : State} (process : AtProcess s) : AtRest s.stack := by
  rcases process with code | ⟨base, pc, rest, same⟩
  · exact atRest_of_codeOf code
  · rw [same]
    trivial

/-- In every run without interrupts and `terminate` in which `disable_alt` serves every sender that it
returns, no rendezvous is missed. -/
theorem no_rendezvous_missed {w : Wiring} {first last : State} (booted : Booted first)
    (run : Run step (fun label s => cooperates w label s = true ∧ servesPartner label s = true)
      first last) (process : AtProcess last) (c : ChanId) : ¬ Missed w last c := by
  have base : ∀ arena memlen g handlers, Pristine g →
      (Stacked [.main .idleAlloc] ∧ NestingInv [.main .idleAlloc] { g with
        mem := g.mem.memoryInit arena memlen, interruptHandler := handlers }) ∧
      Unsignalled [.main .idleAlloc] ∧ Ranked [.main .idleAlloc] { g with
        mem := g.mem.memoryInit arena memlen, interruptHandler := handlers } ∧
      Settled (Rendezvous w) [.main .idleAlloc] { g with
        mem := g.mem.memoryInit arena memlen, interruptHandler := handlers } := by
    intro arena memlen g handlers pristine
    refine ⟨⟨orderly_init.stacked, nestingInv_sched_init pristine⟩, ?_, ranked_start pristine,
      rendezvous_start w pristine⟩
    simp [Unsignalled, Act.callee]
  have rest := process.atRest
  obtain ⟨stack, g, stopped⟩ := last
  rcases (missed_kept w).from_sched_init base booted run with starting | ⟨⟨stacked, -⟩, -, -, settled⟩
  · obtain ⟨pc, rfl⟩ := starting.alone
    rcases process with code | ⟨base, pc', rest, same⟩
    · cases code
    · cases same
  · cases stack with
    | nil => exact Rendezvous.not_missed stacked rest settled stopped
    | cons act under =>
      cases act with
      | append q pc =>
        have code : (codeOf under).isSome = true := by
          rcases process with code | ⟨base, pc', rest', same⟩
          · exact code
          · cases same
        have inv : Rendezvous w under (g.appendFrom q pc) := settled
        intro missed
        refine inv.not_missed (c := c) stacked.2 (atRest_of_codeOf code) stopped ?_
        have life : ∀ r, initialised under (g.appendFrom q pc) r =
            initialised (.append q pc :: under) g r := fun r => by
          rw [initialised, Globals.appendFrom_log]
          rfl
        unfold Missed WaitsOnGuard at missed ⊢
        simp only [life, Globals.appendFrom_proc]
        exact missed
      | take pri pc =>
        rcases process with code | ⟨base, pc', rest', same⟩
        · cases code
        · cases same
      | _ => exact Rendezvous.not_missed stacked rest settled stopped

/-- Three processes at records 1024, 1064 and 1104: the second one outputs to the first on channel 0,
the first to the third on channel 2, and the third to the second on the others. -/
def threeInARing : Wiring where
  writer c := if c = 0 then 1064 else if c = 2 then 1024 else 1104
  reader c := if c = 0 then 1024 else if c = 2 then 1104 else 1064
  apart c := by
    split
    · decide
    · split <;> decide

/-- The calls of one execution and its return, and a number of steps of the running code. -/
def executes (ops : List Op) (n : Nat) : List Label := ops.map .user ++ [.user .ret] ++ runs n

/-- The first process waits for an input, and the second one outputs to it. -/
def inputThenOutput : List Label :=
  let start := Label.user (startWith ⟨.skip, true⟩ 1)
  runs 11 ++ [start] ++ runs 10 ++ [start] ++ runs 8 ++ executes [] 8 ++
    executes [.initAlt 1, .initChaninGuard 0 0 (some ⟨1024, 0⟩) 4] 23 ++
    executes [.initAlt 1, .initChanoutGuard 0 0 (some ⟨1064, 0⟩)] 49

/-- The first process is called by the second one and by a timeout. It takes the timeout, and the
second one goes on without having been served, to input from the third, which is already waiting. -/
def calledTwice : List Label :=
  let start := Label.user (startWith ⟨.skip, true⟩ 1)
  runs 11 ++ [start] ++ runs 10 ++ [start] ++ runs 8 ++ [start] ++ runs 8 ++ executes [] 8 ++
    executes [.initAltPri 2, .initTimeoutGuard 0 0 100, .initChaninGuard 1 0 (some ⟨1024, 0⟩) 4,
      .activate 1] 23 ++
    executes [.initAlt 1, .initChanoutGuard 0 0 (some ⟨1064, 0⟩)] 28 ++
    [.clock 200] ++ executes [.initAlt 1, .initChaninGuard 0 2 (some ⟨1104, 0⟩) 4] 39 ++
    executes [.initAlt 1, .initChanoutGuard 0 2 (some ⟨1024, 0⟩)] 34 ++
    executes [.initAlt 2, .initChaninGuard 0 3 (some ⟨1064, 0⟩) 4,
      .initChaninGuard 1 4 (some ⟨1064, 0⟩) 4] 41 ++
    executes [.initChanoutGuard 0 4 (some ⟨1104, 0⟩)] 29 ++
    executes [.initChaninGuard 0 0 (some ⟨1024, 0⟩) 4] 26 ++ executes [] 32 ++
    executes [.deactivate 0, .activate 1] 24

theorem no_rendezvous_missed_after_output :
    ∃ last : State, ¬ Missed threeInARing last 0 ∧ codeOf last.stack = some 1024 := by
  obtain ⟨last, run, executing⟩ := exists_run_of_executeUnder inputThenOutput
    (fun s : State => codeOf s.stack == some 1024)
    (by decide +kernel : (executeUnder step
      (fun label s => cooperates threeInARing label s && servesPartner label s)
      inputThenOutput (zeroBoot 1000)).any _ = true)
  have code : codeOf last.stack = some 1024 := by simpa using executing
  refine ⟨last, no_rendezvous_missed (zeroBoot_booted 1000) (run.mono ?_) (Or.inl ?_) 0, code⟩
  · intro label s allowed
    simpa using allowed
  · rw [code]
    rfl

/-- Where `disable_alt` returns a sender that it has not served, a rendezvous can be missed. -/
theorem rendezvous_missed : ¬ ∀ w first last, Booted first →
    Run step (fun label s => cooperates w label s = true) first last → AtProcess last →
    ∀ c, ¬ Missed w last c := by
  intro always
  obtain ⟨last, run, waiting⟩ := exists_run_of_executeUnder calledTwice
    (fun s : State => codeOf s.stack == some 1000 && initialised s.stack s.g 1104 &&
      initialised s.stack s.g 1064 && (s.g.proc 1104).state == .waiting &&
      (s.g.proc 1064).state == .waiting && decide (0 < (s.g.proc 1104).alt.nrGuards) &&
      decide (1 < (s.g.proc 1064).alt.nrGuards) &&
      s.g.guard 1104 0 == ⟨.chanout 4 (some ⟨1104, 0⟩), true⟩ &&
      s.g.guard 1064 1 == ⟨.chanin 4 (some ⟨1064, 0⟩) 4, true⟩)
    (by decide +kernel : (executeUnder step (cooperates threeInARing) calledTwice
      (zeroBoot 1000)).any _ = true)
  simp only [Bool.and_eq_true, beq_iff_eq, decide_eq_true_eq] at waiting
  obtain ⟨⟨⟨⟨⟨⟨⟨⟨code, writer⟩, reader⟩, waits⟩, waits'⟩, inside⟩, inside'⟩, output⟩, input⟩ := waiting
  refine always threeInARing _ last (zeroBoot_booted 1000) run (Or.inl (by rw [code]; rfl)) 4
    ⟨⟨writer, waits, 0, inside, _, output⟩, ⟨reader, waits', 1, inside', _, _, input⟩⟩

end Microcsp
