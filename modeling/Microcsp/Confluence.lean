import Microcsp.Lagging

/-!
# The order of the starts

`main` starts the processes of a network in some order, and calls `run`. Whatever the order is, the run
makes moves of the network, and so the values that go through a channel are the same, as far as both runs
have got.
-/

open Library

namespace Microcsp

/-! ## The conditions on the machine -/

section Conditions

variable {K : Type} [DecidableEq K] {net : Network K} {roster : Roster K} {w : Wiring} {s : State}

/-- A guard that is not active is plain. -/
theorem Guard.plain_of_inactive {guard : Guard} {p : Addr} (inactive : guard.active = false) :
    guard.plain p = true := by
  obtain ⟨kind, active⟩ := guard
  cases inactive
  cases kind <;> rfl

/-- Networks without choice are cooperative. -/
theorem cooperative_of_withoutChoice (allowed : net.withoutChoice .machine (s, roster) = true)
    (fits : ∀ p rest, s.stack = .enableAlt p .enter :: rest → Fits net roster w) :
    cooperative w net.pri (net.next s roster) s = true := by
  obtain ⟨stack, g, stopped⟩ := s
  cases stack with
  | nil => rfl
  | cons act rest =>
    cases act with
    | main pc =>
      cases pc with
      | user =>
        cases start : roster.toStart with
        | nil => simp [Network.next, start, cooperative, withoutInterrupts, startsFromMain,
            plainGuards, pointToPoint]
        | cons k others => simp [Network.next, start, cooperative, withoutInterrupts,
            startsFromMain, plainGuards, pointToPoint, Network.args]
      | _ => rfl
    | rtc p =>
      cases todo : roster.todo with
      | nil => simp [Network.next, todo, cooperative, withoutInterrupts, startsFromMain,
          plainGuards, pointToPoint]
      | cons op ops =>
        cases op with
        | start args => simp [Network.withoutChoice, todo] at allowed
        | _ => simp [Network.next, todo, Op.localise, cooperative, withoutInterrupts, startsFromMain,
          plainGuards, pointToPoint]
    | enableAlt p pc =>
      cases pc with
      | enter =>
        simp only [Network.withoutChoice] at allowed
        split at allowed
        · rename_i k i runs only
          have wired := fits p rest rfl p k runs
          obtain ⟨inside, awake⟩ := onlyActive_spec only
          have plain : plainGuards .run ⟨.enableAlt p .enter :: rest, g, stopped⟩ = true := by
            simp only [plainGuards, List.all_eq_true, List.mem_range]
            intro j small
            cases active : (g.guard p j).active with
            | false => exact Guard.plain_of_inactive active
            | true =>
              obtain rfl := onlyActive_eq only small active
              exact (Bool.and_eq_true_iff.mp allowed).1
          have linked : pointToPoint w .run ⟨.enableAlt p .enter :: rest, g, stopped⟩ = true := by
            simp only [pointToPoint, List.all_eq_true, List.mem_range]
            intro j small
            cases active : (g.guard p j).active with
            | false =>
              split
              · rename_i same
                rw [same] at active
                cases active
              · rename_i same
                rw [same] at active
                cases active
              · rfl
            | true =>
              obtain rfl := onlyActive_eq only small active
              rcases communicates_cases allowed awake with ⟨c, dest, len, guard, reads, -⟩ |
                ⟨c, src, guard, writes, -⟩
              · simp only [guard, ((wired c).2 reads), decide_true]
              · simp only [guard, ((wired c).1 writes), decide_true]
          simp only [cooperative, Network.next, withoutInterrupts, startsFromMain, plain, linked,
            Bool.and_self]
        · cases allowed
      | _ => rfl
    | _ => rfl

end Conditions

/-! ## Starting the processes -/

section Starts

variable {K : Type} {net : Network K} {roster roster' : Roster K}
  {stack stack' rest : List Act} {act act' : Act} {g g' : Globals}

/-- `main` has not called `run`, and starts the first one of the processes that are left. -/
inductive Early (net : Network K) (roster : Roster K) : List Act → Prop where
  /-- `main` itself. -/
  | main (pc : MainPc) (early : pc ≠ .running) : Early net roster [.main pc]
  /-- `start` is in progress. -/
  | starting (k : K) (others : List K) (pc : StartPc) (next : roster.toStart = k :: others)
      (more : pc ≠ .appended) : Early net roster [.start (net.args k) pc, .main .user]
  /-- `start` is about to return. -/
  | started (args : StartArgs) : Early net roster [.start args .appended, .main .user]

/-- Processes are started, and none has been executed. -/
structure Gathering (net : Network K) (roster : Roster K) (stack : List Act) (g : Globals) :
    Prop where
  /-- The calls in progress. -/
  early : Early net roster stack
  /-- The processes but for the idle process have programs. -/
  known : ∀ p, initialised stack g p = true → (g.proc p).rtc = .user → ∃ k, roster.runs p = some k
  /-- A process that has a program has its record. -/
  alive : ∀ p k, roster.runs p = some k → initialised stack g p = true
  /-- It is as it was started. -/
  fresh : ∀ p k, roster.runs p = some k → g.own p = (net.program k).initially ∧
    (g.proc p).state = .initial ∧ (g.proc p).rtc = .user
  /-- Each process has its own program. -/
  single : ∀ p q k, roster.runs p = some k → roster.runs q = some k → p = q
  /-- The programs that are left have no process. -/
  apart : ∀ p k, roster.runs p = some k → k ∉ roster.toStart
  /-- They are left once. -/
  distinct : roster.toStart.Nodup
  /-- The records are in the arena. -/
  bounded : ∃ bound, ∀ p k, roster.runs p = some k → p < bound
  /-- Nothing has been transferred. -/
  silent : ∀ c, offers g.log c = [] ∧ copies g.log c = []

/-- A step that leaves the processes alone. -/
theorem Gathering.step (inv : Gathering net roster stack g) (early : Early net roster stack')
    (proc : g'.proc = g.proc) (vars : g'.vars = g.vars) (log : SameTransfers g.log g'.log)
    (life : ∀ q, initialised stack' g' q = initialised stack g q) :
    Gathering net roster stack' g' where
  early := early
  known p alive code := by
    rw [life] at alive
    rw [proc] at code
    exact inv.known p alive code
  alive p k here := (life p).trans (inv.alive p k here)
  fresh p k here := by
    obtain ⟨own, state⟩ := inv.fresh p k here
    have same : SameCode g g' p := .of_proc (congrFun proc p) (congrFun vars p)
    exact ⟨same.own.trans own, by rw [proc]; exact state⟩
  single := inv.single
  apart := inv.apart
  distinct := inv.distinct
  bounded := inv.bounded
  silent c := ⟨(log c).1.trans (inv.silent c).1, (log c).2.1.trans (inv.silent c).2⟩

/-- The record of the idle process is filled. -/
theorem Gathering.fillIdle {record : Addr} (inv : Gathering net roster (act :: rest) g)
    (reserved : act.reserves = some record) (none : act'.reserves = none)
    (early : Early net roster (act' :: rest)) (others : ∀ q, q ≠ record → g'.proc q = g.proc q)
    (idle : (g'.proc record).rtc = .idle) (vars : g'.vars = g.vars)
    (log : SameTransfers g.log g'.log) (alive : allocated g'.log = allocated g.log) :
    Gathering net roster (act' :: rest) g' where
  early := early
  known p living code := by
    have other : p ≠ record := by
      rintro rfl
      rw [idle] at code
      cases code
    rw [others p other] at code
    exact inv.known p ((initialised_fill reserved none alive other).mp living) code
  alive p k here := by
    have before := inv.alive p k here
    have other : p ≠ record := by
      rintro rfl
      rw [not_initialised_reserved reserved] at before
      cases before
    exact (initialised_fill reserved none alive other).mpr before
  fresh p k here := by
    have before := inv.alive p k here
    have other : p ≠ record := by
      rintro rfl
      rw [not_initialised_reserved reserved] at before
      cases before
    have same : SameCode g g' p := .of_proc (others p other) (congrFun vars p)
    rw [same.own, others p other]
    exact inv.fresh p k here
  single := inv.single
  apart := inv.apart
  distinct := inv.distinct
  bounded := inv.bounded
  silent c := ⟨(log c).1.trans (inv.silent c).1, (log c).2.1.trans (inv.silent c).2⟩

/-- The record of the next process is filled. -/
theorem Gathering.fill {record : Addr} {k : K} {others : List K}
    (inv : Gathering net roster (act :: rest) g) (reserved : act.reserves = some record)
    (none : act'.reserves = none) (next : roster.toStart = k :: others)
    (early : Early net { roster with toStart := others } (act' :: rest))
    (same : ∀ q, q ≠ record → g'.proc q = g.proc q) (vars : ∀ q, q ≠ record → g'.vars q = g.vars q)
    (own : g'.own record = (net.program k).initially) (state : (g'.proc record).state = .initial)
    (user : (g'.proc record).rtc = .user)
    (log : SameTransfers g.log g'.log) (alive : allocated g'.log = allocated g.log)
    (living : initialised (act' :: rest) g' record = true) :
    Gathering net { roster with
      toStart := others, runs := Function.update roster.runs record (some k) } (act' :: rest) g' := by
  have missing : ∀ p k', roster.runs p = some k' → p ≠ record := by
    rintro p k' here rfl
    have before := inv.alive p k' here
    rw [not_initialised_reserved reserved] at before
    cases before
  have mem : k ∈ roster.toStart := by
    rw [next]
    exact List.mem_cons_self
  have once : k ∉ others ∧ others.Nodup := by
    have distinct := inv.distinct
    rw [next] at distinct
    exact List.nodup_cons.mp distinct
  -- who runs a program now
  have either : ∀ p k', Function.update roster.runs record (some k) p = some k' →
      p = record ∧ k' = k ∨ p ≠ record ∧ roster.runs p = some k' := by
    intro p k' here
    rcases eq_or_ne p record with rfl | other
    · rw [Function.update_self] at here
      exact Or.inl ⟨rfl, (Option.some.inj here).symm⟩
    · rw [Function.update_of_ne other] at here
      exact Or.inr ⟨other, here⟩
  have sameCode : ∀ p, p ≠ record → SameCode g g' p := fun p other =>
    .of_proc (same p other) (vars p other)
  refine ⟨?_, fun p living' code => ?_, fun p k' here => ?_, fun p k' here => ?_,
    fun p q k' here there => ?_, fun p k' here => ?_, once.2, ?_,
    fun c => ⟨(log c).1.trans (inv.silent c).1, (log c).2.1.trans (inv.silent c).2⟩⟩
  · cases early with
    | main pc early => exact .main pc early
    | starting k' others' pc next' more => exact .starting k' others' pc next' more
    | started args => exact .started args
  · rcases eq_or_ne p record with rfl | other
    · exact ⟨k, Function.update_self ..⟩
    · rw [(sameCode p other).rtc] at code
      obtain ⟨k', here⟩ := inv.known p ((initialised_fill reserved none alive other).mp living') code
      exact ⟨k', (Function.update_of_ne other ..).trans here⟩
  · rcases either p k' here with ⟨rfl, -⟩ | ⟨other, here⟩
    · exact living
    · exact (initialised_fill reserved none alive other).mpr (inv.alive p k' here)
  · rcases either p k' here with ⟨rfl, rfl⟩ | ⟨other, here⟩
    · exact ⟨own, state, user⟩
    · rw [(sameCode p other).own, same p other]
      exact inv.fresh p k' here
  · rcases either p k' here with ⟨rfl, rfl⟩ | ⟨other, here⟩
    · rcases either q k' there with ⟨rfl, -⟩ | ⟨-, there⟩
      · rfl
      · exact absurd mem (inv.apart q k' there)
    · rcases either q k' there with ⟨-, same⟩ | ⟨-, there⟩
      · exact absurd (same ▸ mem) (inv.apart p k' here)
      · exact inv.single p q k' here there
  · rcases either p k' here with ⟨rfl, rfl⟩ | ⟨other, here⟩
    · exact once.1
    · intro left
      exact inv.apart p k' here (next ▸ List.mem_cons_of_mem _ left)
  · obtain ⟨bound, below⟩ := inv.bounded
    refine ⟨max bound (record + 1), fun p k' here => ?_⟩
    rcases either p k' here with ⟨rfl, -⟩ | ⟨-, here⟩
    · exact lt_max_of_lt_right (Nat.lt_succ_self p)
    · exact lt_max_of_lt_left (below p k' here)

/-- What a process sees when its record has been filled. -/
theorem own_initially {p : Addr} {k : K} (vars : g.vars p = (net.program k).locals)
    (guards : (g.proc p).alt.guards = (net.program k).guards) (count : (g.proc p).alt.nrGuards = 0) :
    g.own p = (net.program k).initially := by
  simp only [Globals.own, Globals.locals, Globals.guard, Program.initially, vars, guards, count]

/-- The steps of starting processes. -/
theorem exec_gathering (sound : act.Sound ∨ ∃ pc, act = .main pc)
    (fresh : ∀ index record mem, index < nalloc → g.mem.allocateMem index = some (record, mem) →
      allocated g.log record = false)
    (reserved : ∀ args index record, act = .start args (.fill index record) →
      allocated g.log record = true)
    (inv : Gathering net roster (act :: rest) g) :
    (exec act g).All (Settled (Gathering net (net.note ⟨act :: rest, g, none⟩ roster))) rest := by
  cases inv.early with
  | main pc early =>
    cases pc with
    | memoryInit arena memlen =>
      cases arena with
      | none => trivial
      | some arena =>
        exact inv.step (.main _ (by simp)) rfl rfl (.refl _) (initialised_congr rfl rfl)
    | schedInit => exact inv.step (.main _ (by simp)) rfl rfl (.refl _) (initialised_congr rfl rfl)
    | idleAlloc =>
      simp only [exec, execMain]
      split
      · rename_i index found
        split
        · trivial
        · rename_i record mem made
          exact inv.step (.main _ (by simp)) rfl rfl (fun _ => ⟨rfl, rfl, rfl⟩)
            (initialised_alloc (fresh index record mem (findMemIndex_bound found) made) rfl rfl rfl)
      · trivial
      · trivial
    | idleFill index record =>
      simp only [exec, execMain, Result.all_call, Settled, Globals.appendFrom, Globals.appendLink_eq]
      refine inv.fillIdle rfl rfl (.main _ (by simp)) (fun q other => Globals.setProc_of_ne g _ other)
        ?_ rfl (fun _ => ⟨rfl, rfl, rfl⟩) rfl
      simp [Globals.setProc]
    | timerInit => exact inv.step (.main _ (by simp)) rfl rfl (.refl _) (initialised_congr rfl rfl)
    | user => trivial
    | running => trivial
  | starting k others pc next more =>
    cases pc with
    | check =>
      simp only [exec, execStart]
      split
      · trivial
      · split
        · exact inv.step (.starting k others _ next (by simp)) rfl rfl (.refl _)
            (initialised_congr rfl rfl)
        · trivial
        · trivial
    | alloc index =>
      have bound : index < nalloc := by
        rcases sound with sound | ⟨pc, same⟩
        · exact sound.1
        · cases same
      simp only [exec, execStart]
      split
      · trivial
      · rename_i record mem made
        exact inv.step (.starting k others _ next (by simp)) rfl rfl (fun _ => ⟨rfl, rfl, rfl⟩)
          (initialised_alloc (fresh index record mem bound made) rfl rfl rfl)
    | fill index record =>
      have noted : net.note ⟨[.start (net.args k) (.fill index record), .main .user], g, none⟩ roster =
          { roster with toStart := others, runs := Function.update roster.runs record (some k) } := by
        simp only [Network.note, next]
      rw [noted]
      simp only [exec, execStart, Result.all_call, Settled, Globals.appendFrom, Globals.appendLink_eq]
      refine inv.fill rfl rfl next (.started _) (fun q other => Globals.setProc_of_ne g _ other)
        (fun q other => Function.update_of_ne other _ _) ?_ ?_ ?_ (fun _ => ⟨rfl, rfl, rfl⟩) rfl ?_
      · refine own_initially (Function.update_self ..) ?_ ?_
        · simp [Globals.setProc, Network.args]
        · simp [Globals.setProc]
      · simp [Globals.setProc]
      · simp [Globals.setProc]
      · have before := reserved _ _ _ rfl
        simpa [initialised, allocated, Act.reserves] using before
    | appended => exact absurd rfl more
  | started args =>
    rw [exec, execStart, Result.all_ret, returnTo_unit]
    exact inv.step (.main _ (by simp)) rfl rfl (.refl _) (initialised_congr rfl rfl)

/-- The channels can be wired as the records are. -/
theorem Gathering.fits (inv : Gathering net roster stack g) :
    ∃ w, Fits net roster w := by
  obtain ⟨bound, below⟩ := inv.bounded
  -- the record of a program, or one outside the arena
  have place : ∀ out : Addr, ∃ record : K → Addr, ∀ k,
      (∀ p, roster.runs p = some k → record k = p) ∧
        ((∃ p, roster.runs p = some k ∧ record k = p) ∨ record k = out) := by
    intro out
    have each : ∀ k, ∃ record : Addr, (∀ p, roster.runs p = some k → record = p) ∧
        ((∃ p, roster.runs p = some k ∧ record = p) ∨ record = out) := by
      intro k
      by_cases started : ∃ p, roster.runs p = some k
      · obtain ⟨p, here⟩ := started
        exact ⟨p, fun q there => inv.single p q k here there, Or.inl ⟨p, here, rfl⟩⟩
      · exact ⟨out, fun p here => absurd ⟨p, here⟩ started, Or.inr rfl⟩
    choose record chosen using each
    exact ⟨record, chosen⟩
  obtain ⟨writers, writes⟩ := place bound
  obtain ⟨readers, reads⟩ := place (bound + 1)
  refine ⟨⟨fun c => writers (net.writer c), fun c => readers (net.reader c), fun c same => ?_⟩,
    fun p k here c => ⟨?_, ?_⟩⟩
  · change writers (net.writer c) = readers (net.reader c) at same
    rcases (writes (net.writer c)).2 with ⟨p, here, placed⟩ | out
    · rcases (reads (net.reader c)).2 with ⟨q, there, placed'⟩ | out'
      · rw [placed, placed'] at same
        subst same
        exact net.apart c (Option.some.inj (here.symm.trans there))
      · rw [placed, out'] at same
        exact Nat.lt_asymm (below p _ here) (same ▸ Nat.lt_succ_self bound)
    · rcases (reads (net.reader c)).2 with ⟨q, there, placed'⟩ | out'
      · rw [out, placed'] at same
        exact Nat.lt_irrefl bound (same.symm ▸ below q _ there)
      · rw [out, out'] at same
        exact Nat.succ_ne_self bound same.symm
  · rintro rfl
    exact (writes _).1 p here
  · rintro rfl
    exact (reads _).1 p here

end Starts

/-! ## Runs -/

section Runs

variable {K : Type} [DecidableEq K] {net : Network K} {roster roster' : Roster K} {w : Wiring}
  {s s' first : State}

/-- When `main` calls `run`, the initial executions are due. -/
theorem Gathering.run {g : Globals} {base : Int} (inv : Gathering net roster [.main .user] g) :
    Simulated net roster [.select base .top, .main .running] (g.enter .schedule) := by
  have life : ∀ q, initialised [.select base .top, .main .running] (g.enter .schedule) q =
      initialised [.main .user] g q := initialised_congr rfl rfl
  have phase : ∀ p k, roster.runs p = some k →
      phaseOf [.select base .top, .main .running] ((g.enter .schedule).proc p) p = .fresh := by
    intro p k here
    obtain ⟨-, state, -⟩ := inv.fresh p k here
    change (g.proc p).phase = .fresh
    simp only [Process.phase, state]
  refine ⟨net.initially, .refl _, ?_, ?_, fun p alive code => ?_, inv.single, fun p k _ here => ?_,
    fun p k _ here => ?_, fun p k _ here phased => ?_, fun c => (inv.silent c).1.symm, fun c => (inv.silent c).2.symm⟩
  · exact List.forall_mem_cons.mpr ⟨trivial, List.forall_mem_cons.mpr ⟨rfl, by simp⟩⟩
  · rintro _ ⟨⟩
    trivial
  · rw [life] at alive
    exact inv.known p alive code
  · exact (inv.fresh p k here).2.2
  · obtain ⟨own, -⟩ := inv.fresh p k here
    have same : SameCode g (g.enter .schedule) p := .of_proc rfl rfl
    rw [phase p k here, same.own, own]
    rfl
  · rw [phase p k here] at phased
    simp at phased

/-- What is known of cooperative runs. -/
theorem cooperative_of_run {pri : Nat} (booted : Booted first)
    (run : Run Microcsp.step (fun label s => cooperative w pri label s = true) first s) :
    Starting s.stack s.g ∨
      Cooperative w pri s.stack s.g ∧ Settled (Transfers w) s.stack s.g :=
  ((cooperative_kept w pri).and transfers_kept).from_sched_init
    (fun _ _ _ _ pristine => ⟨cooperative_start pristine, transfers_start pristine⟩) booted run

/-- A reserved record is allocated. -/
theorem Ranks.reserved {stack : List Act} {g : Globals} (ranks : Ranks stack g) {record : Addr}
    (mem : record ∈ stack.filterMap Act.reserves) : allocated g.log record = true := by
  obtain ⟨s, ⟨queue, free, rep, -⟩, -⟩ := ranks.rising
  exact rep.reserved record mem

/-- A step of the running code is one of the innermost activation. -/
theorem apply_of_run {act : Act} {rest : List Act} {g : Globals}
    (stepped : Microcsp.step .run ⟨act :: rest, g, none⟩ = some s') :
    (exec act g).apply ⟨act :: rest, g, none⟩ rest = some s' := by
  simpa [Microcsp.step] using stepped

/-- A call is one of the innermost activation. -/
theorem apply_of_user {op : Op} {act : Act} {rest : List Act} {g : Globals}
    (stepped : Microcsp.step (.user op) ⟨act :: rest, g, none⟩ = some s') :
    (execUser op act g).apply ⟨act :: rest, g, none⟩ rest = some s' := by
  simpa [Microcsp.step] using stepped

/-- A step while the processes are started. -/
theorem Gathering.advance {act : Act} {rest : List Act} {g : Globals}
    (stacked : Starting (act :: rest) g ∨ Ranked (act :: rest) g)
    (settled : Settled (Gathering net roster) (act :: rest) g)
    (stepped : Microcsp.step (net.next ⟨act :: rest, g, none⟩ roster) ⟨act :: rest, g, none⟩ =
      some s') :
    (s'.stopped = none →
      Settled (Gathering net (net.note ⟨act :: rest, g, none⟩ roster)) s'.stack s'.g ∨
        (net.note ⟨act :: rest, g, none⟩ roster).toStart = [] ∧
          (∃ w, Fits net (net.note ⟨act :: rest, g, none⟩ roster) w) ∧
            Settled (Simulated net (net.note ⟨act :: rest, g, none⟩ roster)) s'.stack s'.g) ∧
      (s'.stopped ≠ none → s'.g = g) := by
  -- the running code takes the step
  have runs : ∀ roster' : Roster K, (exec act g).All (Settled (Gathering net roster')) rest →
      (exec act g).apply ⟨act :: rest, g, none⟩ rest = some s' →
      (s'.stopped = none → Settled (Gathering net roster') s'.stack s'.g ∨
        roster'.toStart = [] ∧ (∃ w, Fits net roster' w) ∧
          Settled (Simulated net roster') s'.stack s'.g) ∧ (s'.stopped ≠ none → s'.g = g) := by
    intro roster' all applied
    obtain ⟨goesOn, stops⟩ := all.goesOn applied
    exact ⟨fun running => Or.inl (goesOn running), stops⟩
  have atop : queueing (act :: rest) = true → Stacked (act :: rest) := by
    intro queues
    rcases stacked with starting | ranked
    · obtain ⟨pc, alone⟩ := starting.alone
      rw [alone] at queues
      cases queues
    · exact ranked.orderly.stacked
  have code : queueing (act :: rest) = false → Gathering net roster (act :: rest) g →
      (exec act g).All (Settled (Gathering net (net.note ⟨act :: rest, g, none⟩ roster))) rest := by
    intro other inv
    rcases stacked with starting | ranked
    · obtain ⟨pc, alone⟩ := starting.alone
      obtain ⟨rfl, rfl⟩ := List.cons.inj alone
      refine exec_gathering (Or.inr ⟨pc, rfl⟩) (fun _ _ _ _ _ => ?_) (fun _ _ _ same => ?_) inv
      · rw [starting.log]
        rfl
      · cases same
    · have ranks := ranked.ranks other
      refine exec_gathering (Or.inl (ranks.orderly.sound _ List.mem_cons_self))
        (fun _ _ _ => ranks.fresh) (fun args index record same => ranks.reserved ?_) inv
      rw [same]
      exact List.mem_cons_self
  cases act with
  | take level pc =>
    exact runs roster (execTake_settled (atop rfl).1 settled) (apply_of_run stepped)
  | append p pc =>
    exact runs roster (execAppend_settled (atop rfl).1 settled) (apply_of_run stepped)
  | main pc =>
    have inv : Gathering net roster (.main pc :: rest) g := settled
    cases pc with
    | user =>
      cases inv.early with
      | main pc early =>
        cases left : roster.toStart with
        | nil =>
          simp only [Network.next, left] at stepped
          have all : (execUser .ret (.main .user) g).All (Settled (Simulated net roster)) [] := inv.run
          obtain ⟨goesOn, stops⟩ := all.goesOn (apply_of_user stepped)
          exact ⟨fun running => Or.inr ⟨left, inv.fits, goesOn running⟩, stops⟩
        | cons k others =>
          simp only [Network.next, left] at stepped
          have all : (execUser (.start (net.args k)) (.main .user) g).All
              (Settled (Gathering net roster)) [] :=
            inv.step (.starting k others _ left (by simp)) rfl rfl (.refl _) (initialised_congr rfl rfl)
          obtain ⟨goesOn, stops⟩ := all.goesOn (apply_of_user stepped)
          exact ⟨fun running => Or.inl (goesOn running), stops⟩
    | _ => exact runs _ (code rfl inv) (apply_of_run stepped)
  | start args pc => exact runs _ (code rfl settled) (apply_of_run stepped)
  | _ =>
    have inv : Gathering net roster _ g := settled
    cases inv.early

/-- A step after `main` has called `run`. -/
theorem Simulated.advance {pri : Nat} {act : Act} {rest : List Act} {g : Globals}
    (allowed : net.withoutChoice .machine (⟨act :: rest, g, none⟩, roster) = true)
    (cooperative : Cooperative w pri (act :: rest) g)
    (transfers : Settled (Transfers w) (act :: rest) g) (fits : Fits net roster w)
    (settled : Settled (Simulated net roster) (act :: rest) g)
    (stepped : Microcsp.step (net.next ⟨act :: rest, g, none⟩ roster) ⟨act :: rest, g, none⟩ =
      some s') :
    (s'.stopped = none →
      Settled (Simulated net (net.note ⟨act :: rest, g, none⟩ roster)) s'.stack s'.g) ∧
        (s'.stopped ≠ none → s'.g = g) := by
  have stacked := cooperative.exchanging.2.1.orderly.stacked
  cases act with
  | take level pc =>
    exact (execTake_settled stacked.1 settled).goesOn (apply_of_run stepped)
  | append p pc =>
    exact (execAppend_settled stacked.1 settled).goesOn (apply_of_run stepped)
  | rtc p =>
    obtain ⟨x, reached, inv⟩ : Simulated net roster (.rtc p :: rest) g := settled
    obtain ⟨⟨free, ranked, exchange⟩, cooperates, -⟩ := cooperative
    have ranks := ranked.ranks rfl
    have exchange : Rendezvous w (.rtc p :: rest) g := exchange
    have cooperates : Cooperating pri (.rtc p :: rest) g := cooperates
    have below : Unsignalled rest := fun a mem => free a (List.mem_cons_of_mem _ mem)
    have calls : Unscheduled rest := fun q prev mem =>
      cooperates.unscheduled q prev (List.mem_cons_of_mem _ mem)
    have shape : ∃ base pc, rest = [.schedule base p pc, .main .running] ∧
        (pc.phase (g.proc p).alt).getD (g.proc p).phase = .resting := by
      obtain ⟨base, under, rfl | rfl⟩ := (stacked.1 : Admitted (.rtc p) rest).caller_of_rtc
      · rw [caller_of_schedule stacked.2 rfl below calls]
        exact ⟨base, _, rfl, rfl⟩
      · rw [caller_of_schedule stacked.2 rfl below calls]
        refine ⟨base, _, rfl, ?_⟩
        have fits := exchange.phase _ (List.mem_cons_of_mem _ List.mem_cons_self)
        have state : (g.proc p).state = .quiescent ∨ (g.proc p).state = .done := by
          simpa [Act.Fits, SchedulePc.states] using fits
        change (g.proc p).phase = .resting
        rcases state with state | state <;> simp only [Process.phase, state]
    obtain ⟨base, pc, rfl, phase⟩ := shape
    have alive := ranks.holds.held p (by simp [Act.holds])
    cases code : (g.proc p).rtc with
    | idle =>
      -- the idle process makes no calls
      have stuck : ∀ op, Microcsp.step (.user op)
          ⟨[.rtc p, .schedule base p pc, .main .running], g, none⟩ = none := by
        intro op
        simp [Microcsp.step, execUser, code, Result.apply]
      cases todo : roster.todo with
      | nil =>
        simp only [Network.next, todo, stuck] at stepped
        cases stepped
      | cons op ops =>
        simp only [Network.next, todo, stuck] at stepped
        cases stepped
    | user =>
      obtain ⟨op, next, all⟩ := execUser_lags ranks.coherent.1 code alive phase allowed inv
      rw [next] at stepped
      have simulated : (execUser op (.rtc p) g).All
          (Settled (Simulated net { roster with todo := roster.todo.tail }))
          [.schedule base p pc, .main .running] :=
        all.imp fun stack g settled => settled.imp fun stack g lags => ⟨x, reached, lags⟩
      exact simulated.goesOn (apply_of_user stepped)
  | main pc =>
    obtain ⟨x, reached, inv⟩ : Simulated net roster (.main pc :: rest) g := settled
    obtain rfl : pc = .running := inv.later _ List.mem_cons_self
    cases stepped
  | _ =>
    exact (exec_simulated rfl allowed cooperative transfers fits settled).goesOn (apply_of_run stepped)

/-- No process is started after `main` has called `run`. -/
theorem Simulated.note_runs {act : Act} {rest : List Act} {g : Globals}
    (settled : Settled (Simulated net roster) (act :: rest) g) :
    (net.note ⟨act :: rest, g, none⟩ roster).runs = roster.runs ∧
      (net.note ⟨act :: rest, g, none⟩ roster).toStart = roster.toStart := by
  unfold Network.note
  split
  · rename_i args index record under same
    obtain ⟨rfl, rfl⟩ := List.cons.inj same
    obtain ⟨x, -, inv⟩ : Simulated net roster (.start args (.fill index record) :: rest) g := settled
    exact (inv.later _ List.mem_cons_self).elim
  · exact ⟨rfl, rfl⟩
  · exact ⟨rfl, rfl⟩
  · exact ⟨rfl, rfl⟩
  · exact ⟨rfl, rfl⟩

/-- What a step of the network is to the machine. -/
def Network.due (net : Network K) (label : NetLabel) (both : State × Roster K) : Label :=
  match label with
  | .machine => net.next both.1 both.2
  | .clock t => .clock t

/-- What is known of a run whose steps satisfy a further condition on the machine: it is one of a
cooperative system that makes moves of the network. -/
def Moved (net : Network K) (more : Label → State → Prop) (first : State) (both : State × Roster K) :
    Prop :=
  (∃ x, Run net.moves.step net.moves.Prompt net.initially x ∧
    ∀ c, x.gets c = copies both.1.g.log c) ∧
    (both.1.stopped = none →
      (∀ w, Run Microcsp.step (fun label s => cooperative w net.pri label s = true ∧ more label s)
          first both.1) ∧ Settled (Gathering net both.2) both.1.stack both.1.g ∨
        both.2.toStart = [] ∧ ∃ w, Fits net both.2 w ∧
          Run Microcsp.step (fun label s => cooperative w net.pri label s = true ∧ more label s)
            first both.1 ∧ Settled (Simulated net both.2) both.1.stack both.1.g)

/-- A queue operation copies nothing. -/
theorem copies_of_settled {stack : List Act} {g : Globals}
    (settled : Settled (Simulated net roster) stack g) :
    ∃ x, Run net.moves.step net.moves.Prompt net.initially x ∧ ∀ c, x.gets c = copies g.log c := by
  refine Settled.transfers (fun log => ∃ x, Run net.moves.step net.moves.Prompt net.initially x ∧
    ∀ c, x.gets c = copies log c) (settled.imp ?_) ?_
  · rintro stack g ⟨x, reached, inv⟩
    exact ⟨x, reached, inv.gets⟩
  · rintro log log' same ⟨x, reached, gets⟩
    exact ⟨x, reached, fun c => (gets c).trans (same c).2.1⟩

/-- Nor is anything copied while processes are started. -/
theorem Gathering.copies {stack : List Act} {g : Globals}
    (settled : Settled (Gathering net roster) stack g) :
    ∃ x, Run net.moves.step net.moves.Prompt net.initially x ∧ ∀ c, x.gets c = Microcsp.copies g.log c := by
  refine ⟨net.initially, .refl _, ?_⟩
  refine Settled.transfers (fun log => ∀ c, net.initially.gets c = Microcsp.copies log c)
    (settled.imp ?_) ?_
  · exact fun stack g inv c => (inv.silent c).2.symm
  · exact fun log log' same gets c => (gets c).trans (same c).2.1

/-- The clock does not matter to a queue operation. -/
theorem Settled.clock {P : List Act → Globals → Prop} {stack : List Act} {g : Globals} (t : Time)
    (settled : Settled P stack g)
    (keeps : ∀ stack g, P stack g → P stack { g with now := t }) :
    Settled P stack { g with now := t } := by
  unfold Settled at settled ⊢
  split at settled
  · simp only [Globals.takeFrom_clock]
    exact keeps _ _ settled
  · simp only [Globals.appendFrom_clock]
    exact keeps _ _ settled
  · exact keeps _ _ settled

/-- The machine takes no step from the empty stack, or when the program has stopped. -/
theorem running_of_step {label : Label} (stepped : Microcsp.step label s = some s') :
    s.stopped = none := by
  unfold Microcsp.step at stepped
  split at stepped
  · cases stepped
  · rename_i running
    simpa using running

/-- Every step keeps what is known of a run. -/
theorem Moved.step {label : NetLabel} {both both' : State × Roster K}
    {more : Label → State → Prop} (booted : Booted first)
    (allowed : net.withoutChoice label both = true) (also : more (net.due label both) both.1)
    (known : Moved net more first both) (stepped : net.step label both = some both') :
    Moved net more first both' := by
  obtain ⟨s, roster⟩ := both
  obtain ⟨moves, invs⟩ := known
  cases label with
  | clock t =>
    obtain ⟨s', went, rfl⟩ := Option.map_eq_some_iff.mp stepped
    obtain ⟨running, rfl⟩ : s.stopped = none ∧ { s with g := { s.g with now := t } } = s' := by
      simpa [Microcsp.step] using went
    have free : ∀ w, cooperative w net.pri (.clock t) s = true := fun w => by
      simp [cooperative, withoutInterrupts, startsFromMain, plainGuards, pointToPoint]
    refine ⟨moves, fun _ => ?_⟩
    rcases invs running with ⟨run, settled⟩ | ⟨all, w, fits, run, settled⟩
    · refine Or.inl ⟨fun w => (run w).tail ⟨free w, also⟩ went, settled.clock t fun stack g inv => ?_⟩
      exact inv.step inv.early rfl rfl (.refl _) (initialised_congr rfl rfl)
    · refine Or.inr ⟨all, w, fits, run.tail ⟨free w, also⟩ went,
        settled.clock t fun stack g simulated => ?_⟩
      obtain ⟨x, reached, inv⟩ := simulated
      exact ⟨x, reached, inv.silent rfl rfl (.refl _) (initialised_congr rfl rfl) inv.later
        inv.copying fun _ _ => rfl⟩
  | machine =>
    obtain ⟨s', went, rfl⟩ := Option.map_eq_some_iff.mp stepped
    have running := running_of_step went
    obtain ⟨stack, g, stopped⟩ := s
    obtain rfl : stopped = none := running
    cases stack with
    | nil => simp [Microcsp.step, Network.next] at went
    | cons act rest =>
      rcases invs rfl with ⟨run, settled⟩ | ⟨all, w, fits, run, settled⟩
      · have coop : ∀ w, cooperative w net.pri (net.next ⟨act :: rest, g, none⟩ roster)
            ⟨act :: rest, g, none⟩ = true := by
          refine fun w => cooperative_of_withoutChoice allowed fun p under same => ?_
          obtain ⟨rfl, rfl⟩ := List.cons.inj same
          have inv : Gathering net roster (.enableAlt p .enter :: rest) g := settled
          cases inv.early
        have stacked : Starting (act :: rest) g ∨ Ranked (act :: rest) g := by
          have before := run ⟨fun _ => 0, fun _ => 1, by simp⟩
          rcases cooperative_of_run booted (before.mono fun _ _ both => both.1) with
            starting | ⟨known, -⟩
          · exact Or.inl starting
          · exact Or.inr known.exchanging.2.1
        obtain ⟨goesOn, stops⟩ := Gathering.advance stacked settled went
        refine ⟨?_, fun running => ?_⟩
        · by_cases running : s'.stopped = none
          · rcases goesOn running with gathering | ⟨-, -, simulated⟩
            · exact Gathering.copies gathering
            · exact copies_of_settled simulated
          · rw [stops running]
            exact moves
        · rcases goesOn running with gathering | ⟨all, ⟨w, fits⟩, simulated⟩
          · exact Or.inl ⟨fun w => (run w).tail ⟨coop w, also⟩ went, gathering⟩
          · exact Or.inr ⟨all, w, fits, (run w).tail ⟨coop w, also⟩ went, simulated⟩
      · have coop := cooperative_of_withoutChoice (w := w) allowed fun _ _ _ => fits
        rcases cooperative_of_run booted (run.mono fun _ _ both => both.1) with
          starting | ⟨known, transfers⟩
        · -- the program is not executed before `main` has called `run`
          obtain ⟨pc, alone⟩ := starting.alone
          obtain ⟨rfl, rfl⟩ := List.cons.inj alone
          obtain ⟨x, -, inv⟩ : Simulated net roster [.main pc] g := settled
          obtain rfl : pc = .running := inv.later _ List.mem_cons_self
          cases went
        · obtain ⟨goesOn, stops⟩ := Simulated.advance allowed known transfers fits settled went
          obtain ⟨runs, toStart⟩ := Simulated.note_runs settled
          refine ⟨?_, fun running => Or.inr
            ⟨toStart.trans all, w, ?_, run.tail ⟨coop, also⟩ went, goesOn running⟩⟩
          · by_cases running : s'.stopped = none
            · exact copies_of_settled (goesOn running)
            · rw [stops running]
              exact moves
          · intro p k here
            rw [runs] at here
            exact fits p k here

/-- Before the first step nothing is known, and nothing has happened. -/
theorem moved_start {order : List K} {more : Label → State → Prop} (booted : Booted first)
    (distinct : order.Nodup) : Moved net more first (first, Roster.starting order) := by
  obtain ⟨arena, memlen, same, pristine⟩ := booted.uninitialised
  have inv : Gathering net (Roster.starting order) first.stack first.g := by
    rw [same]
    refine ⟨.main _ (by simp), fun p alive => ?_, fun p k here => ?_, fun p k here => ?_,
      fun p q k here => ?_, fun p k here => ?_, distinct, ⟨0, fun p k here => ?_⟩, fun c => ?_⟩
    · simp [initialised, pristine.log, allocated] at alive
    · cases here
    · cases here
    · cases here
    · cases here
    · cases here
    · rw [pristine.log]
      exact ⟨rfl, rfl⟩
  have settled : Settled (Gathering net (Roster.starting order)) first.stack first.g := by
    rw [same] at inv ⊢
    exact inv
  exact ⟨Gathering.copies settled, fun _ => Or.inl ⟨fun w => .refl _, settled⟩⟩

/-- Every run makes moves of the network: what it has copied from the channels is what was taken from
them in a state that the network can reach. -/
theorem copies_of_moves {order : List K} (booted : Booted first) (distinct : order.Nodup)
    {last : State × Roster K} (run : Run net.step (fun label both => net.withoutChoice label both = true)
      (first, Roster.starting order) last) :
    ∃ x, Run net.moves.step net.moves.Prompt net.initially x ∧ ∀ c, x.gets c = copies last.1.g.log c :=
  (run.invariant (Moved net (fun _ _ => True) first) (moved_start booted distinct)
    fun _ _ _ known allowed stepped => known.step booted allowed trivial stepped).1

/-- The order in which processes are started does not matter: what has gone through a channel in one run
is the beginning of what has gone through it in another one, or the other way round. -/
theorem start_order_indifferent {order order' : List K} (distinct : order.Nodup)
    (distinct' : order'.Nodup) {first first' : State} (booted : Booted first)
    (booted' : Booted first') {last last' : State × Roster K}
    (run : Run net.step (fun label both => net.withoutChoice label both = true)
      (first, Roster.starting order) last)
    (run' : Run net.step (fun label both => net.withoutChoice label both = true)
      (first', Roster.starting order') last') (c : ChanId) :
    copies last.1.g.log c <+: copies last'.1.g.log c ∨
      copies last'.1.g.log c <+: copies last.1.g.log c := by
  obtain ⟨x, reached, gets⟩ := copies_of_moves booted distinct run
  obtain ⟨x', reached', gets'⟩ := copies_of_moves booted' distinct' run'
  rw [← gets, ← gets']
  exact Dataflow.gets_comparable reached reached' c

/-- It outputs two bytes, and adds one to each of them after every output. -/
def countUp : Program where
  locals _ := [1, 2]
  guards _ := ⟨.skip, false⟩
  localSize := 16
  rtc l selected :=
    match selected with
    | none => [.initAlt 1, .initChanoutGuard 0 0 (some ⟨0, 0⟩), .activate 0]
    | some _ => [.assign 0 ((l.vars 0).map (· + 1))]

/-- It inputs one byte at a time. -/
def takeOne : Program where
  locals _ := [0]
  guards _ := ⟨.skip, false⟩
  localSize := 16
  rtc _ selected :=
    match selected with
    | none => [.initAlt 1, .initChaninGuard 0 0 (some ⟨0, 0⟩) 1, .activate 0]
    | some _ => []

/-- The two, with every channel from the first to the second one. -/
def countAndTake : Network Bool where
  program first := if first then countUp else takeOne
  writer _ := true
  reader _ := false
  apart _ := by simp
  pri := 1

theorem start_order_indifferent_in_two : ∃ last last' : State × Roster Bool,
    (copies last.1.g.log 0 <+: copies last'.1.g.log 0 ∨
      copies last'.1.g.log 0 <+: copies last.1.g.log 0) ∧
    copies last.1.g.log 0 = [(1, [1]), (1, [2])] ∧
    copies last'.1.g.log 0 = [(1, [1]), (1, [2]), (1, [3])] := by
  obtain ⟨last, run, seen⟩ := exists_run_of_executeUnder (List.replicate 200 NetLabel.machine)
    (fun both : State × Roster Bool => copies both.1.g.log 0 == [(1, [1]), (1, [2])])
    (by decide +kernel : (executeUnder countAndTake.step countAndTake.withoutChoice
      (List.replicate 200 .machine) (zeroBoot 1000, Roster.starting [true, false])).any _ = true)
  obtain ⟨last', run', seen'⟩ := exists_run_of_executeUnder (List.replicate 300 NetLabel.machine)
    (fun both : State × Roster Bool => copies both.1.g.log 0 == [(1, [1]), (1, [2]), (1, [3])])
    (by decide +kernel : (executeUnder countAndTake.step countAndTake.withoutChoice
      (List.replicate 300 .machine) (zeroBoot 1000, Roster.starting [false, true])).any _ = true)
  rw [beq_iff_eq] at seen seen'
  exact ⟨last, last', start_order_indifferent (by decide) (by decide) (zeroBoot_booted 1000)
    (zeroBoot_booted 1000) run run' 0, seen, seen'⟩

end Runs

end Microcsp
