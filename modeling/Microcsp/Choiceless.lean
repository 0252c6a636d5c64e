import Microcsp.Rest

/-!
# Networks whose code leaves no choice

Whether every ALT of a network has one active guard, and whether its processes start or end others, can be
seen from its programs and its moves. Then nothing is left to be assumed of a run.
-/

open Library

namespace Microcsp

/-! ## The condition -/

/-- The call starts no process and ends none. -/
def Op.stays : Op → Bool
  | .start _ | .terminate => false
  | _ => true

namespace Network

variable {K : Type} [DecidableEq K] (net : Network K)

/-- The guard type is an input or output of the process. -/
def owns (k : K) (kind : GuardKind) : Bool :=
  match kind with
  | .chanin c _ _ => decide (net.reader c = k)
  | .chanout c _ => decide (net.writer c = k)
  | _ => false

/-- The programs start and end no process, no pointer stands in a guard array before it is initialised,
and wherever the moves lead, each process has one active guard, an input or output of its own. -/
structure Choiceless : Prop where
  /-- The calls. -/
  stays : ∀ k l selected, ∀ op ∈ (net.program k).rtc l selected, op.stays = true
  /-- The guard arrays. -/
  bare : ∀ k i p, ((net.program k).guards i).localise p = (net.program k).guards i
  /-- The guards at each ALT. -/
  decided : ∀ x, Run net.moves.step net.moves.Prompt net.initially x → ∀ k, ∃ i,
    (x.own k).only = some i ∧ net.owns k ((x.own k).guards i).kind = true

end Network

/-! ## Pointers -/

/-- The pointers in the guards of the processes lead to their own variables. -/
def Anchored {K : Type} (roster : Roster K) (g : Globals) : Prop :=
  ∀ p k, roster.runs p = some k → ∀ i, (g.guard p i).localise p = g.guard p i

section Guards

variable {act : Act} {stack rest : List Act} {g g' : Globals} {p : Addr}

/-- No guard has changed. -/
def SameGuards (g g' : Globals) : Prop := ∀ q, (g'.proc q).alt.guards = (g.proc q).alt.guards

theorem SameGuards.of_proc (same : g'.proc = g.proc) : SameGuards g g' := fun q => by rw [same]

theorem SameGuards.setState (state : PState) : SameGuards g (g.setState p state) := fun q => by
  rcases eq_or_ne q p with rfl | other
  · simp [Globals.setState]
  · rw [Globals.setState, g.setProc_of_ne _ other]

theorem SameGuards.setAlt {alt : Alternation} (same : alt.guards = (g.proc p).alt.guards) :
    SameGuards g (g.setAlt p alt) := fun q => by
  rcases eq_or_ne q p with rfl | other
  · simp [Globals.setAlt, same]
  · rw [Globals.setAlt, g.setProc_of_ne _ other]

theorem SameGuards.trans {g'' : Globals} (first : SameGuards g g') (second : SameGuards g' g'') :
    SameGuards g g'' := fun q => (second q).trans (first q)

theorem execEnableAlt_guards (pc : EnablePc) :
    (execEnableAlt p pc g).All (fun _ g' => SameGuards g g') rest := by
  cases pc <;> simp only [execEnableAlt] <;> (repeat' split) <;>
    first
      | trivial
      | exact .of_proc rfl
      | exact .setAlt rfl

theorem execDisableAlt_guards (pc : DisablePc) :
    (execDisableAlt p pc g).All (fun _ g' => SameGuards g g') rest := by
  cases pc with
  | loop i left partner =>
    cases left <;> simp only [execDisableAlt] <;> (repeat' split) <;>
      first
        | trivial
        | exact .of_proc rfl
        | exact .setAlt rfl
  | _ =>
    simp only [execDisableAlt]
    repeat' split
    all_goals first | trivial | exact .of_proc rfl

theorem execSchedule_guards (base : Int) (pc : SchedulePc) :
    (execSchedule base p pc g).All (fun _ g' => SameGuards g g') rest := by
  cases pc <;> simp only [execSchedule, callDisableAlt] <;> (repeat' split) <;>
    first
      | trivial
      | exact .of_proc rfl
      | exact .setState _

/-- The running code changes no guards but those of a new process. -/
theorem exec_guards (other : ∀ args index record, act ≠ .start args (.fill index record)) :
    (exec act g).All (fun _ g' => SameGuards g g') rest := by
  cases act with
  | main pc =>
    cases pc with
    | idleFill index record =>
      intro q
      let alt := { (g.proc record).alt with nrGuards := 0 }
      change ((g.setProc record ⟨.idle, alt, index, priMin, .initial⟩).proc q).alt.guards = _
      rcases eq_or_ne q record with rfl | apart
      · simp [alt]
      · rw [g.setProc_of_ne _ apart]
    | _ =>
      simp only [exec, execMain]
      repeat' split
      all_goals first | trivial | exact .of_proc rfl
  | select base pc =>
    cases pc <;> simp only [exec, execSelect] <;> (repeat' split) <;>
      first
        | trivial
        | exact .of_proc rfl
  | schedule base p pc => exact execSchedule_guards base pc
  | take pri pc =>
    cases pc <;> simp only [exec, execTake] <;> (repeat' split) <;>
      first
        | trivial
        | exact .of_proc rfl
  | append p pc =>
    cases pc <;> simp only [exec, execAppend] <;> (repeat' split) <;>
      first
        | trivial
        | exact .of_proc rfl
  | start args pc =>
    cases pc with
    | fill index record => exact absurd rfl (other args index record)
    | _ =>
      simp only [exec, execStart]
      repeat' split
      all_goals first | trivial | exact .of_proc rfl
  | rtc p => trivial
  | enableAlt p pc => exact execEnableAlt_guards pc
  | disableAlt p pc => exact execDisableAlt_guards pc
  | ready q pc =>
    cases pc <;> simp only [exec, execReady, callSchedule] <;> (repeat' split) <;>
      first
        | trivial
        | exact .of_proc rfl
        | exact .setState _
        | exact SameGuards.trans (.setState .waiting) (.setState .ready)
  | signal intr saved pc =>
    cases pc <;> simp only [exec, execSignal, callScheduleAtCurrent, callSchedule] <;>
      (repeat' split) <;>
      first
        | trivial
        | exact .of_proc rfl
  | timeoutHandler pc =>
    cases pc <;> simp only [exec, execTimeoutHandler, readyOrFault] <;> (repeat' split) <;>
      first
        | trivial
        | exact .of_proc rfl
  | userHandler intrsrc =>
    simp only [exec, execUserHandler]
    repeat' split
    all_goals first | trivial | exact .of_proc rfl

end Guards

section Anchoring

variable {K : Type} {roster roster' : Roster K} {act : Act} {stack rest : List Act} {g g' : Globals} {p : Addr}

theorem Anchored.congr (anchored : Anchored roster g) (runs : roster'.runs = roster.runs)
    (same : SameGuards g g') : Anchored roster' g' := by
  intro p k here i
  rw [runs] at here
  have guard : g'.guard p i = g.guard p i := congrFun (same p) i
  rw [guard]
  exact anchored p k here i

/-- A guard is stored that is anchored. -/
theorem Anchored.setGuard {i : Nat} {guard : Guard} (anchored : Anchored roster g)
    (own : (∃ k, roster.runs p = some k) → guard.localise p = guard) :
    Anchored roster (g.setAlt p ((g.proc p).alt.setGuard i guard)) := by
  intro q k here j
  rcases eq_or_ne q p with rfl | other
  · have stored : (g.setAlt q ((g.proc q).alt.setGuard i guard)).guard q j =
        Function.update (g.guard q) i guard j := by
      simp only [Globals.guard, Globals.setAlt, Globals.setProc_self, Alternation.setGuard]
      rfl
    rw [stored]
    rcases eq_or_ne j i with rfl | apart
    · rw [Function.update_self]
      exact own ⟨k, here⟩
    · rw [Function.update_of_ne apart]
      exact anchored q k here j
  · have same : (g.setAlt p ((g.proc p).alt.setGuard i guard)).guard q j = g.guard q j := by
      simp only [Globals.guard, Globals.setAlt, g.setProc_of_ne _ other]
    rw [same]
    exact anchored q k here j

/-- The calls of an execution keep the pointers of its process. -/
theorem execUser_anchored (op : Op) (anchored : Anchored roster g) :
    (execUser (op.localise p) (.rtc p) g).All (fun _ g' => Anchored roster g') rest := by
  have keeps : ∀ {g'}, SameGuards g g' → Anchored roster g' := fun same => anchored.congr rfl same
  simp only [execUser]
  split
  · cases op with
    | initGuard i kind =>
      simp only [Op.localise, userRtc]
      split
      · trivial
      · refine anchored.setGuard fun known => ?_
        simp only [Guard.localise, GuardKind.localise_localise]
    | initTimeoutGuard i t time =>
      refine Anchored.congr (g := g.setAlt p ((g.proc p).alt.setGuard i
        { (g.proc p).alt.guards i with kind := .timeout t })) (anchored.setGuard fun known => rfl) rfl (.of_proc rfl)
    | setActive i active =>
      refine anchored.setGuard ?_
      rintro ⟨k, here⟩
      have own : ((g.proc p).alt.guards i).kind.localise p = ((g.proc p).alt.guards i).kind :=
        congrArg Guard.kind (anchored p k here i)
      exact congrArg (Guard.mk · active) own
    | _ =>
      simp only [Op.localise, userRtc]
      repeat' split
      all_goals
        first
          | trivial
          | exact keeps (.of_proc rfl)
          | exact keeps (.setState _)
          | exact keeps (.setAlt rfl)
  · trivial

/-- The calls of `main` change no guards. -/
theorem execUser_main_guards (op : Op) :
    (execUser op (.main .user) g).All (fun _ g' => SameGuards g g') rest := by
  simp only [execUser]
  cases op <;> simp only [userMain, callSchedule] <;> (repeat' split) <;>
    first
      | trivial
      | exact .of_proc rfl

end Anchoring

section Steps

variable {K : Type} [DecidableEq K] {net : Network K} {roster : Roster K} {both both' : State × Roster K}
  {first : State} {order : List K}

omit [DecidableEq K] in
/-- The record of a new process gets the guards of its program. -/
theorem Anchored.fill {index : Nat} {record : Addr} {k : K} {others : List K}
    (bare : ∀ i p, ((net.program k).guards i).localise p = (net.program k).guards i)
    (next : roster.toStart = k :: others) {rest : List Act} {g : Globals} (anchored : Anchored roster g) :
    (exec (.start (net.args k) (.fill index record)) g).All (fun _ g' => Anchored
      (net.note ⟨.start (net.args k) (.fill index record) :: rest, g, none⟩ roster) g') rest := by
  let alt := { (g.proc record).alt with guards := (net.program k).guards, nrGuards := 0 }
  let proc : Process := ⟨.user, alt, index, (net.args k).pri.toNat, .initial⟩
  intro p k' here i
  change ((g.setProc record proc).guard p i).localise p = (g.setProc record proc).guard p i
  simp only [Network.note, next] at here
  rcases eq_or_ne p record with rfl | other
  · have guard : (g.setProc p proc).guard p i = (net.program k).guards i := by
      simp only [Globals.guard, Globals.setProc_self]
      rfl
    rw [guard]
    exact bare i p
  · have guard : (g.setProc record proc).guard p i = g.guard p i := by
      simp only [Globals.guard, g.setProc_of_ne _ other]
    rw [guard]
    exact anchored p k' ((Function.update_of_ne other ..).symm.trans here) i

omit [DecidableEq K] in
/-- Only a new record changes which programs are run. -/
theorem note_runs_of_ne {s : State} (other : ∀ args index record rest,
    s.stack ≠ .start args (.fill index record) :: rest) : (net.note s roster).runs = roster.runs := by
  unfold Network.note
  split
  · rename_i args index record rest top
    exact absurd top (other args index record rest)
  all_goals rfl

omit [DecidableEq K] in
/-- Every step keeps the pointers. -/
theorem Anchored.step (bare : ∀ k i p, ((net.program k).guards i).localise p = (net.program k).guards i)
    (starts : ∀ args index record rest, both.1.stack = .start args (.fill index record) :: rest →
      ∃ k others, both.2.toStart = k :: others ∧ args = net.args k)
    {label : NetLabel} (anchored : Anchored both.2 both.1.g) (stepped : net.step label both = some both')
    (running : both'.1.stopped = none) : Anchored both'.2 both'.1.g := by
  obtain ⟨⟨stack, g, stopped⟩, roster⟩ := both
  cases label with
  | clock t =>
    obtain ⟨s', went, rfl⟩ := Option.map_eq_some_iff.mp stepped
    obtain ⟨-, rfl⟩ : stopped = none ∧ (⟨stack, { g with now := t }, stopped⟩ : State) = s' := by
      simpa [Microcsp.step] using went
    exact anchored.congr rfl (.of_proc rfl)
  | machine =>
    obtain ⟨s', went, rfl⟩ := Option.map_eq_some_iff.mp stepped
    obtain rfl : stopped = none := running_of_step went
    cases stack with
    | nil => cases went
    | cons act rest =>
      by_cases fills : ∃ args index record, act = .start args (.fill index record)
      · obtain ⟨args, index, record, rfl⟩ := fills
        obtain ⟨k, others, next, rfl⟩ := starts args index record rest rfl
        exact ((anchored.fill (bare k) next).goesOn (apply_of_run went)).1 running
      · have other : ∀ args index record, act ≠ .start args (.fill index record) :=
          fun args index record same => fills ⟨args, index, record, same⟩
        have runs : (net.note ⟨act :: rest, g, none⟩ roster).runs = roster.runs :=
          note_runs_of_ne fun args index record under same =>
            other args index record (List.cons.inj same).1
        cases act with
        | rtc p =>
          have user : ∃ op : Op, net.next ⟨.rtc p :: rest, g, none⟩ roster = .user (op.localise p) := by
            simp only [Network.next]
            split
            · exact ⟨_, rfl⟩
            · exact ⟨.ret, rfl⟩
          obtain ⟨op, next⟩ := user
          rw [next] at went
          exact (((execUser_anchored op anchored).goesOn (apply_of_user went)).1 running).congr rfl
            (.of_proc rfl)
        | main pc =>
          cases pc with
          | user =>
            have user : ∃ op, net.next ⟨.main .user :: rest, g, none⟩ roster = .user op := by
              simp only [Network.next]
              split
              · exact ⟨_, rfl⟩
              · exact ⟨_, rfl⟩
            obtain ⟨op, next⟩ := user
            rw [next] at went
            exact anchored.congr runs (((execUser_main_guards op).goesOn (apply_of_user went)).1 running)
          | _ => exact anchored.congr runs (((exec_guards other).goesOn (apply_of_run went)).1 running)
        | _ => exact anchored.congr runs (((exec_guards other).goesOn (apply_of_run went)).1 running)

omit [DecidableEq K] in
/-- The calls that are still to be made start and end no process. -/
theorem stays_of_note (stays : ∀ k l selected, ∀ op ∈ (net.program k).rtc l selected, op.stays = true)
    {s : State} (before : ∀ op ∈ roster.todo, op.stays = true) :
    ∀ op ∈ (net.note s roster).todo, op.stays = true := by
  have execution : ∀ g p selected, ∀ op ∈ net.execution roster g p selected, op.stays = true := by
    intro g p selected op mem
    unfold Network.execution at mem
    split at mem
    · exact stays _ _ _ op mem
    · cases mem
  unfold Network.note
  split
  · split <;> exact before
  · exact execution _ _ _
  · exact execution _ _ _
  · exact fun op mem => before op (List.mem_of_mem_tail mem)
  · exact before

/-- The guard is one that the process communicates with. -/
theorem communicates_of_owns {k : K} {p : Addr} {guard : Guard} (own : guard.localise p = guard)
    (owns : net.owns k guard.relative.kind = true) : net.communicates k p guard = true := by
  have pointer : ∀ ptr : Option Ptr, ptr.map (Ptr.localise p) = ptr →
      (ptr.all fun ptr => decide (ptr.proc = p)) = true := by
    intro ptr same
    cases ptr with
    | none => rfl
    | some ptr =>
      rw [Option.map_some, Option.some.injEq] at same
      simp only [Option.all_some, decide_eq_true_eq]
      exact (congrArg Ptr.proc same).symm
  obtain ⟨kind, active⟩ := guard
  have same : kind.localise p = kind := congrArg Guard.kind own
  cases active with
  | false => cases kind <;> exact owns
  | true =>
    cases kind with
    | chanin c dest len =>
      simp only [GuardKind.localise, GuardKind.chanin.injEq, true_and, and_true] at same
      exact Bool.and_eq_true_iff.mpr ⟨pointer dest same, owns⟩
    | chanout c src =>
      simp only [GuardKind.localise, GuardKind.chanout.injEq, true_and] at same
      exact Bool.and_eq_true_iff.mpr ⟨pointer src same, owns⟩
    | _ => cases owns

/-- What is known of a run of such a network. -/
structure Decided (net : Network K) (order : List K) (first : State) (both : State × Roster K) : Prop where
  /-- Its steps so far were without choice. -/
  persists : Persists net order first both
  /-- The pointers in guards. -/
  anchored : both.1.stopped = none → Anchored both.2 both.1.g
  /-- The calls to be made. -/
  stays : ∀ op ∈ both.2.todo, op.stays = true

/-- The next step is without choice, too. -/
theorem Decided.withoutChoice (choiceless : net.Choiceless) (booted : Booted first)
    (known : Decided net order first both) (running : both.1.stopped = none) (label : NetLabel) :
    net.withoutChoice label both = true := by
  obtain ⟨⟨stack, g, stopped⟩, roster⟩ := both
  obtain rfl : stopped = none := running
  unfold Network.withoutChoice
  split
  · rename_i p rest top
    obtain rfl : stack = .enableAlt p .enter :: rest := top
    rcases known.persists.moved.2 rfl with ⟨-, settled⟩ | ⟨-, w, fits, run, settled⟩
    · have inv : Gathering net roster (.enableAlt p .enter :: rest) g := settled
      cases inv.early
    obtain ⟨x, reached, inv⟩ : Simulated net roster (.enableAlt p .enter :: rest) g := settled
    rcases cooperative_of_run booted (run.mono fun _ _ both => both.1) with
      starting | ⟨⟨⟨free, ranked, exchanges⟩, cooperating, -⟩, -⟩
    · obtain ⟨pc, alone⟩ := starting.alone
      cases alone
    have exchange : Rendezvous w (.enableAlt p .enter :: rest) g := exchanges
    have cooperates : Cooperating net.pri (.enableAlt p .enter :: rest) g := cooperating
    have ranks := ranked.ranks rfl
    obtain ⟨base, under, rfl⟩ := (ranks.orderly.stacked.1 : Admitted (.enableAlt p) rest).caller_of_enableAlt
    have alive : initialised (.enableAlt p .enter :: .schedule base p .enabling :: under) g p = true :=
      ranks.holds.held p (by simp [Act.holds])
    have state := exchange.phase _ (List.mem_cons_of_mem _ List.mem_cons_self)
    have user := cooperates.user_of_state alive fun initial => by
      simp [Act.Fits, SchedulePc.states, initial] at state
    obtain ⟨k, here⟩ := inv.known p alive user
    have own : x.own k = g.own p := by
      rw [inv.own p k alive here, phaseOf_cons]
      simp [Act.phase, EnablePc.phase, Program.settle]
    obtain ⟨i, only, owns⟩ := choiceless.decided x reached k
    rw [own] at only owns
    have only : onlyActive (g.guard p) (g.proc p).alt.nrGuards = some i := only
    simp only [here, only]
    exact communicates_of_owns (known.anchored rfl p k here i) owns
  · rename_i p rest top
    cases todo : roster.todo with
    | nil => rfl
    | cons op ops =>
      have stays := known.stays op (by simp [todo])
      cases op <;> first | rfl | cases stays
  · rfl

/-- Nor does it end a process. -/
theorem Decided.everlasting (known : Decided net order first both) (label : NetLabel) :
    Network.everlasting label both = true := by
  unfold Network.everlasting
  split
  · cases todo : both.2.todo with
    | nil => rfl
    | cons op ops =>
      have stays := known.stays op (by simp [todo])
      cases op <;> first | rfl | cases stays
  · rfl

/-- What is known stays so. -/
theorem Decided.step (choiceless : net.Choiceless) (booted : Booted first)
    (known : Decided net order first both) {label : NetLabel} (stepped : net.step label both = some both') :
    Decided net order first both' := by
  have running : both.1.stopped = none := by
    cases label with
    | machine =>
      obtain ⟨s', went, rfl⟩ := Option.map_eq_some_iff.mp stepped
      exact running_of_step went
    | clock t =>
      obtain ⟨s', went, rfl⟩ := Option.map_eq_some_iff.mp stepped
      exact running_of_step went
  have persists := known.persists.step booted (known.withoutChoice choiceless booted running label)
    (known.everlasting label) stepped
  refine ⟨persists, fun running' => ?_, ?_⟩
  · refine (known.anchored running).step choiceless.bare (fun args index record rest top => ?_) stepped running'
    obtain ⟨⟨stack, g, stopped⟩, roster⟩ := both
    obtain rfl : stack = .start args (.fill index record) :: rest := top
    rcases known.persists.moved.2 running with ⟨-, settled⟩ | ⟨-, w, fits, run, settled⟩
    · have inv : Gathering net roster (.start args (.fill index record) :: rest) g := settled
      cases inv.early with
      | starting k others pc next more => exact ⟨k, others, next, rfl⟩
    · obtain ⟨x, -, inv⟩ : Simulated net roster (.start args (.fill index record) :: rest) g := settled
      exact (inv.later _ List.mem_cons_self).elim
  · obtain ⟨s, roster⟩ := both
    cases label with
    | machine =>
      obtain ⟨s', went, rfl⟩ := Option.map_eq_some_iff.mp stepped
      exact stays_of_note choiceless.stays known.stays
    | clock t =>
      obtain ⟨s', went, rfl⟩ := Option.map_eq_some_iff.mp stepped
      exact known.stays

/-- Every run of such a network is without choice, and no process of it terminates. -/
theorem Network.Choiceless.persists (choiceless : net.Choiceless) (booted : Booted first)
    (distinct : order.Nodup) (run : Run net.step Always (first, Roster.starting order) both) :
    Persists net order first both := by
  have initially : Decided net order first (first, Roster.starting order) :=
    ⟨persists_start booted distinct, fun _ p k here => (by cases here), fun op mem => (by cases mem)⟩
  exact (run.invariant (Decided net order first) initially
    fun _ _ _ known _ stepped => known.step choiceless booted stepped).persists

/-- What has gone through the channels of such a network was moved by its moves. -/
theorem Network.Choiceless.copies (choiceless : net.Choiceless) (booted : Booted first)
    (distinct : order.Nodup) (run : Run net.step Always (first, Roster.starting order) both) :
    ∃ x, Run net.moves.step net.moves.Prompt net.initially x ∧ ∀ c, x.gets c = Microcsp.copies both.1.g.log c :=
  (choiceless.persists booted distinct run).moved.1

end Steps

end Microcsp
