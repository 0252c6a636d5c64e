import Microcsp.Cooperation
import Microcsp.Missed

/-!
# The transfers

In cooperative systems every value that is output on a channel is copied once and in order: what a
writer has offered is what the reader has copied, and the value in the channel while the writer waits
there. An output is completed, by the execution after it, when its value has been copied.
-/

open Library

namespace Microcsp

/-! ## The invariant -/

/-- The bytes copied are the first ones of the value, as many as were asked for. -/
def Cut (copied : Nat × Buffer) (value : Buffer) : Prop := copied.2 = value.take copied.1

/-- The channel whose data has been copied and whose `waiting` is about to be cleared. -/
def cleared : List Act → Option ChanId
  | .disableAlt _ (.clear c _) :: _ => some c
  | _ => none

/-- The writer waits in the channel with a value that is not copied. -/
def Held (w : Wiring) (stack : List Act) (g : Globals) (c : ChanId) : Prop :=
  g.waiting c = some (w.writer c) ∧ cleared stack ≠ some c

/-- An activation has the process in an ALT that has output to the channel. -/
def Act.sends (alt : Alternation) (q : Addr) (c : ChanId) : Act → Prop
  | .enableAlt p (.loop i k _) => p = q ∧
      ∃ j ∈ downFrom alt.nrGuards (minus1Mod i alt.nrGuards) k, Sends alt c j
  | .enableAlt p (.done _ _ _ _) | .schedule _ p (.enabled _ _) =>
    p = q ∧ ∃ j < alt.nrGuards, Sends alt c j
  | .schedule _ p (.partner _ true) | .schedule _ p (.readying true)
  | .schedule _ p (.execute true) => p = q ∧ Sends alt c alt.index
  | _ => False

/-- The process has output to the channel, and has not been executed after that. -/
def Sending (stack : List Act) (g : Globals) (q : Addr) (c : ChanId) : Prop :=
  initialised stack g q = true ∧
    ((((g.proc q).state = .waiting ∨ (g.proc q).state = .ready) ∧
      ∃ j < (g.proc q).alt.nrGuards, Sends (g.proc q).alt c j) ∨
        ∃ act ∈ stack, act.sends (g.proc q).alt q c)

/-- The guard that is selected is active. -/
structure Picks (w : Wiring) (p : Addr) (alt : Alternation) : Prop extends Wired w p alt where
  /-- It is one of the guards. -/
  inside : alt.index < alt.nrGuards
  /-- It is active. -/
  active : (alt.guards alt.index).active = true

/-- When the guards have been disabled, the index is that of an active one. -/
def Act.Picked (w : Wiring) (g : Globals) : Act → Prop
  | .disableAlt p (.copy _ _ _ _) | .disableAlt p (.clear _ _) | .schedule _ p (.disabled _)
  | .schedule _ p (.partner _ true) | .schedule _ p (.readying true)
  | .schedule _ p (.execute true) => Picks w p (g.proc p).alt
  | _ => True

/-- The values copied from a channel are those that were output, but for the one that is held. -/
def Delivers (w : Wiring) (stack : List Act) (g : Globals) (c : ChanId) : Prop :=
  ∃ values, List.Forall₂ Cut (copies g.log c) values ∧
    (Held w stack g c → offers g.log c = values ++ [g.read (g.chan c).src] ∧
      ∀ ptr ∈ (g.chan c).src, ptr.proc = w.writer c) ∧
    (¬ Held w stack g c → offers g.log c = values)

/-- All outputs are completed, but for the one that is under way. -/
def CompletesOutputs (w : Wiring) (stack : List Act) (g : Globals) (c : ChanId) : Prop :=
  (Sending stack g (w.writer c) c → (offers g.log c).length = completions g.log c + 1) ∧
    (¬ Sending stack g (w.writer c) c → (offers g.log c).length = completions g.log c)

/-- The invariant. -/
structure Transfers (w : Wiring) (stack : List Act) (g : Globals) : Prop where
  /-- The guards that are selected are active. -/
  picked : ∀ act ∈ stack, act.Picked w g
  /-- A value is held while its output is under way. -/
  held : ∀ c, Held w stack g c → Sending stack g (w.writer c) c
  /-- The values are delivered in order. -/
  delivers : ∀ c, Delivers w stack g c
  /-- The outputs are completed. -/
  completes : ∀ c, CompletesOutputs w stack g c

/-- Nothing was offered, copied or completed. -/
def SameTransfers (log log' : List Event) : Prop :=
  ∀ c, offers log' c = offers log c ∧ copies log' c = copies log c ∧
    completions log' c = completions log c

/-! ## Steps in general -/

section General

variable {w : Wiring} {stack stack' rest : List Act} {act act' callee : Act} {g g' : Globals}
  {q : Addr} {c : ChanId}

/-- A process whose record does not change sends as before. -/
theorem sending_congr (life : initialised stack' g' q = initialised stack g q)
    (proc : g'.proc q = g.proc q) (acts : (∃ a ∈ stack', a.sends (g.proc q).alt q c) ↔
      ∃ a ∈ stack, a.sends (g.proc q).alt q c) :
    Sending stack' g' q c ↔ Sending stack g q c := by
  unfold Sending
  rw [life, proc, acts]

/-- A step that transfers nothing. -/
theorem Transfers.step (inv : Transfers w stack g) (picked : ∀ act ∈ stack', act.Picked w g')
    (sending : ∀ c, Sending stack' g' (w.writer c) c ↔ Sending stack g (w.writer c) c)
    (held : ∀ c, Held w stack' g' c ↔ Held w stack g c)
    (source : ∀ c, Held w stack g c → (g'.chan c).src = (g.chan c).src ∧
      g'.read (g.chan c).src = g.read (g.chan c).src)
    (log : SameTransfers g.log g'.log) : Transfers w stack' g' where
  picked := picked
  held c here := (sending c).mpr (inv.held c ((held c).mp here))
  delivers c := by
    obtain ⟨values, cut, waits, free⟩ := inv.delivers c
    obtain ⟨offered, copied, -⟩ := log c
    refine ⟨values, copied ▸ cut, fun here => ?_, fun none => ?_⟩
    · have before := (held c).mp here
      obtain ⟨src, read⟩ := source c before
      rw [offered, src, read]
      exact waits before
    · rw [offered]
      exact free fun before => none ((held c).mpr before)
  completes c := by
    obtain ⟨offered, -, completed⟩ := log c
    unfold CompletesOutputs
    rw [offered, completed, sending c]
    exact inv.completes c

/-- The selected guard is that of the ALT record. -/
theorem Act.Picked.keep (picked : act.Picked w g)
    (same : ∀ p, (g'.proc p).alt = (g.proc p).alt) : act.Picked w g' := by
  unfold Act.Picked at picked ⊢
  split <;> first | trivial | (rw [same]; exact picked)

/-- What is read depends on the variables. -/
theorem read_congr (vars : g'.vars = g.vars) (ptr : Option Ptr) : g'.read ptr = g.read ptr := by
  cases ptr with
  | none => rfl
  | some ptr => exact congrFun (congrFun vars ptr.proc) ptr.var

/-- A step that leaves the processes, the channels and the variables alone. -/
theorem Transfers.silent (inv : Transfers w stack g) (proc : g'.proc = g.proc)
    (chan : g'.chan = g.chan) (vars : g'.vars = g.vars) (log : SameTransfers g.log g'.log)
    (life : ∀ q, initialised stack' g' q = initialised stack g q)
    (acts : ∀ alt q c, (∃ a ∈ stack', a.sends alt q c) ↔ ∃ a ∈ stack, a.sends alt q c)
    (picked : ∀ act ∈ stack', act.Picked w g) (clears : cleared stack' = cleared stack) :
    Transfers w stack' g' := by
  have waiting : g'.waiting = g.waiting := funext fun c => by rw [Globals.waiting, chan]; rfl
  refine inv.step (fun act mem => (picked act mem).keep fun p => by rw [proc])
    (fun c => sending_congr (life _) (congrFun proc _) (acts _ _ c)) (fun c => ?_) (fun c _ => ?_) log
  · rw [Held, waiting, clears, Held]
  · exact ⟨by rw [chan], read_congr vars _⟩

/-- What the other activations send does not depend on the innermost one. -/
theorem exists_sends_cons {alt : Alternation} (same : act'.sends alt q c ↔ act.sends alt q c) :
    (∃ a ∈ act' :: rest, a.sends alt q c) ↔ ∃ a ∈ act :: rest, a.sends alt q c := by
  simp only [List.mem_cons, exists_eq_or_imp, same]

/-- A silent step to another point of the same activation. -/
theorem Transfers.next (inv : Transfers w (act :: rest) g) (proc : g'.proc = g.proc)
    (chan : g'.chan = g.chan) (vars : g'.vars = g.vars) (log : SameTransfers g.log g'.log)
    (alive : allocated g'.log = allocated g.log) (reserves : act'.reserves = act.reserves)
    (sends : ∀ alt q c, act'.sends alt q c ↔ act.sends alt q c) (picked : act'.Picked w g)
    (clears : cleared (act' :: rest) = cleared (act :: rest)) : Transfers w (act' :: rest) g' := by
  refine inv.silent proc chan vars log (initialised_congr alive ?_)
    (fun alt q c => exists_sends_cons (sends alt q c)) ?_ clears
  · simp only [List.filterMap_cons, reserves]
  · exact List.forall_mem_cons.mpr ⟨picked, fun a mem => inv.picked a (List.mem_cons_of_mem _ mem)⟩

/-- A silent call. -/
theorem Transfers.call (inv : Transfers w (act :: rest) g) (proc : g'.proc = g.proc)
    (chan : g'.chan = g.chan) (vars : g'.vars = g.vars) (log : SameTransfers g.log g'.log)
    (alive : allocated g'.log = allocated g.log) (reserves : act'.reserves = act.reserves)
    (none : callee.reserves = none) (sends : ∀ alt q c, act'.sends alt q c ↔ act.sends alt q c)
    (silent : ∀ alt q c, ¬ callee.sends alt q c) (picked : act'.Picked w g) (fresh : callee.Picked w g)
    (clears : cleared (callee :: act' :: rest) = cleared (act :: rest)) :
    Transfers w (callee :: act' :: rest) g' := by
  refine inv.silent proc chan vars log (initialised_congr alive ?_) (fun alt q c => ?_) ?_ clears
  · simp only [List.filterMap_cons, reserves, none]
  · rw [← exists_sends_cons (sends alt q c)]
    simp only [List.mem_cons, exists_eq_or_imp, silent, false_or]
  · exact List.forall_mem_cons.mpr ⟨fresh, List.forall_mem_cons.mpr
      ⟨picked, fun a mem => inv.picked a (List.mem_cons_of_mem _ mem)⟩⟩

/-- A silent return to a caller. -/
theorem Transfers.ret (inv : Transfers w (act :: rest) g) (proc : g'.proc = g.proc)
    (chan : g'.chan = g.chan) (vars : g'.vars = g.vars) (log : SameTransfers g.log g'.log)
    (alive : allocated g'.log = allocated g.log) (reserves : act.reserves = none)
    (silent : ∀ alt q c, ¬ act.sends alt q c) (clears : cleared rest = cleared (act :: rest)) :
    Transfers w rest g' := by
  refine inv.silent proc chan vars log (initialised_congr alive ?_) (fun alt q c => ?_)
    (fun a mem => inv.picked a (List.mem_cons_of_mem _ mem)) clears
  · simp only [List.filterMap_cons, reserves]
  · simp only [List.mem_cons, exists_eq_or_imp, silent, false_or]

/-- Nothing is offered, copied or completed by a step that writes nothing to the log. -/
theorem SameTransfers.refl (log : List Event) : SameTransfers log log := fun _ => ⟨rfl, rfl, rfl⟩

end General

/-! ## The scheduler -/

section Scheduler

variable {w : Wiring} {pri : Nat} {rest : List Act} {g g' : Globals}

/-- `schedule` is in an ALT of its own process. -/
theorem Act.sends_own {base : Int} {p q : Addr} {pc : SchedulePc} {alt : Alternation} {c : ChanId}
    (sends : (Act.schedule base p pc).sends alt q c) : p = q := by
  unfold Act.sends at sends
  split at sends
  all_goals first | exact sends.elim | skip
  all_goals
    rename_i same
    cases same
  all_goals exact sends.1

/-- The state of the process of `schedule` changes. -/
theorem Transfers.setState {base : Int} {p : Addr} {pc pc' : SchedulePc} {state : PState}
    {stack' : List Act} (inv : Transfers w (.schedule base p pc :: rest) g)
    (bottom : rest = [.main .running]) (proc : g'.proc = (g.setState p state).proc)
    (chan : g'.chan = g.chan) (vars : g'.vars = g.vars) (log : SameTransfers g.log g'.log)
    (alive : allocated g'.log = allocated g.log)
    (top : stack' = .schedule base p pc' :: rest ∨
      stack' = .enableAlt p .enter :: .schedule base p pc' :: rest)
    (own : ∀ c, ((state = .waiting ∨ state = .ready) ∧
        (∃ j < (g.proc p).alt.nrGuards, Sends (g.proc p).alt c j) ∨
          (Act.schedule base p pc').sends (g.proc p).alt p c) ↔
      ((g.proc p).state = .waiting ∨ (g.proc p).state = .ready) ∧
        (∃ j < (g.proc p).alt.nrGuards, Sends (g.proc p).alt c j) ∨
          (Act.schedule base p pc).sends (g.proc p).alt p c)
    (picked : (Act.schedule base p pc').Picked w g) : Transfers w stack' g' := by
  subst bottom
  have here : g'.proc p = { g.proc p with state := state } := by
    rw [proc]
    exact Function.update_self ..
  have alts : ∀ q, (g'.proc q).alt = (g.proc q).alt := fun q => by
    rw [proc, Globals.setState_alt]
  have waiting : g'.waiting = g.waiting := funext fun c => by rw [Globals.waiting, chan]; rfl
  have life : ∀ q, initialised stack' g' q = initialised [.schedule base p pc, .main .running] g q := by
    refine initialised_congr alive ?_
    rcases top with rfl | rfl <;> rfl
  have acts : ∀ alt q c, (∃ a ∈ stack', a.sends alt q c) ↔
      (Act.schedule base p pc').sends alt q c := by
    intro alt q c
    rcases top with rfl | rfl <;> simp [Act.sends]
  have before : ∀ alt q c, (∃ a ∈ [Act.schedule base p pc, .main .running], a.sends alt q c) ↔
      (Act.schedule base p pc).sends alt q c := by
    intro alt q c
    simp [Act.sends]
  have clears : cleared stack' = none := by
    rcases top with rfl | rfl <;> rfl
  refine inv.step ?_ (fun c => ?_) (fun c => ?_) (fun c _ => ?_) log
  · have inner : (Act.main .running).Picked w g' := trivial
    rcases top with rfl | rfl
    · exact List.forall_mem_cons.mpr ⟨picked.keep alts, by simp [inner]⟩
    · exact List.forall_mem_cons.mpr ⟨trivial, List.forall_mem_cons.mpr
        ⟨picked.keep alts, by simp [inner]⟩⟩
  · unfold Sending
    rw [life, acts, before]
    by_cases same : w.writer c = p
    · rw [same, here]
      exact and_congr_right fun _ => own c
    · have other : g'.proc (w.writer c) = g.proc (w.writer c) := by
        rw [proc, Globals.setState_of_ne g state same]
      have neither : ∀ pc'' alt, ¬ (Act.schedule base p pc'').sends alt (w.writer c) c :=
        fun pc'' alt sends => same (Act.sends_own sends).symm
      rw [other]
      simp only [neither]
  · rw [Held, waiting, clears, Held]
    rfl
  · exact ⟨by rw [chan], read_congr vars _⟩

theorem execSelect_transfers {base : Int} {pc : SelectPc}
    (orderly : Orderly (.select base pc :: rest)) (inv : Transfers w (.select base pc :: rest) g)
    (bottom : rest = [.main .running]) :
    (execSelect base pc g).All (Settled (Transfers w)) rest := by
  cases pc with
  | top =>
    exact inv.next rfl rfl rfl (.refl _) rfl rfl (fun _ _ _ => Iff.rfl) trivial rfl
  | chosen highest =>
    simp only [execSelect]
    split
    · rw [Result.all_ret, settled_of_not_queueing (orderly.caller _), returnTo_unit]
      subst bottom
      exact inv.ret rfl rfl rfl (.refl _) rfl rfl (fun _ _ _ sends => sends) rfl
    · simp only [Result.all_call, Settled, Globals.takeFrom, Globals.takeHead_eq]
      cases head : (g.readyQ highest).head with
      | none =>
        simp only [Globals.enter_readyQ, head]
        exact inv.next rfl rfl rfl (.refl _) rfl rfl (fun _ _ _ => Iff.rfl) trivial rfl
      | some p =>
        simp only [Globals.enter_readyQ, head]
        exact inv.next rfl rfl rfl (.refl _) rfl rfl (fun _ _ _ => Iff.rfl) trivial rfl
  | taking => trivial
  | took r =>
    cases r with
    | none => trivial
    | some p => exact inv.next rfl rfl rfl (.refl _) rfl rfl (fun _ _ _ => Iff.rfl) trivial rfl

/-- A process that has terminated gives up its record. -/
theorem Transfers.release {base : Int} {p : Addr} {mem : Memory}
    (inv : Transfers w (.schedule base p .finish :: rest) g) (bottom : rest = [.main .running])
    (done : (g.proc p).state = .done) :
    Transfers w (.select base .top :: rest)
      ({ g.disable with mem := mem }.enable.emit (.release p)) := by
  subst bottom
  refine inv.step (List.forall_mem_cons.mpr ⟨trivial, by simp [Act.Picked]⟩) (fun c => ?_)
    (fun c => Iff.rfl) (fun c _ => ⟨rfl, rfl⟩) (fun c => ⟨rfl, rfl, rfl⟩)
  have none : ∀ alt q, ¬ ∃ a ∈ [Act.select base .top, .main .running], a.sends alt q c := by
    simp [Act.sends]
  have before : ∀ alt q, ¬ ∃ a ∈ [Act.schedule base p .finish, .main .running], a.sends alt q c := by
    simp [Act.sends]
  by_cases same : w.writer c = p
  · rw [same]
    have gone : ¬ ((g.proc p).state = .waiting ∨ (g.proc p).state = .ready) := by simp [done]
    refine iff_of_false (fun sending => ?_) fun sending => ?_
    · rcases sending.2 with ⟨state, -⟩ | sends
      · exact gone state
      · exact none _ _ sends
    · rcases sending.2 with ⟨state, -⟩ | sends
      · exact gone state
      · exact before _ _ sends
  · refine sending_congr ?_ rfl (iff_of_false (none _ _) (before _ _))
    simp [initialised, allocated, Act.reserves, Ne.symm same]

/-- The execution after an ALT completes the output to the channel of the selected guard. -/
theorem Transfers.execute {base : Int} {p : Addr}
    (inv : Transfers w (.schedule base p (.execute true) :: rest) g)
    (bottom : rest = [.main .running])
    (alive : initialised (.schedule base p (.execute true) :: rest) g p = true)
    (state : (g.proc p).state = .quiescent) (absent : Absent g.waiting p) :
    Transfers w (.rtc p :: .schedule base p .executing :: rest)
      (g.emit (.rtc p (some ((g.proc p).alt.index,
        ((g.proc p).alt.guards (g.proc p).alt.index).kind)))) := by
  subst bottom
  have picks : Picks w p (g.proc p).alt := inv.picked _ List.mem_cons_self
  have awake : ¬ ((g.proc p).state = .waiting ∨ (g.proc p).state = .ready) := by simp [state]
  let stack := [Act.schedule base p (.execute true), .main .running]
  let stack' := [Act.rtc p, .schedule base p .executing, .main .running]
  let g' := g.emit (.rtc p (some ((g.proc p).alt.index,
    ((g.proc p).alt.guards (g.proc p).alt.index).kind)))
  have none : ∀ alt q c, ¬ ∃ a ∈ stack', a.sends alt q c := by
    simp [stack', Act.sends]
  have some : ∀ alt q c, (∃ a ∈ stack, a.sends alt q c) ↔ p = q ∧ Sends alt c alt.index := by
    simp [stack, Act.sends]
  have life : ∀ q, initialised stack' g' q = initialised stack g q := initialised_congr rfl rfl
  -- the process has sent to the channel of the guard that is selected, and sends no more
  have own : ∀ c, Sending stack g p c ↔ Sends (g.proc p).alt c (g.proc p).alt.index := by
    intro c
    have known : initialised stack g p = true := alive
    unfold Sending
    rw [some]
    simp [known, awake]
  have ended : ∀ c, ¬ Sending stack' g' p c := by
    rintro c ⟨-, ⟨wakes, -⟩ | sends⟩
    · exact awake wakes
    · exact none _ _ _ sends
  have others : ∀ q c, q ≠ p → (Sending stack' g' q c ↔ Sending stack g q c) := by
    intro q c other
    refine sending_congr (life q) rfl (iff_of_false (none _ _ _) fun sends => ?_)
    exact other (((some _ _ _).mp sends).1).symm
  have held : ∀ c, Held w stack' g' c ↔ Held w stack g c := fun c => Iff.rfl
  have unheld : ∀ c, Held w stack g c → w.writer c ≠ p := by
    rintro c ⟨waits, -⟩ same
    exact absent c (same ▸ waits)
  -- an execution is counted for the channel of an output only
  have counted : ∀ c, completions g'.log c = completions g.log c ∧ ¬ Sending stack g p c ∨
      completions g'.log c = completions g.log c + 1 ∧ w.writer c = p ∧ Sending stack g p c := by
    intro c
    cases kind : ((g.proc p).alt.guards (g.proc p).alt.index).kind with
    | chanout d src =>
      have sends : Sends (g.proc p).alt d (g.proc p).alt.index := .of_kind kind picks.active
      have writes := picks.writes _ picks.inside d sends
      by_cases same : d = c
      · subst same
        exact Or.inr ⟨by simp [g', completions, kind], writes.symm, (own d).mpr sends⟩
      · refine Or.inl ⟨by simp [g', completions, kind, same], fun sending => same ?_⟩
        exact sends.unique ((own c).mp sending)
    | _ =>
      refine Or.inl ⟨by simp [g', completions, kind], fun sending => ?_⟩
      obtain ⟨src, guard⟩ := (own c).mp sending
      cases (congrArg Guard.kind guard).symm.trans kind
  refine ⟨?_, fun c here => ?_, fun c => ?_, fun c => ?_⟩
  · exact List.forall_mem_cons.mpr ⟨trivial, List.forall_mem_cons.mpr ⟨trivial, by simp [Act.Picked]⟩⟩
  · exact (others _ c (unheld c here)).mpr (inv.held c here)
  · exact inv.delivers c
  · have before := inv.completes c
    unfold CompletesOutputs at before ⊢
    rcases counted c with ⟨count, silent⟩ | ⟨count, writes, sending⟩
    · have same : Sending stack' g' (w.writer c) c ↔ Sending stack g (w.writer c) c := by
        by_cases same : w.writer c = p
        · rw [same]
          exact iff_of_false (ended c) silent
        · exact others _ c same
      rw [same, count]
      exact before
    · rw [writes] at before ⊢
      refine ⟨fun sends => absurd sends (ended c), fun _ => ?_⟩
      rw [count]
      exact before.1 sending

/-- An output among the guards is the one that is selected. -/
theorem Picks.sends_iff {p : Addr} {alt : Alternation} (picks : Picks w p alt) {c : ChanId} :
    Sends alt c alt.index ↔ ∃ j < alt.nrGuards, Sends alt c j := by
  refine ⟨fun sends => ⟨_, picks.inside, sends⟩, ?_⟩
  rintro ⟨j, inside, sends⟩
  have same := picks.alone j inside c sends _ picks.inside picks.active
  rw [same]
  exact sends

theorem execSchedule_transfers {base : Int} {p : Addr} {pc : SchedulePc}
    (holds : Holds (.schedule base p pc :: rest) g) (bottom : rest = [.main .running])
    (exchange : Rendezvous w (.schedule base p pc :: rest) g)
    (inv : Transfers w (.schedule base p pc :: rest) g) :
    (execSchedule base p pc g).All (Settled (Transfers w)) rest := by
  have alive : initialised (.schedule base p pc :: rest) g p = true :=
    holds.held p (by simp [Act.holds])
  have fits : (g.proc p).state ∈ pc.states := exchange.phase _ List.mem_cons_self
  have picked := inv.picked _ List.mem_cons_self
  cases pc with
  | top =>
    exact inv.next rfl rfl rfl (.refl _) rfl rfl (fun _ _ _ => Iff.rfl) trivial rfl
  | dispatch state =>
    cases state with
    | initial =>
      exact inv.call rfl rfl rfl (fun _ => ⟨rfl, rfl, rfl⟩) rfl rfl rfl (fun _ _ _ => Iff.rfl)
        (fun _ _ _ sends => sends) trivial trivial rfl
    | quiescent =>
      have state : (g.proc p).state = .quiescent := by simpa [SchedulePc.states] using fits
      refine inv.setState bottom rfl rfl rfl (fun _ => ⟨rfl, rfl, rfl⟩) rfl (Or.inr rfl)
        (fun c => ?_) trivial
      simp [state, Act.sends]
    | ready =>
      exact inv.call rfl rfl rfl (fun _ => ⟨rfl, rfl, rfl⟩) rfl rfl rfl (fun _ _ _ => Iff.rfl)
        (fun _ _ _ sends => sends) trivial trivial rfl
    | waiting =>
      exact inv.next rfl rfl rfl (.refl _) rfl rfl (fun _ _ _ => Iff.rfl) trivial rfl
    | enabling => cases fits
    | done => cases fits
  | initial =>
    have state : (g.proc p).state = .initial ∨ (g.proc p).state = .done := by
      simpa [SchedulePc.states] using fits
    refine inv.setState bottom rfl rfl rfl (.refl _) rfl (Or.inl rfl) (fun c => ?_) trivial
    rcases state with state | state <;> simp [state, Act.sends]
  | enabling => trivial
  | enabled found partner =>
    have state : (g.proc p).state = .enabling := by simpa [SchedulePc.states] using fits
    simp only [execSchedule, PState.afterEnabling, state, if_true]
    refine inv.setState bottom rfl rfl rfl (.refl _) rfl (Or.inl rfl) (fun c => ?_) trivial
    cases found <;> simp [state, Act.sends]
  | branch state partner =>
    simp only [execSchedule]
    split
    · exact inv.call rfl rfl rfl (fun _ => ⟨rfl, rfl, rfl⟩) rfl rfl rfl (fun _ _ _ => Iff.rfl)
        (fun _ _ _ sends => sends) trivial trivial rfl
    · exact inv.next rfl rfl rfl (.refl _) rfl rfl (fun _ _ _ => Iff.rfl) trivial rfl
  | disabling => trivial
  | disabled partner =>
    have state : (g.proc p).state = .ready := by simpa [SchedulePc.states] using fits
    have picks : Picks w p (g.proc p).alt := picked
    refine inv.setState bottom rfl rfl rfl (.refl _) rfl (Or.inl rfl) (fun c => ?_) picks
    simp [state, Act.sends, picks.sends_iff]
  | partner partner executes =>
    have after : (Act.schedule base p (.execute executes)).Picked w g := by
      cases executes with
      | false => trivial
      | true => exact picked
    cases partner with
    | none =>
      refine inv.next rfl rfl rfl (.refl _) rfl rfl (fun _ _ _ => ?_) after rfl
      cases executes <;> exact Iff.rfl
    | some q =>
      refine inv.call rfl rfl rfl (fun _ => ⟨rfl, rfl, rfl⟩) rfl rfl rfl (fun _ _ _ => ?_)
        (fun _ _ _ sends => sends) ?_ trivial rfl
      · cases executes <;> exact Iff.rfl
      · cases executes with
        | false => trivial
        | true => exact picked
  | readying executes =>
    refine inv.next rfl rfl rfl (.refl _) rfl rfl (fun _ _ _ => ?_) ?_ rfl
    · cases executes <;> exact Iff.rfl
    · cases executes with
      | false => trivial
      | true => exact picked
  | execute executes =>
    cases executes with
    | false => exact inv.next rfl rfl rfl (.refl _) rfl rfl (fun _ _ _ => Iff.rfl) trivial rfl
    | true =>
      have state : (g.proc p).state = .quiescent := by simpa [SchedulePc.states] using fits
      have absent := (exchange.stands p alive List.not_mem_nil).absent (Or.inr (Or.inl state))
      exact inv.execute bottom alive state absent
  | executing => exact inv.next rfl rfl rfl (.refl _) rfl rfl (fun _ _ _ => Iff.rfl) trivial rfl
  | finish =>
    simp only [execSchedule, Globals.disable_proc]
    split
    · rename_i done
      exact inv.release bottom done
    · exact inv.next rfl rfl rfl (.refl _) rfl rfl (fun _ _ _ => Iff.rfl) trivial rfl
    · exact inv.next rfl rfl rfl (.refl _) rfl rfl (fun _ _ _ => Iff.rfl) trivial rfl

/-- The callers of `start` are not in an ALT. -/
theorem under_start {args : StartArgs} {pc : StartPc} (stacked : Stacked (.start args pc :: rest))
    (free : Unsignalled rest) (unscheduled : Unscheduled rest) :
    ∀ a ∈ rest, (∀ alt q c, ¬ a.sends alt q c) ∧ ∀ g, a.Picked w g := by
  rcases (stacked.1 : Admitted .start rest).caller_of_start with ⟨p, under, rfl⟩ | ⟨under, rfl⟩
  · have below : Unsignalled under := fun a mem => free a (List.mem_cons_of_mem _ mem)
    have calls : Unscheduled under := fun q prev mem =>
      unscheduled q prev (List.mem_cons_of_mem _ mem)
    obtain ⟨base, outer, rfl | rfl⟩ := (stacked.2.1 : Admitted (.rtc p) under).caller_of_rtc
    · rw [caller_of_schedule stacked.2.2 rfl below calls]
      simp [Act.sends, Act.Picked]
    · rw [caller_of_schedule stacked.2.2 rfl below calls]
      simp [Act.sends, Act.Picked]
  · rw [(stacked.2.1 : Admitted .main under).eq_nil_of_main]
    simp [Act.sends, Act.Picked]

/-- A value that is held is in a variable of its writer, which has its record. -/
theorem Transfers.held_source {stack : List Act} (inv : Transfers w stack g)
    (exchange : Rendezvous w stack g) {c : ChanId} (held : Held w stack g c) :
    initialised stack g (w.writer c) = true ∧ ∀ ptr ∈ (g.chan c).src, ptr.proc = w.writer c := by
  obtain ⟨values, -, waits, -⟩ := inv.delivers c
  exact ⟨exchange.known c _ held.1, (waits held).2⟩

/-- What a pointer into the variables of one process reads does not depend on the others. -/
theorem read_of_proc {q : Addr} (vars : g'.vars q = g.vars q) {src : Option Ptr}
    (own : ∀ ptr ∈ src, ptr.proc = q) : g'.read src = g.read src := by
  cases src with
  | none => rfl
  | some ptr =>
    have here := own ptr rfl
    simp only [Globals.read, here, vars]

/-- A reserved record is filled with a new process. -/
theorem Transfers.fill {act act' : Act} {record : Addr} (inv : Transfers w (act :: rest) g)
    (exchange : Rendezvous w (act :: rest) g) (reserved : act.reserves = some record)
    (none : act'.reserves = none) (others : ∀ q, q ≠ record → g'.proc q = g.proc q)
    (state : (g'.proc record).state = .initial) (chan : g'.chan = g.chan)
    (vars : ∀ q, q ≠ record → g'.vars q = g.vars q) (log : SameTransfers g.log g'.log)
    (alive : allocated g'.log = allocated g.log) (calm : ∀ alt q c, ¬ act.sends alt q c)
    (calm' : ∀ alt q c, ¬ act'.sends alt q c) (picked : ∀ g, act'.Picked w g)
    (under : ∀ a ∈ rest, (∀ alt q c, ¬ a.sends alt q c) ∧ ∀ g, a.Picked w g)
    (clears : cleared (act :: rest) = Option.none) (clears' : cleared (act' :: rest) = Option.none) :
    Transfers w (act' :: rest) g' := by
  have waiting : g'.waiting = g.waiting := funext fun c => by rw [Globals.waiting, chan]; rfl
  have silent : ∀ alt q c, ¬ ∃ a ∈ act :: rest, a.sends alt q c := by
    rintro alt q c ⟨a, mem, sends⟩
    rcases List.mem_cons.mp mem with rfl | mem
    · exact calm _ _ _ sends
    · exact (under a mem).1 _ _ _ sends
  have silent' : ∀ alt q c, ¬ ∃ a ∈ act' :: rest, a.sends alt q c := by
    rintro alt q c ⟨a, mem, sends⟩
    rcases List.mem_cons.mp mem with rfl | mem
    · exact calm' _ _ _ sends
    · exact (under a mem).1 _ _ _ sends
  have other : ∀ q, initialised (act :: rest) g q = true → q ≠ record := by
    rintro q known rfl
    rw [not_initialised_reserved reserved] at known
    cases known
  refine inv.step ?_ (fun c => ?_) (fun c => ?_) (fun c held => ?_) log
  · exact List.forall_mem_cons.mpr ⟨picked g', fun a mem => (under a mem).2 g'⟩
  · by_cases same : w.writer c = record
    · rw [same]
      refine iff_of_false ?_ fun sending => other record sending.1 rfl
      rintro ⟨-, ⟨wakes, -⟩ | sends⟩
      · simp [state] at wakes
      · exact silent' _ _ _ sends
    · refine sending_congr ?_ (others _ same) (iff_of_false (silent' _ _ _) (silent _ _ _))
      exact Bool.eq_iff_iff.mpr (initialised_fill reserved none alive same)
  · rw [Held, waiting, clears', Held, clears]
  · obtain ⟨known, own⟩ := inv.held_source exchange held
    exact ⟨by rw [chan], read_of_proc (vars _ (other _ known)) own⟩

theorem execStart_transfers {args : StartArgs} {pc : StartPc}
    (orderly : Orderly (.start args pc :: rest)) (free : Unsignalled rest)
    (unscheduled : Unscheduled rest)
    (fresh : ∀ index record mem, index < nalloc → g.mem.allocateMem index = some (record, mem) →
      allocated g.log record = false)
    (exchange : Rendezvous w (.start args pc :: rest) g)
    (inv : Transfers w (.start args pc :: rest) g) :
    (execStart args pc g).All (Settled (Transfers w)) rest := by
  have sound := orderly.sound _ List.mem_cons_self
  cases pc with
  | check =>
    simp only [execStart]
    split
    · trivial
    · split
      · exact inv.next rfl rfl rfl (.refl _) rfl rfl (fun _ _ _ => Iff.rfl) trivial rfl
      · trivial
      · trivial
  | alloc index =>
    simp only [execStart]
    split
    · trivial
    · rename_i record mem allocated
      refine inv.silent rfl rfl rfl (fun _ => ⟨rfl, rfl, rfl⟩)
        (initialised_alloc (fresh index record mem sound.1 allocated) rfl rfl rfl)
        (fun _ _ _ => exists_sends_cons Iff.rfl) ?_ rfl
      exact List.forall_mem_cons.mpr
        ⟨trivial, fun a mem => inv.picked a (List.mem_cons_of_mem _ mem)⟩
  | fill index record =>
    simp only [execStart, Result.all_call, Settled, Globals.appendFrom, Globals.appendLink_eq]
    refine inv.fill exchange rfl rfl (fun q other => Globals.setProc_of_ne g _ other) ?_ rfl
      (fun q other => Function.update_of_ne other _ _) (fun _ => ⟨rfl, rfl, rfl⟩) rfl
      (fun _ _ _ sends => sends) (fun _ _ _ sends => sends) (fun _ => trivial)
      (under_start orderly.stacked free unscheduled) rfl rfl
    simp [Globals.setProc]
  | appended =>
    rw [execStart, Result.all_ret, settled_of_not_queueing (orderly.caller _), returnTo_unit]
    refine inv.ret rfl rfl rfl (.refl _) rfl rfl (fun _ _ _ sends => sends) ?_
    rcases (orderly.stacked.1 : Admitted .start rest).caller_of_start with
      ⟨p, under, rfl⟩ | ⟨under, rfl⟩
    · rfl
    · rfl

theorem execMain_transfers {pc : MainPc} (orderly : Orderly (.main pc :: rest))
    (fresh : ∀ index record mem, index < nalloc → g.mem.allocateMem index = some (record, mem) →
      allocated g.log record = false)
    (exchange : Rendezvous w (.main pc :: rest) g) (inv : Transfers w (.main pc :: rest) g) :
    (execMain pc g).All (Settled (Transfers w)) rest := by
  have sound := orderly.sound _ List.mem_cons_self
  have bottom : rest = [] := (orderly.stacked.1 : Admitted .main rest).eq_nil_of_main
  cases pc with
  | memoryInit arena memlen => exact sound.elim
  | schedInit => exact sound.elim
  | idleAlloc =>
    simp only [execMain]
    split
    · rename_i index found
      split
      · trivial
      · rename_i record mem allocated
        refine inv.silent rfl rfl rfl (fun _ => ⟨rfl, rfl, rfl⟩)
          (initialised_alloc (fresh index record mem (findMemIndex_bound found) allocated) rfl rfl
            rfl) (fun _ _ _ => exists_sends_cons Iff.rfl) ?_ rfl
        exact List.forall_mem_cons.mpr
          ⟨trivial, fun a mem => inv.picked a (List.mem_cons_of_mem _ mem)⟩
    · trivial
    · trivial
  | idleFill index record =>
    subst bottom
    simp only [execMain, Result.all_call, Settled, Globals.appendFrom, Globals.appendLink_eq]
    refine inv.fill exchange rfl rfl (fun q other => Globals.setProc_of_ne g _ other) ?_ rfl
      (fun q other => rfl) (fun _ => ⟨rfl, rfl, rfl⟩) rfl (fun _ _ _ sends => sends)
      (fun _ _ _ sends => sends) (fun _ => trivial) (fun a mem => absurd mem List.not_mem_nil) rfl rfl
    simp [Globals.setProc]
  | timerInit => exact inv.next rfl rfl rfl (.refl _) rfl rfl (fun _ _ _ => Iff.rfl) trivial rfl
  | user => trivial
  | running => trivial

theorem execReady_transfers {q : Addr} {pc : ReadyPc} (orderly : Orderly (.ready q pc :: rest))
    (exchange : Rendezvous w (.ready q pc :: rest) g) (clears : cleared rest = none)
    (unscheduled : ∀ prev, pc ≠ .scheduling prev) (inv : Transfers w (.ready q pc :: rest) g) :
    (execReady q pc g).All (Settled (Transfers w)) rest := by
  cases pc with
  | test =>
    obtain ⟨-, waits, -⟩ := exchange.targets _ rfl q List.mem_cons_self
    have active : (g.proc q).state ≠ .enabling := by
      rcases waits with state | state <;> simp [state]
    simp only [execReady, if_neg active, Result.all_call, Settled, Globals.appendFrom,
      Globals.appendLink_eq]
    let after := ((((g.setState q .waiting).setState q .ready).enter .append).enqueue q)
    have others : ∀ r, r ≠ q → after.proc r = g.proc r := fun r other =>
      (Globals.setState_of_ne _ _ other).trans (Globals.setState_of_ne _ _ other)
    have here : after.proc q = { g.proc q with state := .ready } := by
      simp [after, Globals.setState, Globals.setProc]
    have alts : ∀ r, (after.proc r).alt = (g.proc r).alt := by
      intro r
      by_cases same : r = q
      · rw [same, here]
      · rw [others r same]
    have acts : ∀ alt r c, (∃ a ∈ Act.ready q .appended :: rest, a.sends alt r c) ↔
        ∃ a ∈ Act.ready q .test :: rest, a.sends alt r c :=
      fun _ _ _ => exists_sends_cons Iff.rfl
    refine inv.step ?_ (fun c => ?_) (fun c => Iff.rfl) (fun c _ => ⟨rfl, rfl⟩)
      fun _ => ⟨rfl, rfl, rfl⟩
    · refine List.forall_mem_cons.mpr ⟨trivial, fun a mem => ?_⟩
      exact (inv.picked a (List.mem_cons_of_mem _ mem)).keep alts
    · by_cases same : w.writer c = q
      · rw [same]
        change Sending _ after q c ↔ _
        unfold Sending
        rw [here, acts]
        simp only [waits, or_true, true_and]
        rfl
      · exact sending_congr rfl (others _ same) (acts _ _ _)
  | appended =>
    simp only [execReady]
    split
    · trivial
    · split
      · exact inv.call rfl rfl rfl (fun _ => ⟨rfl, rfl, rfl⟩) rfl rfl rfl (fun _ _ _ => Iff.rfl)
          (fun _ _ _ sends => sends) trivial trivial rfl
      · rw [Result.all_ret, settled_of_not_queueing (orderly.caller _), returnTo_unit]
        exact inv.ret rfl rfl rfl (.refl _) rfl rfl (fun _ _ _ sends => sends) clears
  | scheduling prev => exact absurd rfl (unscheduled prev)

end Scheduler

/-! ## Alternation -/

section Alternating

variable {w : Wiring} {pri : Nat} {rest : List Act} {g g' : Globals} {p : Addr}

/-- The innermost activation is of this process, and no other one sends. -/
theorem sending_top {act act' : Act} {q : Addr} {c : ChanId} (own : ∀ alt, act.sends alt q c → p = q)
    (own' : ∀ alt, act'.sends alt q c → p = q) (other : q ≠ p)
    (life : initialised (act' :: rest) g' q = initialised (act :: rest) g q)
    (proc : g'.proc q = g.proc q) :
    Sending (act' :: rest) g' q c ↔ Sending (act :: rest) g q c := by
  refine sending_congr life proc (exists_sends_cons (iff_of_false ?_ ?_))
  · exact fun sends => other (own' _ sends).symm
  · exact fun sends => other (own _ sends).symm

/-- `enable_alt` is in an ALT of its own process. -/
theorem Act.sends_enableAlt {q : Addr} {pc : EnablePc} {alt : Alternation} {c : ChanId}
    (sends : (Act.enableAlt p pc).sends alt q c) : p = q := by
  cases pc with
  | loop i k partner => exact sends.1
  | done i k found partner => exact sends.1
  | enter => exact sends.elim
  | insert i k t partner => exact sends.elim

/-- A step of `enable_alt` that transfers nothing. -/
theorem Transfers.enable {pc pc' : EnablePc} (inv : Transfers w (.enableAlt p pc :: rest) g)
    (proc : g'.proc = g.proc) (log : SameTransfers g.log g'.log)
    (alive : allocated g'.log = allocated g.log) (vars : g'.vars = g.vars)
    (held : ∀ c, g'.waiting c = some (w.writer c) ↔ g.waiting c = some (w.writer c))
    (source : ∀ c, g.waiting c = some (w.writer c) → (g'.chan c).src = (g.chan c).src)
    (sends : ∀ c, (Act.enableAlt p pc').sends (g.proc p).alt p c ↔
      (Act.enableAlt p pc).sends (g.proc p).alt p c) :
    Transfers w (.enableAlt p pc' :: rest) g' := by
  have alts : ∀ q, (g'.proc q).alt = (g.proc q).alt := fun q => by rw [proc]
  have life : ∀ q, initialised (.enableAlt p pc' :: rest) g' q =
      initialised (.enableAlt p pc :: rest) g q := initialised_congr alive rfl
  refine inv.step ?_ (fun c => ?_) (fun c => ?_) (fun c here => ?_) log
  · exact List.forall_mem_cons.mpr ⟨trivial, fun a mem =>
      (inv.picked a (List.mem_cons_of_mem _ mem)).keep alts⟩
  · by_cases same : w.writer c = p
    · rw [same]
      exact sending_congr (life p) (congrFun proc p) (exists_sends_cons (sends c))
    · exact sending_top (fun _ => Act.sends_enableAlt) (fun _ => Act.sends_enableAlt) same (life _)
        (congrFun proc _)
  · exact and_congr (held c) (by simp [cleared])
  · exact ⟨source c here.1, read_congr vars _⟩

/-- Where an input is enabled the channel keeps the source, and a writer that waits there. -/
theorem enableChannelInput_source {c : ChanId} (g : Globals) (d : ChanId) :
    ((g.enableChannelInput c).2.chan d).src = (g.chan d).src := by
  change (Function.update g.chan c ((g.chan c).enableInput g.current).2 d).src = _
  rcases eq_or_ne d c with rfl | other
  · rw [Function.update_self, Channel.enableInput]
    repeat' split
    all_goals rfl
  · rw [Function.update_of_ne other]

/-- The output of a guard that is visited for the first time. -/
theorem Transfers.offer {pc pc' : EnablePc} {i : Nat} (c : ChanId) (src : Option Ptr)
    (inv : Transfers w (.enableAlt p pc :: rest) g)
    (alive : initialised (.enableAlt p pc :: rest) g p = true)
    (state : (g.proc p).state = .enabling) (writes : p = w.writer c) (own : g.waiting c ≠ some p)
    (silent : ∀ d, ¬ (Act.enableAlt p pc).sends (g.proc p).alt p d)
    (sends : ∀ d, (Act.enableAlt p pc').sends (g.proc p).alt p d ↔ d = c)
    (under : ∀ a ∈ rest, ∀ alt q d, ¬ a.sends alt q d)
    (source : ∀ ptr ∈ src, ptr.proc = p) (proc : g'.proc = g.proc) (vars : g'.vars = g.vars)
    (chan : g'.chan = Function.update g.chan c ⟨some p, src⟩)
    (log : g'.log = .offer c (g.read src) :: .enabled p i :: g.log) :
    Transfers w (.enableAlt p pc' :: rest) g' := by
  have asleep : ¬ ((g.proc p).state = .waiting ∨ (g.proc p).state = .ready) := by simp [state]
  have life : ∀ q, initialised (.enableAlt p pc' :: rest) g' q =
      initialised (.enableAlt p pc :: rest) g q :=
    initialised_congr (by rw [log]; rfl) rfl
  have known : initialised (.enableAlt p pc' :: rest) g' p = true := (life p).trans alive
  have here : g'.chan c = ⟨some p, src⟩ := by rw [chan, Function.update_self]
  have there : ∀ d, d ≠ c → g'.chan d = g.chan d := fun d other => by
    rw [chan, Function.update_of_ne other]
  -- what the process sends
  have before : ∀ d, ¬ Sending (.enableAlt p pc :: rest) g p d := by
    rintro d ⟨-, ⟨wakes, -⟩ | ⟨a, mem, sends⟩⟩
    · exact asleep wakes
    · rcases List.mem_cons.mp mem with rfl | mem
      · exact silent d sends
      · exact under a mem _ _ _ sends
  have after : Sending (.enableAlt p pc' :: rest) g' p c := by
    refine ⟨known, Or.inr ⟨_, List.mem_cons_self, ?_⟩⟩
    rw [proc]
    exact (sends c).mpr rfl
  have others : ∀ q d, q ≠ p → (Sending (.enableAlt p pc' :: rest) g' q d ↔
      Sending (.enableAlt p pc :: rest) g q d) := fun q d other =>
    sending_top (fun _ => Act.sends_enableAlt) (fun _ => Act.sends_enableAlt) other (life q)
      (congrFun proc q)
  have elsewhere : ∀ d, d ≠ c → (Sending (.enableAlt p pc' :: rest) g' (w.writer d) d ↔
      Sending (.enableAlt p pc :: rest) g (w.writer d) d) := by
    intro d other
    by_cases same : w.writer d = p
    · rw [same]
      refine iff_of_false ?_ (before d)
      rintro ⟨-, ⟨wakes, -⟩ | ⟨a, mem, sent⟩⟩
      · rw [proc] at wakes
        exact asleep wakes
      · rcases List.mem_cons.mp mem with rfl | mem
        · rw [proc] at sent
          exact other ((sends d).mp sent)
        · exact under a mem _ _ _ sent
    · exact others _ d same
  -- what the channels hold
  have unheld : ¬ Held w (.enableAlt p pc :: rest) g c := by
    rintro ⟨waits, -⟩
    rw [← writes] at waits
    exact own waits
  have holds : Held w (.enableAlt p pc' :: rest) g' c := by
    refine ⟨?_, by simp [cleared]⟩
    rw [Globals.waiting, here, ← writes]
  have held : ∀ d, d ≠ c → (Held w (.enableAlt p pc' :: rest) g' d ↔
      Held w (.enableAlt p pc :: rest) g d) := by
    intro d other
    unfold Held Globals.waiting
    rw [there d other]
    exact and_congr_right fun _ => by simp [cleared]
  have offered : ∀ d, offers g'.log d = if d = c then offers g.log c ++ [g.read src]
      else offers g.log d := by
    intro d
    rw [log]
    rcases eq_or_ne d c with rfl | other
    · simp [offers]
    · simp [offers, other, Ne.symm other]
  have copied : ∀ d, copies g'.log d = copies g.log d := fun d => by rw [log]; rfl
  have completed : ∀ d, completions g'.log d = completions g.log d := fun d => by rw [log]; rfl
  have alts : ∀ q, (g'.proc q).alt = (g.proc q).alt := fun q => by rw [proc]
  refine ⟨?_, fun d waits => ?_, fun d => ?_, fun d => ?_⟩
  · exact List.forall_mem_cons.mpr ⟨trivial, fun a mem =>
      (inv.picked a (List.mem_cons_of_mem _ mem)).keep alts⟩
  · rcases eq_or_ne d c with rfl | other
    · rw [← writes]
      exact after
    · exact (elsewhere d other).mpr (inv.held d ((held d other).mp waits))
  · obtain ⟨values, cut, waits, free⟩ := inv.delivers d
    refine ⟨values, copied d ▸ cut, ?_⟩
    rcases eq_or_ne d c with rfl | other
    · refine ⟨fun _ => ?_, fun none => absurd holds none⟩
      rw [offered, if_pos rfl, free unheld, here, ← writes]
      exact ⟨by rw [read_congr vars], source⟩
    · rw [offered, if_neg other, held d other, there d other, read_congr vars]
      exact ⟨waits, free⟩
  · have count := inv.completes d
    unfold CompletesOutputs at count ⊢
    rw [completed, offered]
    rcases eq_or_ne d c with rfl | other
    · rw [if_pos rfl, ← writes]
      rw [← writes] at count
      refine ⟨fun _ => ?_, fun none => absurd after none⟩
      rw [List.length_append, count.2 (before d)]
      rfl
    · rw [if_neg other, elsewhere d other]
      exact count

/-- Beside another active guard there is no output. -/
theorem Wired.no_output {alt : Alternation} {i : Nat} (wired : Wired w p alt)
    (inside : i < alt.nrGuards) (active : (alt.guards i).active = true)
    (other : ∀ c, ¬ Sends alt c i) (c : ChanId) : ∀ j < alt.nrGuards, ¬ Sends alt c j := by
  intro j within sends
  have same := wired.alone j within c sends i inside active
  rw [← same] at sends
  exact other c sends

theorem execEnableAlt_transfers {pc : EnablePc} (current : g.current = some p) (holds : Holds (.enableAlt p pc :: rest) g)
    (bottom : ∃ base, rest = [.schedule base p .enabling, .main .running])
    (exchange : Rendezvous w (.enableAlt p pc :: rest) g)
    (cooperating : Cooperating pri (.enableAlt p pc :: rest) g)
    (inv : Transfers w (.enableAlt p pc :: rest) g) :
    (execEnableAlt p pc g).All (Settled (Transfers w)) rest := by
  obtain ⟨base, rfl⟩ := bottom
  have alive : initialised (.enableAlt p pc :: [.schedule base p .enabling, .main .running]) g p
      = true := holds.held p (by simp [Act.holds])
  have state : (g.proc p).state = .enabling := by
    simpa [Act.Fits, SchedulePc.states] using
      exchange.phase _ (List.mem_cons_of_mem _ List.mem_cons_self)
  have steady := cooperating.steady _ rfl
  obtain ⟨ok, -⟩ := exchange.focus _ rfl
  -- a step that leaves the channels alone
  have silent : ∀ {pc'} g', g'.proc = g.proc → SameTransfers g.log g'.log →
      allocated g'.log = allocated g.log → g'.vars = g.vars → g'.chan = g.chan →
      (∀ c, (Act.enableAlt p pc').sends (g.proc p).alt p c ↔
        (Act.enableAlt p pc).sends (g.proc p).alt p c) →
      Transfers w (.enableAlt p pc' :: [.schedule base p .enabling, .main .running]) g' := by
    intro pc' g' proc log same vars chan sends
    have waiting : g'.waiting = g.waiting := funext fun c => by rw [Globals.waiting, chan]; rfl
    exact inv.enable proc log same vars (fun c => by rw [waiting]) (fun c _ => by rw [chan]) sends
  cases pc with
  | enter =>
    have begin : ∀ i c, (Act.enableAlt p (.loop i 0 none)).sends (g.proc p).alt p c ↔
        (Act.enableAlt p .enter).sends (g.proc p).alt p c := fun i c => by
      simp [Act.sends, downFrom]
    simp only [execEnableAlt]
    split
    · trivial
    · split
      · exact silent g rfl (.refl _) rfl rfl rfl (begin _)
      · split
        · trivial
        · exact silent g rfl (.refl _) rfl rfl rfl (begin _)
  | loop i k partner =>
    obtain ⟨wired, most, first, listed, ofOutput⟩ := ok
    obtain ⟨plain, -⟩ := steady
    simp only [execEnableAlt]
    split
    · rename_i more
      have positive : 0 < (g.proc p).alt.nrGuards := Nat.zero_lt_of_lt more
      have inside := first positive
      have within : ∀ j ∈ downFrom (g.proc p).alt.nrGuards (minus1Mod i (g.proc p).alt.nrGuards) k,
          j < (g.proc p).alt.nrGuards := fun j mem => lt_of_mem_downFrom (minus1Mod_lt positive) mem
      -- what is sent after the guard
      have passed : ∀ partner' c,
          (Act.enableAlt p (.loop (plus1Mod i (g.proc p).alt.nrGuards) (k + 1) partner')).sends
            (g.proc p).alt p c ↔ Sends (g.proc p).alt c i ∨
          (Act.enableAlt p (.loop i k partner)).sends (g.proc p).alt p c := by
        intro partner' c
        simp only [Act.sends, true_and, downFrom_plus1Mod inside, List.mem_cons, exists_eq_or_imp]
      have pass : (∀ c, ¬ Sends (g.proc p).alt c i) → ∀ partner' c,
          (Act.enableAlt p (.loop (plus1Mod i (g.proc p).alt.nrGuards) (k + 1) partner')).sends
            (g.proc p).alt p c ↔ (Act.enableAlt p (.loop i k partner)).sends (g.proc p).alt p c := by
        intro other partner' c
        rw [passed, or_iff_right (other c)]
      have found : ((g.proc p).alt.guards i).active = true → (∀ c, ¬ Sends (g.proc p).alt c i) →
          ∀ partner' c, (Act.enableAlt p (.done i k true partner')).sends (g.proc p).alt p c ↔
            (Act.enableAlt p (.loop i k partner)).sends (g.proc p).alt p c := by
        intro active other partner' c
        have none := wired.no_output inside active other c
        refine iff_of_false ?_ ?_
        · rintro ⟨-, j, small, sends⟩
          exact none j small sends
        · rintro ⟨-, j, mem, sends⟩
          exact none j (within j mem) sends
      split
      · rename_i active
        split
        · rename_i c dest len kind
          have listens : Listens (g.proc p).alt c i := Listens.of_kind kind active
          have reads := wired.reads i inside c listens
          have enabled := (g.emit (.enabled p i)).disable.waiting_enableChannelInput current c
          rcases enabled with ⟨v, fst, -, -, snd⟩ | ⟨fst, free, snd⟩
          · simp only [fst]
            exact inv.enable rfl (fun _ => ⟨rfl, rfl, rfl⟩) rfl rfl
              (fun d => by rw [show _ = g.waiting from snd])
              (fun d _ => enableChannelInput_source _ d)
              (found active (fun d => listens.not_sends) _)
          · simp only [fst]
            refine inv.enable rfl (fun _ => ⟨rfl, rfl, rfl⟩) rfl rfl (fun d => ?_)
              (fun d _ => enableChannelInput_source _ d) (pass (fun d => listens.not_sends) _)
            have after : ((g.emit (.enabled p i)).disable.enableChannelInput c).2.enable.waiting =
                Function.update g.waiting c (some p) := snd
            rw [after]
            rcases eq_or_ne d c with rfl | other
            · rw [Function.update_self]
              have apart : p ≠ w.writer d := fun same => w.apart d (same.symm.trans reads)
              refine iff_of_false (fun same => apart (Option.some.inj same)) fun waits => ?_
              rcases free with empty | own
              · cases waits.symm.trans empty
              · exact apart (Option.some.inj (own.symm.trans waits))
            · rw [Function.update_of_ne other]
        · rename_i c src kind
          have sends : Sends (g.proc p).alt c i := Sends.of_kind kind active
          -- no other guard is active, and this one is visited for the first time
          have new : ∀ j ∈ downFrom (g.proc p).alt.nrGuards (minus1Mod i (g.proc p).alt.nrGuards) k,
              ((g.proc p).alt.guards j).active = false := by
            intro j mem
            by_contra active'
            rw [Bool.not_eq_false] at active'
            obtain rfl := wired.alone i inside c sends j (within j mem) active'
            exact not_mem_downFrom inside more mem
          have before : ∀ d, ¬ (Act.enableAlt p (.loop i k partner)).sends (g.proc p).alt p d := by
            rintro d ⟨-, j, mem, sent⟩
            have inactive := new j mem
            rw [sent.active] at inactive
            cases inactive
          have own : g.waiting c ≠ some p := by
            intro here
            obtain ⟨j, mem, uses⟩ := listed.there c here
            have inactive := new j mem
            rw [uses.elim Listens.active Sends.active] at inactive
            cases inactive
          have guard := plain i inside
          rw [show (g.proc p).alt.guards i = ⟨.chanout c src, true⟩ by rw [← kind, ← active]] at guard
          refine Transfers.offer c src inv alive state (wired.writes i inside c sends) own before
            (fun d => ?_) ?_ ?_ rfl rfl ?_ rfl
          · rw [passed, or_iff_left (before d)]
            exact ⟨fun other => other.unique sends, fun same => same ▸ sends⟩
          · simp [Act.sends]
          · intro ptr mem
            obtain rfl : src = some ptr := mem
            simpa [Guard.plain] using guard
          · rw [← current]
            rfl
        · rename_i kind
          have other : ∀ c, ¬ Sends (g.proc p).alt c i := by
            rintro c ⟨src, guard⟩
            cases (congrArg Guard.kind guard).symm.trans kind
          exact silent _ rfl (fun _ => ⟨rfl, rfl, rfl⟩) rfl rfl rfl (found active other _)
        · rename_i t kind
          rcases plain.kind inside active with skip | ⟨c, dest, len, guard⟩ | ⟨c, src, guard⟩
          · cases kind.symm.trans skip
          · cases (congrArg Guard.kind guard).symm.trans kind
          · cases (congrArg Guard.kind guard).symm.trans kind
        · rename_i x dest kind
          rcases plain.kind inside active with skip | ⟨c, dest, len, guard⟩ | ⟨c, src, guard⟩
          · cases kind.symm.trans skip
          · cases (congrArg Guard.kind guard).symm.trans kind
          · cases (congrArg Guard.kind guard).symm.trans kind
      · rename_i inactive
        exact silent _ rfl (fun _ => ⟨rfl, rfl, rfl⟩) rfl rfl rfl
          (pass (fun c sends => inactive sends.active) _)
    · rename_i all
      split
      · trivial
      · rename_i some
        have whole : k = (g.proc p).alt.nrGuards := by omega
        refine silent _ rfl (.refl _) rfl rfl rfl fun c => ?_
        simp only [Act.sends, true_and]
        rw [whole]
        constructor
        · rintro ⟨j, small, sends⟩
          exact ⟨j, mem_downFrom_all (minus1Mod_lt (by omega)) small, sends⟩
        · rintro ⟨j, mem, sends⟩
          exact ⟨j, lt_of_mem_downFrom (minus1Mod_lt (by omega)) mem, sends⟩
  | insert i k t partner => exact steady.elim
  | done i k found partner =>
    let alt := { (g.proc p).alt with index := toUint8 i, count := toUint8 k }
    have own : (g.setAlt p alt).proc p = { g.proc p with alt := alt } := Function.update_self ..
    have others : ∀ q, q ≠ p → (g.setAlt p alt).proc q = g.proc q := fun q other =>
      Function.update_of_ne other _ _
    refine inv.step ?_ (fun c => ?_) (fun c => ?_) (fun c _ => ⟨rfl, rfl⟩) (.refl _)
    · exact List.forall_mem_cons.mpr ⟨trivial, by simp [Act.Picked]⟩
    · by_cases same : w.writer c = p
      · rw [same]
        change Sending [.schedule base p (.enabled found partner), .main .running]
          (g.setAlt p alt) p c ↔ _
        unfold Sending
        rw [own]
        simp [Act.sends, state, initialised, Act.reserves, alt, Sends]
      · refine sending_congr rfl (others _ same) ?_
        simp [Act.sends, Ne.symm same, Act.resume]
    · simp [Held, cleared, Act.resume, Globals.waiting]

/-- While an ALT is disabled nothing but the states says who is sending. -/
theorem sending_disabling {base : Int} {pc : DisablePc} {q : Addr} {c : ChanId} :
    Sending [.disableAlt p pc, .schedule base p .disabling, .main .running] g q c ↔
      initialised [.disableAlt p pc, .schedule base p .disabling, .main .running] g q = true ∧
        ((g.proc q).state = .waiting ∨ (g.proc q).state = .ready) ∧
          ∃ j < (g.proc q).alt.nrGuards, Sends (g.proc q).alt c j := by
  simp [Sending, Act.sends]

/-- A guard is visited in disabling. -/
theorem Transfers.visit {base : Int} {pc pc' : DisablePc} {index : Nat}
    (inv : Transfers w [.disableAlt p pc, .schedule base p .disabling, .main .running] g)
    (proc : g'.proc = (g.setAlt p { (g.proc p).alt with index := index }).proc)
    (log : SameTransfers g.log g'.log) (alive : allocated g'.log = allocated g.log)
    (vars : g'.vars = g.vars)
    (held : ∀ c, g'.waiting c = some (w.writer c) ↔ g.waiting c = some (w.writer c))
    (source : ∀ c, (g'.chan c).src = (g.chan c).src)
    (picked : (Act.disableAlt p pc').Picked w g')
    (before : cleared [.disableAlt p pc] = none) (after : cleared [.disableAlt p pc'] = none) :
    Transfers w [.disableAlt p pc', .schedule base p .disabling, .main .running] g' := by
  have own : g'.proc p = { g.proc p with alt := { (g.proc p).alt with index := index } } := by
    rw [proc]
    exact Function.update_self ..
  have others : ∀ q, q ≠ p → g'.proc q = g.proc q := fun q other => by
    rw [proc]
    exact Function.update_of_ne other _ _
  have life : ∀ q, initialised [.disableAlt p pc', .schedule base p .disabling, .main .running] g' q =
      initialised [.disableAlt p pc, .schedule base p .disabling, .main .running] g q :=
    initialised_congr alive rfl
  have clears : ∀ pc, cleared [.disableAlt p pc] = none →
      cleared [.disableAlt p pc, .schedule base p .disabling, .main .running] = none := by
    intro pc none
    cases pc with
    | clear c partner => cases none
    | _ => rfl
  refine inv.step ?_ (fun c => ?_) (fun c => ?_) (fun c _ => ⟨source c, read_congr vars _⟩) log
  · exact List.forall_mem_cons.mpr ⟨picked, by simp [Act.Picked]⟩
  · rw [sending_disabling, sending_disabling, life]
    by_cases same : w.writer c = p
    · rw [same, own]
      rfl
    · rw [others _ same]
  · unfold Held
    rw [held, clears _ before, clears _ after]

/-- The selected guard is active when all guards have been visited. -/
theorem picks_of_visited {i : Nat} {partner : Option Addr} {waiting : ChanId → Option Addr}
    {alt : Alternation} (ok : DisableOk w waiting p alt (.loop i 0 partner)) : Picks w p alt := by
  obtain ⟨wired, index, -, -, choice⟩ := ok
  refine ⟨wired, index, ?_⟩
  rcases choice with ⟨-, ⟨j, mem, -⟩ | ⟨j, mem, -⟩⟩ | ⟨active, -⟩ | ⟨c, v, listens, -⟩
  · cases mem
  · cases mem
  · exact active
  · exact listens.active

/-- The process that waits in the channel for its reader is the writer. -/
theorem Stands.writes {waiting : ChanId → Option Addr} {q : Addr} {proc : Process} {c : ChanId}
    (stands : Stands w waiting q proc) (here : waiting c = some q) (reads : p = w.reader c)
    (other : q ≠ p) : q = w.writer c := by
  obtain ⟨state, -⟩ := stands.served here reads other
  have waits := stands.waits state
  obtain ⟨i, mem, uses⟩ := waits.listed.there c here
  have inside := List.mem_range.mp mem
  rcases uses with listens | sends
  · exact absurd ((waits.reads i inside c listens).trans reads.symm) other
  · exact waits.writes i inside c sends

/-- A copy writes to the variables of one process. -/
theorem memcpy_vars {dest src : Option Ptr} {len : Nat} {vars : Addr → Var → Buffer}
    (copied : g.memcpy dest src len = some vars) (own : ∀ ptr ∈ dest, ptr.proc = p) {q : Addr}
    (other : q ≠ p) : vars q = g.vars q := by
  unfold Globals.memcpy at copied
  split at copied
  · rw [← Option.some.inj copied]
  · split at copied
    · rename_i d s
      rw [← Option.some.inj copied]
      have here := own d rfl
      exact Function.update_of_ne (here ▸ other) _ _
    · cases copied

/-- The reader copies the value that the channel holds. -/
theorem Transfers.copy {base : Int} {c : ChanId} {dest : Option Ptr} {len : Nat}
    {partner : Option Addr} {vars : Addr → Var → Buffer}
    (inv : Transfers w [.disableAlt p (.copy c dest len partner), .schedule base p .disabling,
      .main .running] g)
    (waits : g.waiting c = some (w.writer c)) (absent : Absent g.waiting p)
    (others : ∀ q, q ≠ p → vars q = g.vars q) :
    Transfers w [.disableAlt p (.clear c partner), .schedule base p .disabling, .main .running]
      ({ g with vars := vars }.emit (.copy p c len ((g.read (g.chan c).src).take len))) := by
  let stack := [Act.disableAlt p (.copy c dest len partner), .schedule base p .disabling, .main .running]
  let stack' := [Act.disableAlt p (.clear c partner), .schedule base p .disabling, .main .running]
  let g' := { g with vars := vars }.emit (.copy p c len ((g.read (g.chan c).src).take len))
  have holds : Held w stack g c := ⟨waits, by simp [stack, cleared]⟩
  have emptied : ¬ Held w stack' g' c := fun held => held.2 rfl
  have held : ∀ d, d ≠ c → (Held w stack' g' d ↔ Held w stack g d) := by
    intro d other
    refine and_congr_right fun _ => iff_of_true ?_ (by simp [stack, cleared])
    simpa [stack', cleared] using Ne.symm other
  have sending : ∀ q d, Sending stack' g' q d ↔ Sending stack g q d := fun q d => by
    refine sending_congr rfl rfl ?_
    simp [stack, stack', Act.sends]
  refine ⟨?_, fun d here => ?_, fun d => ?_, fun d => ?_⟩
  · have picks : Picks w p (g.proc p).alt := inv.picked _ List.mem_cons_self
    exact List.forall_mem_cons.mpr ⟨picks, by simp [Act.Picked]⟩
  · rcases eq_or_ne d c with rfl | other
    · exact absurd here emptied
    · exact (sending _ _).mpr (inv.held d ((held d other).mp here))
  · obtain ⟨values, cut, full, free⟩ := inv.delivers d
    rcases eq_or_ne d c with rfl | other
    · obtain ⟨offered, -⟩ := full holds
      refine ⟨values ++ [g.read (g.chan d).src], ?_, fun here => absurd here emptied, fun _ => offered⟩
      simp only [Globals.emit_log, copies, if_true]
      exact List.rel_append cut (List.Forall₂.cons rfl List.Forall₂.nil)
    · refine ⟨values, ?_, fun here => ?_, fun none => ?_⟩
      · simpa [g', copies, Ne.symm other] using cut
      · have before := (held d other).mp here
        obtain ⟨offered, own⟩ := full before
        have apart : w.writer d ≠ p := fun same => absent d (same ▸ before.1)
        refine ⟨?_, own⟩
        change offers g.log d = values ++ [g'.read (g.chan d).src]
        rw [read_of_proc (others _ apart) own]
        exact offered
      · exact free fun before => none ((held d other).mpr before)
  · have count := inv.completes d
    unfold CompletesOutputs at count ⊢
    rw [sending]
    exact count

/-- `disable_alt` returns to `schedule`. -/
theorem Transfers.disabled {base : Int} {pc : DisablePc} {partner : Option Addr}
    (inv : Transfers w [.disableAlt p pc, .schedule base p .disabling, .main .running] g)
    (proc : g'.proc = g.proc) (log : SameTransfers g.log g'.log)
    (alive : allocated g'.log = allocated g.log) (vars : g'.vars = g.vars)
    (held : ∀ c, g'.waiting c = some (w.writer c) ↔ g.waiting c = some (w.writer c) ∧
      cleared [.disableAlt p pc] ≠ some c)
    (source : ∀ c, (g'.chan c).src = (g.chan c).src) (picks : Picks w p (g.proc p).alt) :
    Transfers w [.schedule base p (.disabled partner), .main .running] g' := by
  have life : ∀ q, initialised [.schedule base p (.disabled partner), .main .running] g' q =
      initialised [.disableAlt p pc, .schedule base p .disabling, .main .running] g q :=
    initialised_congr alive rfl
  have clears : cleared [.disableAlt p pc, .schedule base p .disabling, .main .running] =
      cleared [.disableAlt p pc] := by
    cases pc <;> rfl
  refine inv.step ?_ (fun c => ?_) (fun c => ?_) (fun c _ => ⟨source c, read_congr vars _⟩) log
  · have here : Picks w p (g'.proc p).alt := by
      rw [proc]
      exact picks
    exact List.forall_mem_cons.mpr ⟨here, by simp [Act.Picked]⟩
  · rw [sending_disabling, ← life]
    simp [Sending, Act.sends, proc]
  · unfold Held
    rw [held, clears]
    simp [cleared]

/-- Where an input is disabled the channel keeps the source. -/
theorem disableChannelInput_source {c : ChanId} (g : Globals) (d : ChanId) :
    ((g.disableChannelInput c).2.chan d).src = (g.chan d).src := by
  change (Function.update g.chan c ((g.chan c).disableInput g.current).2 d).src = _
  rcases eq_or_ne d c with rfl | other
  · rw [Function.update_self, Channel.disableInput]
    repeat' split
    all_goals rfl
  · rw [Function.update_of_ne other]

/-- A visit transfers nothing. -/
theorem SameTransfers.visit {log log' : List Event} {i : Nat} {kind : GuardKind} {ready : Bool}
    (visited : log' = .visit p i kind ready :: log) : SameTransfers log log' := by
  subst visited
  exact fun _ => ⟨rfl, rfl, rfl⟩

/-- A reader that leaves a channel leaves no value there. -/
theorem disableChannelInput_held {c : ChanId} (current : g.current = some p) (reads : p = w.reader c)
    (d : ChanId) : (g.disableChannelInput c).2.waiting d = some (w.writer d) ↔
      g.waiting d = some (w.writer d) := by
  rcases g.waiting_disableChannelInput current c with ⟨v, -, -, -, snd⟩ | ⟨-, free, snd⟩
  · rw [snd]
  · rw [snd]
    rcases eq_or_ne d c with rfl | other
    · rw [Function.update_self]
      refine iff_of_false (by simp) fun waits => ?_
      rcases free with empty | own
      · cases waits.symm.trans empty
      · have same : w.writer d = p := Option.some.inj (waits.symm.trans own)
        exact w.apart d (same.trans reads)
    · rw [Function.update_of_ne other]

theorem execDisableAlt_visit_transfers {base : Int} {i left : Nat} {partner : Option Addr}
    (current : g.current = some p) (wired : Wired w p (g.proc p).alt)
    (inside : i < (g.proc p).alt.nrGuards)
    (inv : Transfers w [.disableAlt p (.loop i (left + 1) partner), .schedule base p .disabling,
      .main .running] g) :
    (execDisableAlt p (.loop i (left + 1) partner) g).All (Settled (Transfers w))
      [.schedule base p .disabling, .main .running] := by
  have positive : 0 < (g.proc p).alt.nrGuards := Nat.zero_lt_of_lt inside
  -- a visit that leaves the channels alone
  have visit : ∀ (ready : Bool) partner' g', g'.proc = (g.setAlt p { (g.proc p).alt with
      index := if ready then toUint8 i else (g.proc p).alt.index }).proc → g'.chan = g.chan →
      g'.vars = g.vars → SameTransfers g.log g'.log → allocated g'.log = allocated g.log →
      Transfers w [.disableAlt p (.loop (minus1Mod i (g.proc p).alt.nrGuards) left partner'),
        .schedule base p .disabling, .main .running] g' := by
    intro ready partner' g' proc chan vars log same
    have waiting : g'.waiting = g.waiting := funext fun c => by rw [Globals.waiting, chan]; rfl
    exact inv.visit proc log same vars (fun c => by rw [waiting]) (fun c => by rw [chan]) trivial
      rfl rfl
  simp only [execDisableAlt, if_neg positive.ne']
  split
  · rename_i active
    split
    · rename_i c dest len kind
      have listens : Listens (g.proc p).alt c i := Listens.of_kind kind active
      have reads := wired.reads i inside c listens
      let visited := (g.emit (.visit p i ((g.proc p).alt.guards i).kind
        (((g.proc p).alt.guards i).active && g.branchReady p i))).disable
      have here : visited.current = some p := current
      exact inv.visit rfl (.visit rfl) rfl rfl (disableChannelInput_held here reads)
        (disableChannelInput_source visited) trivial rfl rfl
    · exact visit true _ _ rfl rfl rfl (.visit rfl) rfl
    · exact visit true _ _ rfl rfl rfl (.visit rfl) rfl
    · exact visit _ _ _ rfl rfl rfl (.visit rfl) rfl
    · exact visit _ _ _ rfl rfl rfl (.visit rfl) rfl
  · exact inv.next rfl rfl rfl (.visit rfl) rfl rfl (fun _ _ _ => Iff.rfl) trivial rfl

theorem execDisableAlt_transfers {pc : DisablePc} (current : g.current = some p)
    (holds : Holds (.disableAlt p pc :: rest) g)
    (bottom : ∃ base, rest = [.schedule base p .disabling, .main .running])
    (exchange : Rendezvous w (.disableAlt p pc :: rest) g)
    (cooperating : Cooperating pri (.disableAlt p pc :: rest) g)
    (inv : Transfers w (.disableAlt p pc :: rest) g) :
    (execDisableAlt p pc g).All (Settled (Transfers w)) rest := by
  obtain ⟨base, rfl⟩ := bottom
  have alive : initialised [.disableAlt p pc, .schedule base p .disabling, .main .running] g p = true :=
    holds.held p (by simp [Act.holds])
  have ok := exchange.focus _ rfl
  have picked := inv.picked _ List.mem_cons_self
  cases pc with
  | enter => exact inv.next rfl rfl rfl (.refl _) rfl rfl (fun _ _ _ => Iff.rfl) trivial rfl
  | loop i left partner =>
    cases left with
    | zero =>
      have picks : Picks w p (g.proc p).alt := picks_of_visited ok
      have state : (g.proc p).state = .ready := by
        simpa [Act.Fits, SchedulePc.states] using
          exchange.phase _ (List.mem_cons_of_mem _ List.mem_cons_self)
      have plain := (cooperating.procs p alive (Or.inr state)).1
      simp only [execDisableAlt]
      split
      · exact inv.next rfl rfl rfl (.refl _) rfl rfl (fun _ _ _ => Iff.rfl) picks rfl
      · rename_i x dest kind
        rcases plain.kind picks.inside picks.active with skip | ⟨c, dest, len, guard⟩ |
          ⟨c, src, guard⟩
        · cases kind.symm.trans skip
        · cases (congrArg Guard.kind guard).symm.trans kind
        · cases (congrArg Guard.kind guard).symm.trans kind
      · exact inv.disabled rfl (.refl _) rfl rfl (fun c => by simp [cleared]) (fun c => rfl) picks
    | succ left => exact execDisableAlt_visit_transfers current ok.1 ok.2.2.1 inv
  | copy c dest len partner =>
    obtain ⟨absent, reads, v, rfl, here, other⟩ := ok
    have known := exchange.known c v here
    have stands := exchange.stands v known (by simpa [exempt, Act.inAlt, Act.targets] using other)
    obtain rfl := stands.writes here reads other
    have own : ∀ ptr ∈ dest, ptr.proc = p := cooperating.steady _ rfl
    simp only [execDisableAlt]
    split
    · trivial
    · rename_i vars copied
      exact inv.copy here absent fun q apart => memcpy_vars copied own apart
  | clear c partner =>
    have picks : Picks w p (g.proc p).alt := picked
    refine inv.disabled rfl (.refl _) rfl rfl (fun d => ?_) (fun d => ?_) picks
    · rw [Globals.waiting_setChan]
      rcases eq_or_ne d c with rfl | other
      · simp [cleared]
      · rw [Function.update_of_ne other]
        simp [cleared, Ne.symm other]
    · rcases eq_or_ne d c with rfl | other
      · simp [Globals.setChan]
      · simp [Globals.setChan, Function.update_of_ne other]

end Alternating

/-! ## Application code -/

section Application

variable {w : Wiring} {pri : Nat} {rest : List Act} {g g' : Globals} {p : Addr}

/-- The process that executes changes its own record and variables. -/
theorem Transfers.store (inv : Transfers w (.rtc p :: rest) g) (absent : Absent g.waiting p)
    (under : ∀ a ∈ rest, (∀ alt q c, ¬ a.sends alt q c) ∧ ∀ g, a.Picked w g)
    (state : (g.proc p).state = .initial ∨ (g.proc p).state = .quiescent ∨
      (g.proc p).state = .done)
    (state' : (g'.proc p).state = .initial ∨ (g'.proc p).state = .quiescent ∨
      (g'.proc p).state = .done)
    (others : ∀ q, q ≠ p → g'.proc q = g.proc q) (vars : ∀ q, q ≠ p → g'.vars q = g.vars q)
    (chan : g'.chan = g.chan) (log : SameTransfers g.log g'.log)
    (alive : allocated g'.log = allocated g.log) : Transfers w (.rtc p :: rest) g' := by
  have waiting : g'.waiting = g.waiting := funext fun c => by rw [Globals.waiting, chan]; rfl
  have silent : ∀ alt q c, ¬ ∃ a ∈ Act.rtc p :: rest, a.sends alt q c := by
    rintro alt q c ⟨a, mem, sends⟩
    rcases List.mem_cons.mp mem with rfl | mem
    · exact sends
    · exact (under a mem).1 _ _ _ sends
  have none : ∀ g : Globals, ((g.proc p).state = .initial ∨ (g.proc p).state = .quiescent ∨
      (g.proc p).state = .done) → ∀ c, ¬ Sending (.rtc p :: rest) g p c := by
    rintro g state c ⟨-, ⟨wakes, -⟩ | sends⟩
    · rcases state with state | state | state <;> simp [state] at wakes
    · exact silent _ _ _ sends
  refine inv.step ?_ (fun c => ?_) (fun c => ?_) (fun c held => ?_) log
  · exact List.forall_mem_cons.mpr ⟨trivial, fun a mem => (under a mem).2 g'⟩
  · by_cases same : w.writer c = p
    · rw [same]
      exact iff_of_false (none g' state' c) (none g state c)
    · exact sending_congr (initialised_congr alive rfl _) (others _ same) Iff.rfl
  · rw [Held, waiting, Held]
  · obtain ⟨values, -, full, -⟩ := inv.delivers c
    have apart : w.writer c ≠ p := fun same => absent c (same ▸ held.1)
    exact ⟨by rw [chan], read_of_proc (vars _ apart) (full held).2⟩

theorem execUser_transfers {op : Op} {act : Act} (orderly : Orderly (act :: rest))
    (coherent : CurrentInv (act :: rest) g) (holds : Holds (act :: rest) g)
    (free : Unsignalled (act :: rest)) (exchange : Rendezvous w (act :: rest) g)
    (cooperating : Cooperating pri (act :: rest) g) (inv : Transfers w (act :: rest) g) :
    (execUser op act g).All (Settled (Transfers w)) rest := by
  unfold execUser
  split
  · rename_i p
    split
    · obtain ⟨current, -⟩ := coherent
      have below : Unsignalled rest := fun a mem => free a (List.mem_cons_of_mem _ mem)
      have calls : Unscheduled rest := fun q prev mem =>
        cooperating.unscheduled q prev (List.mem_cons_of_mem _ mem)
      have shape : ∃ base, rest = [.schedule base p .initial, .main .running] ∨
          rest = [.schedule base p .executing, .main .running] := by
        obtain ⟨base, under, rfl | rfl⟩ := (orderly.stacked.1 : Admitted (.rtc p) rest).caller_of_rtc
        · rw [caller_of_schedule orderly.stacked.2 rfl below calls]
          exact ⟨base, Or.inl rfl⟩
        · rw [caller_of_schedule orderly.stacked.2 rfl below calls]
          exact ⟨base, Or.inr rfl⟩
      have held : p ∈ rest.filterMap Act.holds := by
        obtain ⟨base, rfl | rfl⟩ := shape <;> exact List.mem_cons_self
      have under : ∀ a ∈ rest, (∀ alt q c, ¬ a.sends alt q c) ∧ ∀ g, a.Picked w g := by
        obtain ⟨base, rfl | rfl⟩ := shape <;> simp [Act.sends, Act.Picked]
      have clears : cleared rest = none := by
        obtain ⟨base, rfl | rfl⟩ := shape <;> rfl
      obtain ⟨state, absent⟩ := exchange.executing orderly (holds.held p held)
      -- a silent step
      have next : ∀ g', g'.proc = g.proc → g'.chan = g.chan → g'.vars = g.vars →
          g'.log = g.log → Transfers w (.rtc p :: rest) g' := by
        intro g' proc chan vars log
        exact inv.next proc chan vars (by rw [log]; exact .refl _) (by rw [log]) rfl
          (fun _ _ _ => Iff.rfl) trivial rfl
      -- a store into the ALT record
      have alter : ∀ g' alt, g'.proc = (g.setAlt p alt).proc → g'.chan = g.chan →
          g'.vars = g.vars → g'.log = g.log → Transfers w (.rtc p :: rest) g' := by
        intro g' alt proc chan vars log
        refine inv.store absent under state ?_ (fun q other => ?_) (fun q _ => by rw [vars]) chan
          (by rw [log]; exact .refl _) (by rw [log])
        · rw [proc, Globals.setAlt_state]
          exact state
        · rw [proc]
          exact Function.update_of_ne other _ _
      cases op with
      | ret =>
        rw [userRtc, Result.all_ret, settled_of_not_queueing (orderly.caller _), returnTo_unit]
        exact inv.ret rfl rfl rfl (.refl _) rfl rfl (fun _ _ _ sends => sends) clears
      | terminate =>
        simp only [userRtc, current]
        exact inv.store absent under state (Or.inr (Or.inr (g.setState_state_self p .done)))
          (fun q other => Globals.setState_of_ne g _ other) (fun q _ => rfl) rfl
          (fun _ => ⟨rfl, rfl, rfl⟩) rfl
      | start args =>
        exact inv.call rfl rfl rfl (.refl _) rfl rfl rfl (fun _ _ _ => Iff.rfl)
          (fun _ _ _ sends => sends) trivial trivial rfl
      | initAlt size =>
        simp only [userRtc, current]
        exact alter _ _ rfl rfl rfl rfl
      | initAltPri size =>
        simp only [userRtc, current]
        exact alter _ _ rfl rfl rfl rfl
      | initGuard i kind =>
        simp only [userRtc]
        split
        · trivial
        · exact alter _ _ rfl rfl rfl rfl
      | initTimeoutGuard i t time => exact alter _ _ rfl rfl rfl rfl
      | setActive i active => exact alter _ _ rfl rfl rfl rfl
      | assign v bytes =>
        exact inv.store absent under state state (fun q _ => rfl)
          (fun q other => Function.update_of_ne other _ _) rfl (.refl _) rfl
      | connect x intrno =>
        simp only [userRtc]
        split
        · exact next _ rfl rfl rfl rfl
        · trivial
      | disconnect intrno =>
        simp only [userRtc]
        split
        · exact next _ rfl rfl rfl rfl
        · trivial
      | error why => trivial
    · trivial
  · cases op with
    | ret =>
      exact inv.call rfl rfl rfl (fun _ => ⟨rfl, rfl, rfl⟩) rfl rfl rfl (fun _ _ _ => Iff.rfl)
        (fun _ _ _ sends => sends) trivial trivial rfl
    | start args =>
      exact inv.call rfl rfl rfl (.refl _) rfl rfl rfl (fun _ _ _ => Iff.rfl)
        (fun _ _ _ sends => sends) trivial trivial rfl
    | connect x intrno =>
      simp only [userMain]
      split
      · exact inv.next rfl rfl rfl (.refl _) rfl rfl (fun _ _ _ => Iff.rfl) trivial rfl
      · trivial
    | _ => trivial
  · trivial

end Application

/-! ## Runs -/

section Runs

variable {w : Wiring} {pri : Nat}

theorem exec_transfers {act : Act} {rest : List Act} {g : Globals}
    (other : queueing (act :: rest) = false) (cooperative : Cooperative w pri (act :: rest) g)
    (inv : Transfers w (act :: rest) g) : (exec act g).All (Settled (Transfers w)) rest := by
  obtain ⟨⟨free, ranked, settled⟩, cooperating, -⟩ := cooperative
  have ranks := ranked.ranks other
  have exchange := (settled_of_not_queueing other).mp settled
  have cooperates := (settled_of_not_queueing other).mp cooperating
  have below : Unsignalled rest := fun a mem => free a (List.mem_cons_of_mem _ mem)
  have calls : Unscheduled rest := fun q prev mem =>
    cooperates.unscheduled q prev (List.mem_cons_of_mem _ mem)
  have stacked := ranks.orderly.stacked
  cases act with
  | main pc => exact execMain_transfers ranks.orderly (fun _ _ _ => ranks.fresh) exchange inv
  | select base pc =>
    exact execSelect_transfers ranks.orderly inv
      (caller_of_schedule stacked rfl free cooperates.unscheduled)
  | schedule base p pc =>
    exact execSchedule_transfers ranks.holds
      (caller_of_schedule stacked rfl free cooperates.unscheduled) exchange inv
  | take level pc => cases other
  | append p pc => cases other
  | start args pc =>
    exact execStart_transfers ranks.orderly below calls (fun _ _ _ => ranks.fresh) exchange inv
  | rtc p => trivial
  | enableAlt p pc =>
    obtain ⟨base, under, rfl⟩ := (stacked.1 : Admitted (.enableAlt p) rest).caller_of_enableAlt
    have bottom := caller_of_schedule stacked.2 rfl below calls
    exact execEnableAlt_transfers ranks.coherent.1 ranks.holds ⟨base, by rw [bottom]⟩ exchange
      cooperates inv
  | disableAlt p pc =>
    obtain ⟨base, under, rfl⟩ := (stacked.1 : Admitted (.disableAlt p) rest).caller_of_disableAlt
    have bottom := caller_of_schedule stacked.2 rfl below calls
    exact execDisableAlt_transfers ranks.coherent.1 ranks.holds ⟨base, by rw [bottom]⟩ exchange
      cooperates inv
  | ready q pc =>
    obtain ⟨base, p, executes, under, rfl⟩ := below.caller_of_ready stacked.1 stacked.2
    refine execReady_transfers ranks.orderly exchange rfl ?_ inv
    rintro prev rfl
    exact cooperates.unscheduled q prev List.mem_cons_self
  | signal intr saved pc => exact absurd rfl (free _ List.mem_cons_self)
  | timeoutHandler pc => exact (below.no_handler stacked.1 (Or.inl rfl)).elim
  | userHandler intrsrc => exact (below.no_handler stacked.1 (Or.inr rfl)).elim

/-- The transfers are kept in cooperative runs. -/
theorem transfers_kept : Kept
    (fun label s => cooperative w pri label s = true ∧ Cooperative w pri s.stack s.g)
    (Settled (Transfers w)) := by
  refine Kept.settled (fun label s known => ?_) ?_ ?_ ?_ ?_
  · exact ⟨undisturbed_of_withoutInterrupts (cooperative_parts known.1).1,
      known.2.exchanging.2.1.orderly.stacked⟩
  · exact fun act rest g other known inv => exec_transfers other known.2 inv
  · rintro op act rest g ⟨-, ⟨free, ranked, settled⟩, cooperating, -⟩ inv
    have user : queueing (act :: rest) = false →
        (execUser op act g).All (Settled (Transfers w)) rest := by
      intro other
      have ranks := ranked.ranks other
      exact execUser_transfers ranks.orderly ranks.coherent ranks.holds free
        ((settled_of_not_queueing other).mp settled)
        ((settled_of_not_queueing other).mp cooperating) inv
    cases act with
    | take level pc => trivial
    | append p pc => trivial
    | _ => exact user rfl
  · intro intr stack g known
    cases (cooperative_parts known.1).1
  · exact fun t stack g inv => inv.step (fun act mem => inv.picked act mem) (fun c => Iff.rfl)
      (fun c => Iff.rfl) (fun c _ => ⟨rfl, rfl⟩) (.refl _)

/-- A queue operation transfers nothing. -/
theorem Settled.transfers (P : List Event → Prop) {stack : List Act} {g : Globals}
    (settled : Settled (fun _ g => P g.log) stack g)
    (quiet : ∀ log log', SameTransfers log' log → P log → P log') : P g.log := by
  cases stack with
  | nil => exact settled
  | cons act rest =>
    cases act with
    | take level pc =>
      refine quiet _ _ ?_ settled
      rcases Globals.takeFrom_log g level pc with same | ⟨p, same⟩
      · rw [same]
        exact .refl _
      · rw [same]
        exact fun _ => ⟨rfl, rfl, rfl⟩
    | append p pc =>
      have same : P (g.appendFrom p pc).log := settled
      rw [Globals.appendFrom_log] at same
      exact same
    | _ => exact settled

/-- The values copied from the channel are the first ones that were output to it, each cut to the
length that was asked for, and they are as many as the executions after an output, or one more. -/
structure ExchangedInOrder (log : List Event) (c : ChanId) : Prop where
  /-- In order. -/
  delivered : ∃ values, values <+: offers log c ∧ List.Forall₂ Cut (copies log c) values
  /-- An execution after an output follows its copy. -/
  follows : completions log c ≤ (copies log c).length
  /-- At most one copy is ahead. -/
  ahead : (copies log c).length ≤ completions log c + 1

/-- What the invariant says of the history. -/
theorem Transfers.inOrder {stack : List Act} {g : Globals} (inv : Transfers w stack g) (c : ChanId) :
    ExchangedInOrder g.log c := by
  obtain ⟨values, cut, full, free⟩ := inv.delivers c
  obtain ⟨under, completed⟩ := inv.completes c
  have same : (copies g.log c).length = values.length := cut.length_eq
  by_cases held : Held w stack g c
  · obtain ⟨offered, -⟩ := full held
    have count := under (inv.held c held)
    rw [offered, List.length_append, List.length_singleton] at count
    exact ⟨⟨values, ⟨_, offered.symm⟩, cut⟩, by omega, by omega⟩
  · have offered := free held
    refine ⟨⟨values, ⟨[], by rw [offered, List.append_nil]⟩, cut⟩, ?_, ?_⟩
    · by_cases sending : Sending stack g (w.writer c) c
      · have count := under sending
        rw [offered] at count
        omega
      · have count := completed sending
        rw [offered] at count
        omega
    · by_cases sending : Sending stack g (w.writer c) c
      · have count := under sending
        rw [offered] at count
        omega
      · have count := completed sending
        rw [offered] at count
        omega

/-- After `sched_init` nothing has been transferred. -/
theorem transfers_start {arena memlen : Nat} {g : Globals} {handlers : Nat → Option Handler}
    (pristine : Pristine g) : Transfers w [.main .idleAlloc] { g with
      mem := g.mem.memoryInit arena memlen, interruptHandler := handlers } := by
  have log : ∀ c, offers g.log c = [] ∧ copies g.log c = [] ∧ completions g.log c = 0 := by
    intro c
    rw [pristine.log]
    exact ⟨rfl, rfl, rfl⟩
  have free : ∀ c, ¬ Held w [.main .idleAlloc] { g with
      mem := g.mem.memoryInit arena memlen, interruptHandler := handlers } c := by
    rintro c ⟨waits, -⟩
    change (g.chan c).waiting = _ at waits
    rw [pristine.chan] at waits
    cases waits
  have silent : ∀ q c, ¬ Sending [.main .idleAlloc] { g with
      mem := g.mem.memoryInit arena memlen, interruptHandler := handlers } q c := by
    rintro q c ⟨known, -⟩
    simp [initialised, pristine.log, allocated] at known
  refine ⟨by simp [Act.Picked], fun c held => absurd held (free c), fun c => ?_, fun c => ?_⟩
  · exact ⟨[], by rw [(log c).2.1]; exact .nil, fun held => absurd held (free c), fun _ => (log c).1⟩
  · refine ⟨fun sending => absurd sending (silent _ c), fun _ => ?_⟩
    rw [(log c).1, (log c).2.2]
    rfl

end Runs

end Microcsp
