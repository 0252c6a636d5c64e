import Microcsp.Standing

/-!
# Attendance to interrupts

A process that uses an interrupt channel is registered in it while it waits with a guard for it, and
no interrupt is then counted without the process being made ready. This is kept by every step, with
interrupts wherever they are not blocked.
-/

open Library

namespace Microcsp

/-! ## Conditions -/

/-- The guard is an active one for the interrupt channel. -/
def Guard.expects (guard : Guard) (x : ChanId) : Bool :=
  match guard with
  | ⟨.interrupt y _, true⟩ => decide (y = x)
  | _ => false

/-- The code of a process finds its process in `current`. -/
def findsItself (label : Label) (s : State) : Bool :=
  match label, s.stack with
  | .run, .enableAlt p _ :: _ | .run, .disableAlt p _ :: _ | .user _, .rtc p :: _ =>
    decide (s.g.current = some p)
  | _, _ => true

/-- `schedule` goes on with the process when it is not in progress. -/
def takenOnce (p : Addr) (label : Label) (s : State) : Bool :=
  match label, s.stack with
  | .run, .select _ (.took (some q)) :: rest => decide (q = p → p ∉ frames rest)
  | _, _ => true

/-- Only the process uses the interrupt channel, and asks for the count. -/
def usedBy (x : ChanId) (p : Addr) (label : Label) (s : State) : Bool :=
  match label, s.stack with
  | .run, .enableAlt q (.loop i _ _) :: _ => !(s.g.guard q i).expects x || decide (q = p)
  | .run, .disableAlt q (.loop i (_ + 1) _) :: _ => !(s.g.guard q i).expects x || decide (q = p)
  | .run, .disableAlt q (.loop _ 0 _) :: _ =>
    match (s.g.guard q (s.g.proc q).alt.index).kind with
    | .interrupt y dest => decide (y = x → q = p ∧ dest ≠ none)
    | _ => true
  | _, _ => true

/-- No process waits in the interrupt channel when it is connected. -/
def connectsFree (x : ChanId) (label : Label) (s : State) : Bool :=
  match label with
  | .user (.connect y _) => decide (y = x → (s.g.ichan x).waiting = none)
  | _ => true

/-- The conditions. -/
structure Attends (x : ChanId) (p : Addr) (label : Label) (s : State) : Prop where
  /-- Process code finds itself in `current`. -/
  itself : findsItself label s = true
  /-- The process is in progress once. -/
  once : takenOnce p label s = true
  /-- The channel is used by the process. -/
  used : usedBy x p label s = true
  /-- The channel is connected while nobody waits in it. -/
  free : connectsFree x label s = true

/-! ## The invariant -/

/-- The activation is about to make the process ready. -/
def Act.answers (p : Addr) : Act → Bool
  | .ready q .test => decide (q = p)
  | _ => false

/-- `user_interrupt_handler` is about to make the process ready. -/
def Answering (p : Addr) (stack : List Act) : Prop :=
  ∃ intr saved pc below, Act.ready p .test :: .signal intr saved pc :: below <:+ stack

/-- The process waits in the interrupt channel, and no interrupt has come that it is not being made
ready for. -/
def Awaited (x : ChanId) (p : Addr) (stack : List Act) (g : Globals) : Prop :=
  (g.ichan x).waiting = some p ∧ ((g.ichan x).count = 0 ∨ Answering p stack)

/-- The guards that are enabled at a point of `enable_alt` that will not report a ready one. -/
def EnablePc.visited (n : Nat) : EnablePc → List Nat
  | .loop i k _ => downFrom n (minus1Mod i n) k
  | .insert i k _ _ => downFrom n i (k + 1)
  | .done _ _ false _ => List.range n
  | _ => []

/-- The guard in hand is one of the ALT. -/
def EnablePc.Inside (n : Nat) : EnablePc → Prop
  | .loop i _ _ => 0 < n → i < n
  | .insert i _ _ _ => i < n
  | _ => True

/-- The process is past its wait, or before it. -/
def SchedulePc.busy : SchedulePc → Bool
  | .dispatch state => decide (state ≠ .waiting ∧ state ≠ .enabling)
  | .branch state _ => decide (state = .ready)
  | .initial | .disabling | .disabled _ | .partner _ true | .readying true | .execute true |
    .executing => true
  | _ => false

/-- `enable_alt` has found no guard ready. -/
def SchedulePc.unready : SchedulePc → Bool
  | .enabled false _ => true
  | _ => false

/-- What an activation of the process knows, if its registration is as given. -/
def Act.Attends (x : ChanId) (p : Addr) (proc : Process) (awaited : Prop) : Act → Prop
  | .enableAlt q pc => q = p → proc.state = .enabling → pc.Inside proc.alt.nrGuards ∧
      ∀ j ∈ pc.visited proc.alt.nrGuards, (proc.alt.guards j).expects x = true → awaited
  | .schedule _ q pc => q = p →
      (pc.busy = true → proc.state ≠ .waiting ∧ proc.state ≠ .enabling) ∧
      (pc.unready = true → proc.state = .enabling →
        ∀ j < proc.alt.nrGuards, (proc.alt.guards j).expects x = true → awaited)
  | _ => True

/-- The invariant. -/
structure Attended (x : ChanId) (p : Addr) (stack : List Act) (g : Globals) : Prop where
  /-- The process is in progress once. -/
  once : (frames stack).count p ≤ 1
  /-- While it waits with a guard for the channel it is registered there. -/
  waits : initialised stack g p = true → (g.proc p).state = .waiting →
    ∀ j < (g.proc p).alt.nrGuards, ((g.proc p).alt.guards j).expects x = true →
      Awaited x p stack g
  /-- Its activations know their part of this. -/
  attends : initialised stack g p = true → ∀ act ∈ stack,
    act.Attends x p (g.proc p) (Awaited x p stack g)

/-! ## Steps in general -/

section General

variable {x : ChanId} {p : Addr} {stack stack' rest : List Act} {act act' callee : Act} {g g' : Globals}

theorem Answering.cons (answering : Answering p rest) : Answering p (act :: rest) := by
  obtain ⟨intr, saved, pc, below, suffix⟩ := answering
  exact ⟨intr, saved, pc, below, suffix.trans (List.suffix_cons act rest)⟩

theorem Answering.of_cons (answering : Answering p (act :: rest)) (other : act.answers p = false) :
    Answering p rest := by
  obtain ⟨intr, saved, pc, below, suffix⟩ := answering
  rcases List.suffix_cons_iff.mp suffix with same | suffix
  · obtain rfl := (List.cons.inj same).1
    simp [Act.answers] at other
  · exact ⟨intr, saved, pc, below, suffix⟩

theorem Answering.returnTo (answering : Answering p rest) (v : Value) : Answering p (returnTo v rest) := by
  obtain ⟨intr, saved, pc, below, suffix⟩ := answering
  cases rest with
  | nil => exact ⟨intr, saved, pc, below, suffix⟩
  | cons caller under =>
    refine ⟨intr, saved, pc, below, ?_⟩
    rcases List.suffix_cons_iff.mp suffix with same | suffix
    · obtain ⟨rfl, rfl⟩ := List.cons.inj same
      exact List.suffix_refl _
    · exact suffix.trans (List.suffix_cons _ under)

/-- Where the process neither waits nor is enabled, nothing is asked for. -/
theorem Attended.calm (once : (frames stack).count p ≤ 1) (calm : initialised stack g p = true →
    (g.proc p).state ≠ .waiting ∧ (g.proc p).state ≠ .enabling) : Attended x p stack g where
  once := once
  waits alive state := absurd state (calm alive).1
  attends alive act _ := by
    unfold Act.Attends
    split
    · exact fun _ state => absurd state (calm alive).2
    · exact fun _ => ⟨fun _ => calm alive, fun _ state => absurd state (calm alive).2⟩
    · trivial

/-- Activations of other processes have no part. -/
theorem Act.Attends.of_other {proc : Process} {awaited : Prop} (other : act.process ≠ some p) :
    act.Attends x p proc awaited := by
  unfold Act.Attends
  split
  · exact fun same => absurd (congrArg some same) other
  · exact fun same => absurd (congrArg some same) other
  · trivial

theorem Act.Attends.mono {proc proc' : Process} {awaited awaited' : Prop}
    (attends : act.Attends x p proc awaited) (state : proc'.state = proc.state)
    (guards : proc'.alt.guards = proc.alt.guards) (size : proc'.alt.nrGuards = proc.alt.nrGuards)
    (stays : awaited → awaited') : act.Attends x p proc' awaited' := by
  unfold Act.Attends at attends ⊢
  rw [state, guards, size]
  split
  · exact fun same enabling => ⟨(attends same enabling).1,
      fun j mem expects => stays ((attends same enabling).2 j mem expects)⟩
  · exact fun same => ⟨(attends same).1, fun unready enabling j inside expects =>
      stays ((attends same).2 unready enabling j inside expects)⟩
  · trivial

/-- A step that leaves the process's record alone, but for the counters of its ALT. -/
theorem Attended.step (inv : Attended x p stack g)
    (life : initialised stack' g' p = true → initialised stack g p = true)
    (once : (frames stack').count p ≤ 1) (state : (g'.proc p).state = (g.proc p).state)
    (guards : (g'.proc p).alt.guards = (g.proc p).alt.guards)
    (size : (g'.proc p).alt.nrGuards = (g.proc p).alt.nrGuards)
    (stays : Awaited x p stack g → Awaited x p stack' g')
    (attends : initialised stack g p = true → ∀ act ∈ stack', act ∈ stack ∨
      act.Attends x p (g'.proc p) (Awaited x p stack' g')) : Attended x p stack' g' where
  once := once
  waits alive waits j inside expects := by
    rw [state] at waits
    rw [size] at inside
    rw [guards] at expects
    exact stays (inv.waits (life alive) waits j inside expects)
  attends alive act mem := by
    rcases attends (life alive) act mem with before | now
    · exact (inv.attends (life alive) act before).mono state guards size stays
    · exact now

/-- The registration outlasts a step that leaves the channel alone. -/
theorem Awaited.next (awaited : Awaited x p (act :: rest) g) (ichan : g'.ichan x = g.ichan x)
    (other : act.answers p = false) (above : Answering p rest → Answering p stack') :
    Awaited x p stack' g' := by
  unfold Awaited at awaited ⊢
  rw [ichan]
  exact ⟨awaited.1, awaited.2.imp_right fun answering => above (answering.of_cons other)⟩

/-- A step to another point. -/
theorem Attended.next (inv : Attended x p (act :: rest) g) (frame : frames [act'] = frames [act])
    (reserves : act'.reserves = act.reserves) (log : allocated g'.log = allocated g.log)
    (proc : g'.proc p = g.proc p) (ichan : g'.ichan x = g.ichan x) (other : act.answers p = false)
    (attends : initialised (act :: rest) g p = true →
      act'.Attends x p (g.proc p) (Awaited x p (act' :: rest) g')) :
    Attended x p (act' :: rest) g' := by
  have life : initialised (act' :: rest) g' p = initialised (act :: rest) g p := by
    refine initialised_congr log ?_ p
    simp only [List.filterMap_cons, reserves]
  refine inv.step (fun alive => life ▸ alive) ?_ (by rw [proc]) (by rw [proc]) (by rw [proc])
    (fun awaited => awaited.next ichan other Answering.cons) fun alive => ?_
  · have once := inv.once
    rw [frames_cons] at once ⊢
    rw [frame]
    exact once
  · refine List.forall_mem_cons.mpr ⟨Or.inr ?_, fun a mem => Or.inl (List.mem_cons_of_mem _ mem)⟩
    rw [proc]
    exact attends alive

/-- A call. -/
theorem Attended.call (inv : Attended x p (act :: rest) g) (frame : frames [act'] = frames [act])
    (reserves : act'.reserves = act.reserves) (log : allocated g'.log = allocated g.log)
    (proc : g'.proc p = g.proc p) (ichan : g'.ichan x = g.ichan x) (other : act.answers p = false)
    (none : frames [callee] = []) (unreserved : callee.reserves = Option.none)
    (attends : initialised (act :: rest) g p = true →
      act'.Attends x p (g.proc p) (Awaited x p (callee :: act' :: rest) g') ∧
        callee.Attends x p (g.proc p) (Awaited x p (callee :: act' :: rest) g')) :
    Attended x p (callee :: act' :: rest) g' := by
  have life : initialised (callee :: act' :: rest) g' p = initialised (act :: rest) g p := by
    refine initialised_congr log ?_ p
    simp only [List.filterMap_cons, reserves, unreserved]
  refine inv.step (fun alive => life ▸ alive) ?_ (by rw [proc]) (by rw [proc]) (by rw [proc])
    (fun awaited => awaited.next ichan other fun answering => answering.cons.cons) fun alive => ?_
  · have once := inv.once
    rw [frames_cons callee, frames_cons act', none, frame]
    rw [frames_cons] at once
    exact once
  · obtain ⟨caller, called⟩ := attends alive
    refine List.forall_mem_cons.mpr ⟨Or.inr ?_, List.forall_mem_cons.mpr ⟨Or.inr ?_,
      fun a mem => Or.inl (List.mem_cons_of_mem _ mem)⟩⟩
    · rw [proc]
      exact called
    · rw [proc]
      exact caller

/-- A return without a value. -/
theorem Attended.ret (inv : Attended x p (act :: rest) g) (frame : frames [act] = [])
    (reserves : act.reserves = none) (log : allocated g'.log = allocated g.log)
    (proc : g'.proc p = g.proc p) (ichan : g'.ichan x = g.ichan x) (other : act.answers p = false) :
    Attended x p rest g' := by
  have life : initialised rest g' p = initialised (act :: rest) g p := by
    refine initialised_congr log ?_ p
    simp only [List.filterMap_cons, reserves]
  refine inv.step (fun alive => life ▸ alive) ?_ (by rw [proc]) (by rw [proc]) (by rw [proc])
    (fun awaited => awaited.next ichan other id)
    fun alive a mem => Or.inl (List.mem_cons_of_mem _ mem)
  have once := inv.once
  rw [frames_cons, frame] at once
  exact once

end General

/-! ## The scheduler -/

section Steps

variable {x : ChanId} {p : Addr} {rest : List Act} {g : Globals}

theorem execTake_attended {pri : Nat} {pc : TakePc} (atop : Admitted .take rest)
    (inv : Attended x p (.take pri pc :: rest) g) :
    (execTake pri pc g).All (Attended x p) rest := by
  obtain ⟨base, under, rfl⟩ := atop.caller_of_take
  have back : ∀ r g', allocated g'.log = allocated g.log → g'.proc = g.proc → g'.ichan = g.ichan →
      Attended x p (.select base (.took r) :: under) g' := by
    intro r g' log proc ichan
    have caller : Attended x p (.select base .taking :: under) g' :=
      inv.ret rfl rfl log (congrFun proc p) (congrFun ichan x) rfl
    exact caller.next rfl rfl rfl rfl rfl rfl fun _ => trivial
  cases pc with
  | head =>
    simp only [execTake]
    split
    · exact back _ _ rfl rfl rfl
    · exact inv.next rfl rfl rfl rfl rfl rfl fun _ => trivial
  | next q => exact inv.next rfl rfl rfl rfl rfl rfl fun _ => trivial
  | test q =>
    simp only [execTake]
    split
    · exact inv.next rfl rfl rfl rfl rfl rfl fun _ => trivial
    · exact back _ _ rfl rfl rfl
  | tail q => exact inv.next rfl rfl rfl rfl rfl rfl fun _ => trivial
  | mask q => exact back _ _ rfl rfl rfl

theorem execAppend_attended {q : Addr} {pc : AppendPc} (inv : Attended x p (.append q pc :: rest) g) :
    (execAppend q pc g).All (Attended x p) rest := by
  have next : ∀ pc' g', allocated g'.log = allocated g.log → g'.proc = g.proc → g'.ichan = g.ichan →
      Attended x p (.append q pc' :: rest) g' := fun pc' g' log proc ichan =>
    inv.next rfl rfl log (congrFun proc p) (congrFun ichan x) rfl fun _ => trivial
  have back : ∀ g', allocated g'.log = allocated g.log → g'.proc = g.proc → g'.ichan = g.ichan →
      Attended x p rest g' := fun g' log proc ichan =>
    inv.ret rfl rfl log (congrFun proc p) (congrFun ichan x) rfl
  cases pc with
  | link =>
    simp only [execAppend]
    split
    · exact next _ _ rfl rfl rfl
    · exact next _ _ rfl rfl rfl
  | tail => exact next _ _ rfl rfl rfl
  | next => exact next _ _ rfl rfl rfl
  | test =>
    simp only [execAppend]
    split
    · exact next _ _ rfl rfl rfl
    · rw [Result.all_ret, returnTo_unit]
      exact back _ rfl rfl rfl
  | head => exact next _ _ rfl rfl rfl
  | mask =>
    rw [execAppend, Result.all_ret, returnTo_unit]
    exact back _ rfl rfl rfl

/-- A record is filled: if it is that of the process, the process is initial. -/
theorem Attended.fill {act act' : Act} {g' : Globals} {record q : Addr}
    (inv : Attended x p (act :: rest) g) (reserved : act.reserves = some record)
    (unreserved : act'.reserves = none) (frame : frames [act] = []) (frame' : frames [act'] = [])
    (other : act.answers p = false) (log : allocated g'.log = allocated g.log)
    (others : ∀ r, r ≠ record → g'.proc r = g.proc r) (state : (g'.proc record).state = .initial)
    (ichan : g'.ichan = g.ichan) (attends : ∀ proc reg, act'.Attends x p proc reg) :
    Attended x p (.append q .link :: act' :: rest) g' := by
  have once : (frames (.append q .link :: act' :: rest)).count p ≤ 1 := by
    have before := inv.once
    rw [frames_cons, frame] at before
    rw [frames_cons, frames_cons act', frame']
    exact before
  by_cases same : p = record
  · subst same
    exact Attended.calm once fun _ => by simp [state]
  · have proc := others p same
    refine inv.step (fun alive => ?_) once (by rw [proc]) (by rw [proc]) (by rw [proc])
      (fun awaited => awaited.next (congrFun ichan x) other fun answering => answering.cons.cons)
      fun _ => ?_
    · have called : (Act.append q .link).reserves = none := rfl
      simp only [initialised, log, List.filterMap_cons, called, unreserved, reserved,
        Bool.and_eq_true, decide_eq_true_eq, List.mem_cons, not_or] at alive ⊢
      exact ⟨alive.1, same, alive.2⟩
    · exact List.forall_mem_cons.mpr ⟨Or.inr trivial, List.forall_mem_cons.mpr
        ⟨Or.inr (attends _ _), fun a mem => Or.inl (List.mem_cons_of_mem _ mem)⟩⟩

/-- A record is allocated and reserved. -/
theorem Attended.alloc {act act' : Act} {g' : Globals} {record : Addr}
    (inv : Attended x p (act :: rest) g) (unreserved : act.reserves = none)
    (reserved : act'.reserves = some record) (frame : frames [act'] = frames [act])
    (other : act.answers p = false) (log : g'.log = .alloc record :: g.log) (proc : g'.proc = g.proc)
    (ichan : g'.ichan = g.ichan) (attends : ∀ proc reg, act'.Attends x p proc reg) :
    Attended x p (act' :: rest) g' := by
  refine inv.step (fun alive => ?_) ?_ (by rw [proc]) (by rw [proc]) (by rw [proc])
    (fun awaited => awaited.next (congrFun ichan x) other Answering.cons) fun _ => ?_
  · by_cases same : record = p
    · subst same
      simp [initialised, reserved] at alive
    · simpa [initialised, log, allocated, reserved, unreserved, same, Ne.symm same] using alive
  · have once := inv.once
    rw [frames_cons] at once ⊢
    rw [frame]
    exact once
  · exact List.forall_mem_cons.mpr ⟨Or.inr (attends _ _),
      fun a mem => Or.inl (List.mem_cons_of_mem _ mem)⟩

theorem execStart_attended {args : StartArgs} {pc : StartPc}
    (inv : Attended x p (.start args pc :: rest) g) :
    (execStart args pc g).All (Attended x p) rest := by
  cases pc with
  | check =>
    simp only [execStart]
    split
    · trivial
    · split
      · exact inv.next rfl rfl rfl rfl rfl rfl fun _ => trivial
      · trivial
      · trivial
  | alloc index =>
    simp only [execStart]
    split
    · trivial
    · exact inv.alloc rfl rfl rfl rfl rfl rfl rfl fun _ _ => trivial
  | fill index record =>
    refine inv.fill rfl rfl rfl rfl rfl rfl (fun r other => Globals.setProc_of_ne g _ other) ?_ rfl
      fun _ _ => trivial
    simp [Globals.setProc]
  | appended =>
    rw [execStart, Result.all_ret, returnTo_unit]
    exact inv.ret rfl rfl rfl rfl rfl rfl

theorem execMain_attended {pc : MainPc} (inv : Attended x p (.main pc :: rest) g) :
    (execMain pc g).All (Attended x p) rest := by
  cases pc with
  | memoryInit arena memlen =>
    cases arena with
    | none => trivial
    | some arena => exact inv.next rfl rfl rfl rfl rfl rfl fun _ => trivial
  | schedInit => exact inv.next rfl rfl rfl rfl rfl rfl fun _ => trivial
  | idleAlloc =>
    simp only [execMain]
    split
    · split
      · trivial
      · exact inv.alloc rfl rfl rfl rfl rfl rfl rfl fun _ _ => trivial
    · trivial
    · trivial
  | idleFill index record =>
    refine inv.fill rfl rfl rfl rfl rfl rfl (fun r other => Globals.setProc_of_ne g _ other) ?_ rfl
      fun _ _ => trivial
    simp [Globals.setProc]
  | timerInit => exact inv.next rfl rfl rfl rfl rfl rfl fun _ => trivial
  | user => trivial
  | running => trivial

theorem execSelect_attended {base : Int} {pc : SelectPc}
    (allowed : Attends x p .run ⟨.select base pc :: rest, g, none⟩)
    (inv : Attended x p (.select base pc :: rest) g) :
    (execSelect base pc g).All (Attended x p) rest := by
  cases pc with
  | top => exact inv.next rfl rfl rfl rfl rfl rfl fun _ => trivial
  | chosen highest =>
    simp only [execSelect]
    split
    · rw [Result.all_ret, returnTo_unit]
      exact inv.ret rfl rfl rfl rfl rfl rfl
    · exact inv.call rfl rfl rfl rfl rfl rfl rfl rfl fun _ => ⟨trivial, trivial⟩
  | taking => trivial
  | took r =>
    cases r with
    | none => trivial
    | some q =>
      have once : (frames (.schedule base q .top :: rest)).count p ≤ 1 := by
        have before : (frames rest).count p ≤ 1 := inv.once
        change (q :: frames rest).count p ≤ 1
        by_cases same : q = p
        · have free : p ∉ frames rest := by
            have taken := allowed.once
            simp only [takenOnce, decide_eq_true_eq] at taken
            exact taken same
          rw [same, List.count_cons_self, List.count_eq_zero_of_not_mem free]
        · rw [List.count_cons_of_ne same]
          exact before
      refine inv.step (fun alive => alive) once rfl rfl rfl (fun awaited =>
        awaited.next rfl rfl Answering.cons) fun _ => ?_
      refine List.forall_mem_cons.mpr ⟨Or.inr fun _ => ⟨elim_of_false rfl, elim_of_false rfl⟩,
        fun a mem => Or.inl (List.mem_cons_of_mem _ mem)⟩

/-- Where the process is not in progress, no activation is one of its. -/
theorem Stacked.frame_of_process {stack : List Act} {act : Act} (stacked : Stacked stack)
    (mem : act ∈ stack) (process : act.process = some p) : p ∈ frames stack := by
  induction stack with
  | nil => cases mem
  | cons top under ih =>
    have deeper : p ∈ frames under → p ∈ frames (top :: under) := by
      intro inner
      cases top <;> simp [frames] at inner ⊢ <;> simp [inner]
    rcases List.mem_cons.mp mem with rfl | inner
    · cases act with
      | schedule base q pc =>
        cases process
        exact List.mem_cons_self
      | rtc q =>
        cases process
        obtain ⟨base, outer, rfl | rfl⟩ := stacked.1.caller_of_rtc
        · exact deeper List.mem_cons_self
        · exact deeper List.mem_cons_self
      | enableAlt q pc =>
        cases process
        obtain ⟨base, outer, rfl⟩ := stacked.1.caller_of_enableAlt
        exact deeper List.mem_cons_self
      | disableAlt q pc =>
        cases process
        obtain ⟨base, outer, rfl⟩ := stacked.1.caller_of_disableAlt
        exact deeper List.mem_cons_self
      | _ => cases process
    · exact deeper (ih stacked.2 inner)

/-- Below the activation of `schedule` for a process that is in progress once, none is one of
its. -/
theorem Stacked.outer {base : Int} {pc : SchedulePc} (stacked : Stacked (.schedule base p pc :: rest))
    (once : (frames (.schedule base p pc :: rest)).count p ≤ 1) :
    ∀ act ∈ rest, act.process ≠ some p := by
  intro act mem process
  have inner := stacked.2.frame_of_process mem process
  have twice : (p :: frames rest).count p ≤ 1 := once
  rw [List.count_cons_self] at twice
  have some := List.count_pos_iff.mpr inner
  omega

/-- `schedule` stores the state of its process. -/
theorem Attended.setState {base : Int} {q : Addr} {pc pc' : SchedulePc} {state : PState} {g' : Globals}
    (inv : Attended x p (.schedule base q pc :: rest) g) (log : allocated g'.log = allocated g.log)
    (proc : g'.proc = (g.setState q state).proc) (ichan : g'.ichan = g.ichan)
    (calm : state ≠ .waiting ∧ state ≠ .enabling) :
    Attended x p (.schedule base q pc' :: rest) g' := by
  by_cases same : q = p
  · subst same
    refine Attended.calm inv.once fun _ => ?_
    rw [proc, Globals.setState_state_self]
    exact calm
  · refine inv.next rfl rfl log ?_ (congrFun ichan x) rfl fun _ own => absurd own same
    rw [proc, Globals.setState_of_ne g state (Ne.symm same)]

theorem execSchedule_attended {base : Int} {q : Addr} {pc : SchedulePc}
    (stacked : Stacked (.schedule base q pc :: rest))
    (inv : Attended x p (.schedule base q pc :: rest) g) :
    (execSchedule base q pc g).All (Attended x p) rest := by
  have busy : initialised (.schedule base q pc :: rest) g p = true → q = p → pc.busy = true →
      (g.proc p).state ≠ .waiting ∧ (g.proc p).state ≠ .enabling := fun alive own =>
    (inv.attends alive _ List.mem_cons_self own).1
  -- a step to a point at which nothing is asked for, or what was asked for before
  have next : ∀ pc' g', allocated g'.log = allocated g.log → g'.proc = g.proc → g'.ichan = g.ichan →
      (pc'.busy = true → pc.busy = true) → pc'.unready = false →
      Attended x p (.schedule base q pc' :: rest) g' := fun pc' g' log proc ichan less ready =>
    inv.next rfl rfl log (congrFun proc p) (congrFun ichan x) rfl fun alive own =>
      ⟨fun now => busy alive own (less now), elim_of_false ready⟩
  have call : ∀ pc' callee g', allocated g'.log = allocated g.log → g'.proc = g.proc →
      g'.ichan = g.ichan → frames [callee] = [] → callee.reserves = none →
      (∀ proc reg, callee.Attends x p proc reg) → (pc'.busy = true → pc.busy = true) →
      pc'.unready = false → Attended x p (callee :: .schedule base q pc' :: rest) g' :=
    fun pc' callee g' log proc ichan frame reserves attends less ready =>
      inv.call rfl rfl log (congrFun proc p) (congrFun ichan x) rfl frame reserves fun alive =>
        ⟨fun own => ⟨fun now => busy alive own (less now),
          elim_of_false ready⟩, attends _ _⟩
  cases pc with
  | top =>
    refine inv.next rfl rfl rfl rfl rfl rfl fun alive own => ⟨fun now => ?_, elim_of_false rfl⟩
    subst own
    simpa [SchedulePc.busy] using now
  | dispatch state =>
    cases state with
    | initial => exact call _ _ _ rfl rfl rfl rfl rfl (fun _ _ => trivial) id rfl
    | quiescent =>
      by_cases same : q = p
      · subst same
        have outer := stacked.outer inv.once
        have state : ((g.setState q .enabling).proc q).state = .enabling :=
          g.setState_state_self q .enabling
        refine ⟨inv.once, fun _ waits => ?_, fun _ => ?_⟩
        · rw [Globals.emit_proc, state] at waits
          cases waits
        · refine List.forall_mem_cons.mpr ⟨fun _ _ => ⟨trivial, fun j mem => ?_⟩,
            List.forall_mem_cons.mpr ⟨fun _ => ⟨elim_of_false rfl, elim_of_false rfl⟩,
              fun a mem => Act.Attends.of_other (outer a mem)⟩⟩
          cases mem
      · refine inv.call rfl rfl rfl ?_ rfl rfl rfl rfl fun _ =>
          ⟨fun own => absurd own same, fun own => absurd own same⟩
        exact Globals.setState_of_ne g .enabling (Ne.symm same)
    | ready => exact call _ _ _ rfl rfl rfl rfl rfl (fun _ _ => trivial) (fun _ => rfl) rfl
    | waiting => exact next _ _ rfl rfl rfl (elim_of_false rfl) rfl
    | enabling => exact next _ _ rfl rfl rfl (elim_of_false rfl) rfl
    | done => exact next _ _ rfl rfl rfl (elim_of_false rfl) rfl
  | initial => exact inv.setState rfl rfl rfl (by simp)
  | enabling => trivial
  | enabled found partner =>
    by_cases same : q = p
    · subst same
      have outer := stacked.outer inv.once
      have attends : initialised (.schedule base q (.enabled found partner) :: rest) g q = true →
          found = false → (g.proc q).state = .enabling → ∀ j < (g.proc q).alt.nrGuards,
            ((g.proc q).alt.guards j).expects x = true →
              Awaited x q (.schedule base q (.enabled found partner) :: rest) g := by
        rintro alive rfl
        exact (inv.attends alive _ List.mem_cons_self rfl).2 rfl
      simp only [execSchedule]
      generalize after : (g.proc q).state.afterEnabling found = state
      have stored : ((g.setState q state).proc q).state = state := g.setState_state_self q state
      have alt : ((g.setState q state).proc q).alt = (g.proc q).alt := g.setState_alt q q state
      have stays : Awaited x q (.schedule base q (.enabled found partner) :: rest) g →
          Awaited x q (.schedule base q (.branch state partner) :: rest)
            (g.setState q state).enable := fun awaited =>
        awaited.next rfl rfl Answering.cons
      refine ⟨inv.once, fun alive waits => ?_, fun alive => ?_⟩
      · have waiting : state = .waiting := stored.symm.trans waits
        change ∀ j < ((g.setState q state).proc q).alt.nrGuards,
          (((g.setState q state).proc q).alt.guards j).expects x = true → _
        rw [alt]
        intro j inside expects
        rw [waiting] at after
        by_cases enabling : (g.proc q).state = .enabling
        · have none : found = false := by
            cases found with
            | false => rfl
            | true => simp [PState.afterEnabling, enabling] at after
          exact stays (attends alive none enabling j inside expects)
        · rw [PState.afterEnabling, if_neg enabling] at after
          exact stays (inv.waits alive after j inside expects)
      · refine List.forall_mem_cons.mpr ⟨fun _ => ⟨fun now => ?_, elim_of_false rfl⟩,
          fun a mem => Act.Attends.of_other (outer a mem)⟩
        have ready : state = .ready := of_decide_eq_true now
        change ((g.setState q state).proc q).state ≠ .waiting ∧
          ((g.setState q state).proc q).state ≠ .enabling
        rw [stored, ready]
        simp
    · refine inv.next rfl rfl rfl ?_ rfl rfl fun _ own => absurd own same
      exact Globals.setState_of_ne g _ (Ne.symm same)
  | branch state partner =>
    simp only [execSchedule]
    split
    · rename_i ready
      exact call _ _ _ rfl rfl rfl rfl rfl (fun _ _ => trivial) (fun _ => decide_eq_true ready) rfl
    · exact next _ _ rfl rfl rfl (elim_of_false rfl) rfl
  | disabling => trivial
  | disabled partner => exact inv.setState rfl rfl rfl (by simp)
  | partner partner executes =>
    cases partner with
    | none => cases executes <;> exact next _ _ rfl rfl rfl id rfl
    | some r => cases executes <;> exact call _ _ _ rfl rfl rfl rfl rfl (fun _ _ => trivial) id rfl
  | readying executes => cases executes <;> exact next _ _ rfl rfl rfl id rfl
  | execute executes =>
    cases executes with
    | false => exact next _ _ rfl rfl rfl (elim_of_false rfl) rfl
    | true => exact call _ _ _ rfl rfl rfl rfl rfl (fun _ _ => trivial) id rfl
  | executing => exact next _ _ rfl rfl rfl (elim_of_false rfl) rfl
  | finish =>
    have fewer : (frames (.select base .top :: rest)).count p ≤ 1 := by
      have once : (q :: frames rest).count p ≤ 1 := inv.once
      exact (List.count_le_count_cons).trans once
    have leave : ∀ g', (initialised (.select base .top :: rest) g' p = true →
        initialised (.schedule base q .finish :: rest) g p = true) → g'.proc = g.proc →
        g'.ichan = g.ichan → Attended x p (.select base .top :: rest) g' := by
      intro g' life proc ichan
      refine inv.step life fewer (by rw [proc]) (by rw [proc]) (by rw [proc])
        (fun awaited => awaited.next (congrFun ichan x) rfl Answering.cons) fun _ => ?_
      exact List.forall_mem_cons.mpr ⟨Or.inr trivial, fun a mem => Or.inl (List.mem_cons_of_mem _ mem)⟩
    simp only [execSchedule]
    split
    · refine leave _ (fun alive => ?_) rfl rfl
      have reserves : (Act.select base .top :: rest).filterMap Act.reserves =
          (Act.schedule base q .finish :: rest).filterMap Act.reserves := rfl
      by_cases same : q = p
      · simp [initialised, allocated, same] at alive
      · simpa [initialised, allocated, reserves, same] using alive
    · exact leave _ id rfl rfl
    · exact next _ _ rfl rfl rfl (elim_of_false rfl) rfl

/-- A guard of another kind does not expect an interrupt. -/
theorem Guard.not_expects {guard : Guard} (other : ∀ y dest, guard ≠ ⟨.interrupt y dest, true⟩) :
    guard.expects x = false := by
  unfold Guard.expects
  split
  · rename_i y dest
    exact absurd rfl (other y dest)
  · rfl

/-- `enable_alt` goes on to another point. -/
theorem Attended.enableNext {q : Addr} {pc pc' : EnablePc} {g' : Globals}
    (inv : Attended x p (.enableAlt q pc :: rest) g) (log : allocated g'.log = allocated g.log)
    (proc : g'.proc = g.proc)
    (stays : q = p → Awaited x p (.enableAlt q pc :: rest) g →
      Awaited x p (.enableAlt q pc' :: rest) g')
    (others : q ≠ p → g'.ichan x = g.ichan x)
    (inside : q = p → pc.Inside (g.proc p).alt.nrGuards → pc'.Inside (g.proc p).alt.nrGuards)
    (visited : q = p → pc.Inside (g.proc p).alt.nrGuards → ∀ j ∈ pc'.visited (g.proc p).alt.nrGuards,
      j ∈ pc.visited (g.proc p).alt.nrGuards ∨ (((g.proc p).alt.guards j).expects x = true →
        Awaited x p (.enableAlt q pc' :: rest) g')) :
    Attended x p (.enableAlt q pc' :: rest) g' := by
  have keeps : Awaited x p (.enableAlt q pc :: rest) g →
      Awaited x p (.enableAlt q pc' :: rest) g' := by
    by_cases same : q = p
    · exact stays same
    · exact fun awaited => awaited.next (others same) rfl Answering.cons
  have life : initialised (.enableAlt q pc' :: rest) g' p = initialised (.enableAlt q pc :: rest) g p :=
    initialised_congr log rfl p
  refine inv.step (fun alive => life ▸ alive) inv.once (by rw [proc]) (by rw [proc]) (by rw [proc])
    keeps fun alive => ?_
  refine List.forall_mem_cons.mpr ⟨Or.inr fun own enabling => ?_,
    fun a mem => Or.inl (List.mem_cons_of_mem _ mem)⟩
  rw [proc] at enabling ⊢
  obtain ⟨within, before⟩ := inv.attends alive _ List.mem_cons_self own enabling
  refine ⟨inside own within, fun j mem expects => ?_⟩
  rcases visited own within j mem with earlier | now
  · exact keeps (before j earlier expects)
  · exact now expects

theorem execEnableAlt_attended {q : Addr} {pc : EnablePc} (stacked : Stacked (.enableAlt q pc :: rest))
    (allowed : Attends x p .run ⟨.enableAlt q pc :: rest, g, none⟩)
    (inv : Attended x p (.enableAlt q pc :: rest) g) :
    (execEnableAlt q pc g).All (Attended x p) rest := by
  obtain ⟨base, under, rfl⟩ := (stacked.1 : Admitted (.enableAlt q) rest).caller_of_enableAlt
  have current : g.current = some q := by
    have itself := allowed.itself
    simpa [findsItself] using itself
  -- a step that leaves the channel alone
  have plain : ∀ pc' g', allocated g'.log = allocated g.log → g'.proc = g.proc →
      g'.ichan x = g.ichan x →
      (q = p → pc.Inside (g.proc p).alt.nrGuards → pc'.Inside (g.proc p).alt.nrGuards) →
      (q = p → pc.Inside (g.proc p).alt.nrGuards → ∀ j ∈ pc'.visited (g.proc p).alt.nrGuards,
        j ∈ pc.visited (g.proc p).alt.nrGuards ∨ ((g.proc p).alt.guards j).expects x = false) →
      Attended x p (.enableAlt q pc' :: .schedule base q .enabling :: under) g' := by
    intro pc' g' log proc ichan inside visited
    refine inv.enableNext log proc (fun _ awaited => awaited.next ichan rfl Answering.cons)
      (fun _ => ichan) inside fun own within j mem => ?_
    exact (visited own within j mem).imp_right fun none expects =>
      elim_of_false none expects
  cases pc with
  | enter =>
    simp only [execEnableAlt]
    split
    · trivial
    · split
      · exact plain _ _ rfl rfl rfl (fun _ _ => id) fun _ _ j mem => absurd mem List.not_mem_nil
      · split
        · trivial
        · refine plain _ _ rfl rfl rfl ?_ fun _ _ j mem => absurd mem List.not_mem_nil
          rintro rfl -
          exact plus1Mod_lt
  | loop i k partner =>
    simp only [execEnableAlt]
    split
    · rename_i more
      have positive : 0 < (g.proc q).alt.nrGuards := Nat.zero_lt_of_lt more
      have following : ∀ partner' j, q = p → EnablePc.Inside (g.proc p).alt.nrGuards (.loop i k partner) →
          j ∈ EnablePc.visited (g.proc p).alt.nrGuards
            (.loop (plus1Mod i (g.proc q).alt.nrGuards) (k + 1) partner') →
          j = i ∨ j ∈ EnablePc.visited (g.proc p).alt.nrGuards (.loop i k partner) := by
        rintro partner' j rfl within mem
        have visited : EnablePc.visited (g.proc q).alt.nrGuards
            (.loop (plus1Mod i (g.proc q).alt.nrGuards) (k + 1) partner') =
              i :: downFrom (g.proc q).alt.nrGuards (minus1Mod i (g.proc q).alt.nrGuards) k :=
          downFrom_plus1Mod (within positive)
        rw [visited] at mem
        exact List.mem_cons.mp mem
      -- a guard that does not expect an interrupt from the channel is passed
      have pass : ∀ partner' g', allocated g'.log = allocated g.log → g'.proc = g.proc →
          g'.ichan x = g.ichan x → ((g.proc q).alt.guards i).expects x = false →
          Attended x p (.enableAlt q (.loop (plus1Mod i (g.proc q).alt.nrGuards) (k + 1) partner') ::
            .schedule base q .enabling :: under) g' := by
        intro partner' g' log proc ichan none
        refine plain _ _ log proc ichan (fun own _ _ => ?_) fun own within j mem => ?_
        · subst own
          exact plus1Mod_lt positive
        · rcases following partner' j own within mem with rfl | earlier
          · subst own
            exact Or.inr none
          · exact Or.inl earlier
      -- it is found ready
      have found : ∀ partner' g', allocated g'.log = allocated g.log → g'.proc = g.proc →
          g'.ichan x = g.ichan x →
          Attended x p (.enableAlt q (.done i k true partner') :: .schedule base q .enabling :: under)
            g' := fun partner' g' log proc ichan =>
        plain _ _ log proc ichan (fun _ _ => trivial) fun _ _ j mem => absurd mem List.not_mem_nil
      split
      · rename_i active
        split
        · rename_i c dest len kind
          have none : ((g.proc q).alt.guards i).expects x = false :=
            Guard.not_expects fun y dest' same => by rw [same] at kind; cases kind
          split
          · exact found _ _ rfl rfl rfl
          · exact pass _ _ rfl rfl rfl none
        · rename_i c src kind
          have none : ((g.proc q).alt.guards i).expects x = false :=
            Guard.not_expects fun y dest' same => by rw [same] at kind; cases kind
          exact pass _ _ rfl rfl rfl none
        · exact found _ _ rfl rfl rfl
        · rename_i t kind
          have none : ((g.proc q).alt.guards i).expects x = false :=
            Guard.not_expects fun y dest' same => by rw [same] at kind; cases kind
          split
          · exact found _ _ rfl rfl rfl
          · refine plain _ _ rfl rfl rfl (fun own within => ?_) fun own within j mem => ?_
            · subst own
              exact within positive
            · rcases List.mem_cons.mp mem with rfl | earlier
              · subst own
                exact Or.inr none
              · exact Or.inl earlier
        · rename_i y dest kind
          have guard : (g.proc q).alt.guards i = ⟨.interrupt y dest, true⟩ := by rw [← kind, ← active]
          let visited := (g.emit (.enabled q i)).disable
          have stored : (visited.enableInterruptChannel y).2.ichan = Function.update g.ichan y
              ((g.ichan y).enable g.current).2 := rfl
          by_cases counted : (g.ichan y).count = 0
          · have none : (visited.enableInterruptChannel y).1 = false := by
              simp [visited, Globals.enableInterruptChannel, InterruptChannel.enable, counted]
            have waits : ((g.ichan y).enable g.current).2 = ⟨some q, 0⟩ := by
              simp [InterruptChannel.enable, counted, current]
            rw [if_neg (by rw [none]; simp)]
            by_cases same : y = x
            · subst same
              have own : q = p := by
                have used := allowed.used
                simpa [usedBy, Globals.guard, guard, Guard.expects] using used
              subst own
              have awaited : ∀ stack, Awaited y q stack (visited.enableInterruptChannel y).2 := by
                intro stack
                refine ⟨?_, Or.inl ?_⟩ <;> rw [stored, Function.update_self, waits]
              refine inv.enableNext rfl rfl (fun _ _ => awaited _) (fun other => absurd rfl other)
                (fun _ _ => plus1Mod_lt) fun own within j mem => ?_
              rcases following _ j own within mem with rfl | earlier
              · exact Or.inr fun _ => awaited _
              · exact Or.inl earlier
            · refine pass _ _ rfl rfl ?_ (by simp [guard, Guard.expects, same])
              rw [stored, Function.update_of_ne (Ne.symm same)]
          · have some : (visited.enableInterruptChannel y).1 = true := by
              simp [visited, Globals.enableInterruptChannel, InterruptChannel.enable, counted]
            have stays : ((g.ichan y).enable g.current).2 = g.ichan y := by
              simp [InterruptChannel.enable, counted]
            rw [if_pos some]
            refine found _ _ rfl rfl ?_
            rw [stored, stays, Function.update_eq_self]
      · rename_i inactive
        refine pass _ _ rfl rfl rfl (Guard.not_expects fun y dest same => inactive ?_)
        rw [same]
    · rename_i all
      split
      · trivial
      · refine plain _ _ rfl rfl rfl (fun _ _ => trivial) ?_
        rintro rfl within j mem
        refine Or.inl (mem_downFrom_of_le (minus1Mod_lt (by omega)) (by omega) (List.mem_range.mp mem))
  | insert i k t partner =>
    simp only [execEnableAlt]
    split
    · trivial
    · refine plain _ _ rfl rfl rfl ?_ ?_
      · rintro rfl within
        exact plus1Mod_lt
      · rintro rfl within j mem
        refine Or.inl ?_
        have visited : EnablePc.visited (g.proc q).alt.nrGuards
            (.loop (plus1Mod i (g.proc q).alt.nrGuards) (k + 1) partner) =
              downFrom (g.proc q).alt.nrGuards i (k + 1) := by
          rw [EnablePc.visited, minus1Mod_plus1Mod within]
        rw [visited] at mem
        exact mem
  | done i k found partner =>
    have caller : Act.resume (.schedule base q .enabling) (.alt found partner) =
      .schedule base q (.enabled found partner) := rfl
    simp only [execEnableAlt, Result.all_ret, returnTo, caller]
    let alt := { (g.proc q).alt with index := toUint8 i, count := toUint8 k }
    have same : ((g.setAlt q alt).proc p).state = (g.proc p).state ∧
        ((g.setAlt q alt).proc p).alt.guards = (g.proc p).alt.guards ∧
        ((g.setAlt q alt).proc p).alt.nrGuards = (g.proc p).alt.nrGuards := by
      by_cases own : q = p
      · subst own
        simp [alt]
      · have proc : (g.setAlt q alt).proc p = g.proc p := Function.update_of_ne (Ne.symm own) _ _
        rw [proc]
        exact ⟨rfl, rfl, rfl⟩
    have stays : Awaited x p (.enableAlt q (.done i k found partner) ::
        .schedule base q .enabling :: under) g →
        Awaited x p (.schedule base q (.enabled found partner) :: under) (g.setAlt q alt) :=
      fun awaited => awaited.next rfl rfl fun answering => (answering.of_cons rfl).cons
    refine inv.step (fun alive => alive) inv.once same.1 same.2.1 same.2.2 stays fun alive => ?_
    refine List.forall_mem_cons.mpr ⟨Or.inr fun own => ⟨elim_of_false rfl, fun unready enabling j inside expects =>
      ?_⟩, fun a mem => Or.inl (List.mem_cons_of_mem _ (List.mem_cons_of_mem _ mem))⟩
    rw [same.1] at enabling
    rw [same.2.2] at inside
    rw [same.2.1] at expects
    cases found with
    | true => cases unready
    | false =>
      exact stays ((inv.attends alive _ List.mem_cons_self own enabling).2 j
        (List.mem_range.mpr inside) expects)

/-- `disable_alt` on behalf of another process. -/
theorem Attended.disableOther {q : Addr} {pc pc' : DisablePc} {g' : Globals}
    (inv : Attended x p (.disableAlt q pc :: rest) g) (log : allocated g'.log = allocated g.log)
    (proc : g'.proc p = g.proc p) (ichan : g'.ichan x = g.ichan x) :
    Attended x p (.disableAlt q pc' :: rest) g' :=
  inv.next rfl rfl log proc ichan rfl fun _ => trivial

theorem execDisableAlt_attended {q : Addr} {pc : DisablePc}
    (stacked : Stacked (.disableAlt q pc :: rest))
    (allowed : Attends x p .run ⟨.disableAlt q pc :: rest, g, none⟩)
    (inv : Attended x p (.disableAlt q pc :: rest) g) :
    (execDisableAlt q pc g).All (Attended x p) rest := by
  obtain ⟨base, under, rfl⟩ := (stacked.1 : Admitted (.disableAlt q) rest).caller_of_disableAlt
  -- the process itself neither waits nor is enabled
  have calm : q = p → initialised (.disableAlt q pc :: .schedule base q .disabling :: under) g p = true →
      (g.proc p).state ≠ .waiting ∧ (g.proc p).state ≠ .enabling := fun own alive =>
    (inv.attends alive _ (List.mem_cons_of_mem _ List.mem_cons_self) own).1 rfl
  have go : ∀ pc' g', allocated g'.log = allocated g.log →
      (∀ r, (g'.proc r).state = (g.proc r).state) → (q ≠ p → g'.proc p = g.proc p) →
      (q ≠ p → g'.ichan x = g.ichan x) →
      Attended x p (.disableAlt q pc' :: .schedule base q .disabling :: under) g' := by
    intro pc' g' log state proc ichan
    by_cases same : q = p
    · refine Attended.calm inv.once fun alive => ?_
      rw [state]
      exact calm same ((initialised_congr log rfl p).symm.trans alive)
    · exact inv.disableOther log (proc same) (ichan same)
  have back : ∀ partner g', allocated g'.log = allocated g.log → g'.proc = g.proc →
      (q ≠ p → g'.ichan x = g.ichan x) →
      Attended x p (.schedule base q (.disabled partner) :: under) g' := by
    intro partner g' log proc ichan
    have life : initialised (.schedule base q (.disabled partner) :: under) g' p =
        initialised (.disableAlt q pc :: .schedule base q .disabling :: under) g p :=
      initialised_congr log rfl p
    by_cases same : q = p
    · refine Attended.calm inv.once fun alive => ?_
      rw [proc]
      exact calm same (life.symm.trans alive)
    · refine inv.step (fun alive => life.symm.trans alive) inv.once (by rw [proc]) (by rw [proc])
        (by rw [proc]) (fun awaited => awaited.next (ichan same) rfl fun answering =>
          (answering.of_cons rfl).cons) fun _ => ?_
      exact List.forall_mem_cons.mpr ⟨Or.inr fun own => absurd own same,
        fun a mem => Or.inl (List.mem_cons_of_mem _ (List.mem_cons_of_mem _ mem))⟩
  -- the record of the process
  have stored : ∀ alt, (∀ r, ((g.setAlt q alt).proc r).state = (g.proc r).state) ∧
      (q ≠ p → (g.setAlt q alt).proc p = g.proc p) := fun alt =>
    ⟨fun r => Globals.setAlt_state g q r alt, fun other => Function.update_of_ne (Ne.symm other) _ _⟩
  cases pc with
  | enter => exact go _ _ rfl (fun _ => rfl) (fun _ => rfl) fun _ => rfl
  | loop i left partner =>
    cases left with
    | zero =>
      simp only [execDisableAlt]
      split
      · exact go _ _ rfl (fun _ => rfl) (fun _ => rfl) fun _ => rfl
      · rename_i y dest kind
        refine back _ _ rfl rfl fun other => ?_
        have apart : y ≠ x := by
          rintro rfl
          have used := allowed.used
          simp only [usedBy, Globals.guard, kind, decide_eq_true_eq] at used
          exact other (used trivial).1
        exact Function.update_of_ne (Ne.symm apart) _ _
      · exact back _ _ rfl rfl fun _ => rfl
    | succ left =>
      simp only [execDisableAlt]
      split
      · trivial
      · split
        · rename_i active
          split
          · exact go _ _ rfl (stored _).1 (stored _).2 fun _ => rfl
          · exact go _ _ rfl (stored _).1 (stored _).2 fun _ => rfl
          · exact go _ _ rfl (stored _).1 (stored _).2 fun _ => rfl
          · exact go _ _ rfl (stored _).1 (stored _).2 fun _ => rfl
          · rename_i y dest kind
            refine go _ _ rfl (stored _).1 (stored _).2 fun other => ?_
            have guard : (g.proc q).alt.guards i = ⟨.interrupt y dest, true⟩ := by
              rw [← kind, ← active]
            have apart : y ≠ x := by
              rintro rfl
              have used := allowed.used
              simp [usedBy, Globals.guard, guard, Guard.expects, other] at used
            exact Function.update_of_ne (Ne.symm apart) _ _
        · exact go _ _ rfl (fun _ => rfl) (fun _ => rfl) fun _ => rfl
  | copy c dest len partner =>
    simp only [execDisableAlt]
    split
    · trivial
    · exact go _ _ rfl (fun _ => rfl) (fun _ => rfl) fun _ => rfl
  | clear c partner => exact back _ _ rfl rfl fun _ => rfl

/-! ## Handlers -/

theorem execReady_attended {q : Addr} {pc : ReadyPc} (inv : Attended x p (.ready q pc :: rest) g) :
    (execReady q pc g).All (Attended x p) rest := by
  cases pc with
  | test =>
    by_cases same : q = p
    · subst same
      simp only [execReady]
      split
      · rw [Result.all_ret, returnTo_unit]
        refine Attended.calm inv.once fun _ => ?_
        simp
      · refine Attended.calm inv.once fun _ => ?_
        simp
    · have other : (Act.ready q .test).answers p = false := decide_eq_false same
      have apart : ∀ g : Globals, ∀ state, (g.setState q state).proc p = g.proc p := fun g state =>
        Globals.setState_of_ne g state (Ne.symm same)
      simp only [execReady]
      split
      · rw [Result.all_ret, returnTo_unit]
        exact inv.ret rfl rfl rfl (apart g .ready) rfl other
      · exact inv.call rfl rfl rfl ((apart (g.setState q .waiting) .ready).trans (apart g .waiting)) rfl
          other rfl rfl fun _ => ⟨trivial, trivial⟩
  | appended =>
    simp only [execReady, callSchedule]
    split
    · trivial
    · split
      · exact inv.call rfl rfl rfl rfl rfl rfl rfl rfl fun _ => ⟨trivial, trivial⟩
      · rw [Result.all_ret, returnTo_unit]
        exact inv.ret rfl rfl rfl rfl rfl rfl
  | scheduling prev =>
    rw [execReady, Result.all_ret, returnTo_unit]
    exact inv.ret rfl rfl rfl rfl rfl rfl

theorem execSignal_attended {intr : Nat} {saved : SigSet} {pc : SignalPc}
    (inv : Attended x p (.signal intr saved pc :: rest) g) :
    (execSignal intr saved pc g).All (Attended x p) rest := by
  have next : ∀ pc' g', allocated g'.log = allocated g.log → g'.proc = g.proc → g'.ichan = g.ichan →
      Attended x p (.signal intr saved pc' :: rest) g' := fun pc' g' log proc ichan =>
    inv.next rfl rfl log (congrFun proc p) (congrFun ichan x) rfl fun _ => trivial
  have call : ∀ pc' callee g', allocated g'.log = allocated g.log → g'.proc = g.proc →
      g'.ichan = g.ichan → frames [callee] = [] → callee.reserves = none →
      (∀ proc reg, callee.Attends x p proc reg) →
      Attended x p (callee :: .signal intr saved pc' :: rest) g' :=
    fun pc' callee g' log proc ichan frame reserves attends =>
      inv.call rfl rfl log (congrFun proc p) (congrFun ichan x) rfl frame reserves fun _ =>
        ⟨trivial, attends _ _⟩
  cases pc with
  | enter =>
    simp only [execSignal]
    split
    · exact call _ _ _ rfl rfl rfl rfl rfl fun _ _ => trivial
    · exact call _ _ _ rfl rfl rfl rfl rfl fun _ _ => trivial
    · exact next _ _ rfl rfl rfl
  | handled previously =>
    simp only [execSignal, callScheduleAtCurrent, callSchedule]
    split
    · split
      · trivial
      · exact call _ _ _ rfl rfl rfl rfl rfl fun _ _ => trivial
    · exact next _ _ rfl rfl rfl
  | scheduled previously => exact next _ _ rfl rfl rfl
  | leave =>
    rw [execSignal, Result.all_ret, returnTo_unit]
    exact inv.ret rfl rfl rfl rfl rfl rfl

theorem execTimeoutHandler_attended {pc : TimeoutPc}
    (inv : Attended x p (.timeoutHandler pc :: rest) g) :
    (execTimeoutHandler pc g).All (Attended x p) rest := by
  cases pc with
  | enter => exact inv.next rfl rfl rfl rfl rfl rfl fun _ => trivial
  | test now head =>
    simp only [execTimeoutHandler]
    split
    · split
      · exact inv.next rfl rfl rfl rfl rfl rfl fun _ => trivial
      · rw [Result.all_ret, returnTo_unit]
        exact inv.ret rfl rfl rfl rfl rfl rfl
    · rw [Result.all_ret, returnTo_unit]
      exact inv.ret rfl rfl rfl rfl rfl rfl
  | remove now t =>
    simp only [execTimeoutHandler, readyOrFault]
    split
    · trivial
    · split
      · trivial
      · exact inv.call rfl rfl rfl rfl rfl rfl rfl rfl fun _ => ⟨trivial, trivial⟩
  | resume now => exact inv.next rfl rfl rfl rfl rfl rfl fun _ => trivial

/-- `user_interrupt_handler` is called by `handle_signal`. -/
theorem Admitted.signal_of_userHandler (atop : Admitted .userHandler rest) :
    ∃ intr saved pc under, rest = .signal intr saved pc :: under := by
  cases rest with
  | nil => simp [Admitted] at atop
  | cons caller under =>
    have calls : caller.admits .userHandler := atop
    cases caller with
    | signal intr saved pc => exact ⟨intr, saved, pc, under, rfl⟩
    | _ => exact calls.elim

theorem execUserHandler_attended {intrsrc : Nat} (atop : Admitted .userHandler rest)
    (inv : Attended x p (.userHandler intrsrc :: rest) g) :
    (execUserHandler intrsrc g).All (Attended x p) rest := by
  simp only [execUserHandler]
  split
  · rw [Result.all_ret, returnTo_unit]
    exact inv.ret rfl rfl rfl rfl rfl rfl
  · rename_i y connected
    split
    · -- the interrupt is counted in another channel, or in this one
      have elsewhere : y ≠ x → (g.setIchan y { g.ichan y with count := (g.ichan y).count + 1 }).ichan x =
          g.ichan x := fun other => Function.update_of_ne (Ne.symm other) _ _
      have waiting : (g.setIchan y { g.ichan y with count := (g.ichan y).count + 1 }).ichan y =
          { g.ichan y with count := (g.ichan y).count + 1 } := Function.update_self ..
      split
      · rename_i none
        rw [waiting] at none
        rw [Result.all_ret, returnTo_unit]
        by_cases same : y = x
        · subst same
          refine inv.step (fun alive => alive) inv.once rfl rfl rfl (fun awaited => ?_)
            fun _ a mem => Or.inl (List.mem_cons_of_mem _ mem)
          exact absurd (awaited.1.symm.trans none) (Option.some_ne_none p)
        · exact inv.ret rfl rfl rfl rfl (elsewhere same) rfl
      · rename_i q waits
        rw [waiting] at waits
        by_cases same : y = x
        · subst same
          refine inv.step (fun alive => alive) inv.once rfl rfl rfl (fun awaited => ?_) fun _ =>
            List.forall_mem_cons.mpr ⟨Or.inr trivial, fun a mem => Or.inl (List.mem_cons_of_mem _ mem)⟩
          obtain rfl : q = p := Option.some.inj (waits.symm.trans awaited.1)
          obtain ⟨intr, saved, pc, under, rfl⟩ := atop.signal_of_userHandler
          refine ⟨?_, Or.inr ⟨intr, saved, pc, under, List.suffix_refl _⟩⟩
          change ((g.setIchan y { g.ichan y with count := (g.ichan y).count + 1 }).ichan y).waiting = _
          rw [waiting]
          exact waits
        · exact inv.next rfl rfl rfl rfl (elsewhere same) rfl fun _ => trivial
    · trivial

/-! ## Application code -/

theorem execUser_attended {op : Op} {act : Act} (stacked : Stacked (act :: rest))
    (allowed : Attends x p (.user op) ⟨act :: rest, g, none⟩) (inv : Attended x p (act :: rest) g) :
    (execUser op act g).All (Attended x p) rest := by
  -- the channel is connected while nobody waits in it
  have connect : ∀ y intrno, op = .connect y intrno → Awaited x p (act :: rest) g →
      act.answers p = false → Awaited x p (act :: rest) (g.connectInterruptToChannel y intrno) := by
    rintro y intrno rfl awaited other
    have apart : y ≠ x := by
      rintro rfl
      have free := allowed.free
      simp only [connectsFree, decide_eq_true_eq] at free
      exact absurd (awaited.1.symm.trans (free trivial)) (Option.some_ne_none p)
    exact awaited.next (Function.update_of_ne (Ne.symm apart) _ _) other Answering.cons
  unfold execUser
  split
  · rename_i q
    split
    · have current : g.current = some q := by
        have itself := allowed.itself
        simpa [findsItself] using itself
      have calm : q = p → initialised (.rtc q :: rest) g p = true →
          (g.proc p).state ≠ .waiting ∧ (g.proc p).state ≠ .enabling := by
        intro own alive
        obtain ⟨base, under, rfl | rfl⟩ := (stacked.1 : Admitted (.rtc q) rest).caller_of_rtc
        · exact (inv.attends alive _ (List.mem_cons_of_mem _ List.mem_cons_self) own).1 rfl
        · exact (inv.attends alive _ (List.mem_cons_of_mem _ List.mem_cons_self) own).1 rfl
      have next : ∀ g', allocated g'.log = allocated g.log → g'.proc = g.proc → g'.ichan = g.ichan →
          Attended x p (.rtc q :: rest) g' := fun g' log proc ichan =>
        inv.next rfl rfl log (congrFun proc p) (congrFun ichan x) rfl fun _ => trivial
      have alter : ∀ g' alt, g'.proc = (g.setAlt q alt).proc → allocated g'.log = allocated g.log →
          g'.ichan = g.ichan → Attended x p (.rtc q :: rest) g' := by
        intro g' alt proc log ichan
        by_cases same : q = p
        · refine Attended.calm inv.once fun alive => ?_
          rw [proc, Globals.setAlt_state]
          exact calm same ((initialised_congr log rfl p).symm.trans alive)
        · refine inv.next rfl rfl log ?_ (congrFun ichan x) rfl fun _ => trivial
          rw [proc]
          exact Function.update_of_ne (Ne.symm same) _ _
      cases op with
      | ret =>
        rw [userRtc, Result.all_ret, returnTo_unit]
        exact inv.ret rfl rfl rfl rfl rfl rfl
      | terminate =>
        simp only [userRtc, current]
        by_cases same : q = p
        · subst same
          refine Attended.calm inv.once fun _ => ?_
          simp
        · refine inv.next rfl rfl rfl ?_ rfl rfl fun _ => trivial
          exact Globals.setState_of_ne g .done (Ne.symm same)
      | start args => exact inv.call rfl rfl rfl rfl rfl rfl rfl rfl fun _ => ⟨trivial, trivial⟩
      | initAlt size =>
        simp only [userRtc, current]
        exact alter _ _ rfl rfl rfl
      | initAltPri size =>
        simp only [userRtc, current]
        exact alter _ _ rfl rfl rfl
      | initGuard i kind =>
        simp only [userRtc]
        split
        · trivial
        · exact alter _ _ rfl rfl rfl
      | initTimeoutGuard i t time => exact alter _ _ rfl rfl rfl
      | setActive i active => exact alter _ _ rfl rfl rfl
      | assign v bytes => exact next _ rfl rfl rfl
      | connect y intrno =>
        simp only [userRtc]
        split
        · refine inv.step (fun alive => alive) inv.once rfl rfl rfl
            (fun awaited => connect y intrno rfl awaited rfl) fun _ a mem => Or.inl mem
        · trivial
      | disconnect intrno =>
        simp only [userRtc]
        split
        · exact next _ rfl rfl rfl
        · trivial
      | error why => trivial
    · trivial
  · cases op with
    | ret => exact inv.call rfl rfl rfl rfl rfl rfl rfl rfl fun _ => ⟨trivial, trivial⟩
    | start args => exact inv.call rfl rfl rfl rfl rfl rfl rfl rfl fun _ => ⟨trivial, trivial⟩
    | connect y intrno =>
      simp only [userMain]
      split
      · refine inv.step (fun alive => alive) inv.once rfl rfl rfl
          (fun awaited => connect y intrno rfl awaited rfl) fun _ a mem => Or.inl mem
      · trivial
    | _ => trivial
  · trivial

end Steps

/-- Every step under the conditions keeps the invariant. -/
theorem attended_kept (x : ChanId) (p : Addr) :
    Kept (fun label s => Attends x p label s ∧ Stacked s.stack) (Attended x p) where
  run act rest g known inv := by
    obtain ⟨allowed, stacked⟩ := known
    cases act with
    | main pc => exact execMain_attended inv
    | select base pc => exact execSelect_attended allowed inv
    | schedule base q pc => exact execSchedule_attended stacked inv
    | take pri pc => exact execTake_attended stacked.1 inv
    | append q pc => exact execAppend_attended inv
    | start args pc => exact execStart_attended inv
    | rtc q => trivial
    | enableAlt q pc => exact execEnableAlt_attended stacked allowed inv
    | disableAlt q pc => exact execDisableAlt_attended stacked allowed inv
    | ready q pc => exact execReady_attended inv
    | signal intr saved pc => exact execSignal_attended inv
    | timeoutHandler pc => exact execTimeoutHandler_attended inv
    | userHandler intrsrc => exact execUserHandler_attended stacked.1 inv
  user op act rest g known inv := execUser_attended known.2 known.1 inv
  interrupt intr stack g _ _ _ inv := by
    refine inv.step (fun alive => alive) inv.once rfl rfl rfl
      (fun awaited => ⟨awaited.1, awaited.2.imp_right Answering.cons⟩) fun _ =>
        List.forall_mem_cons.mpr ⟨Or.inr trivial, fun a mem => Or.inl mem⟩
  clock t stack g _ inv :=
    inv.step (fun alive => alive) inv.once rfl rfl rfl id fun _ a mem => Or.inl mem

end Microcsp
