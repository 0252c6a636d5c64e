import Microcsp.Confluence
import Microcsp.Idle
import Microcsp.Preemption

/-!
# Networks at rest

When no process can run, the idle process is executed, and nothing happens any more. A network without
choice has then gone as far as it can: no output meets an input. So what its channels have transferred is
all that they transfer in any order of the starts.

For this no process may be lost. `readyProcessIfNecessary` loses the processes that are queued behind one
that it appends again, but it is called here for processes that wait, and for no others.
-/

open Library

namespace Microcsp

/-! ## Who is made ready -/

/-- The processes that the innermost activation will have made ready are waiting. -/
def TargetsWait (stack : List Act) (g : Globals) : Prop :=
  ∀ act ∈ stack.head?, ∀ t ∈ act.targets, (g.proc t).state = .waiting

section Awaiting

variable {K : Type} [DecidableEq K] {net : Network K} {roster : Roster K}
  {x : Dataflow.State K ChanId Buffer (Nat × Buffer) Local} {w : Wiring} {pri : Nat}
  {act act' : Act} {rest : List Act} {g g' : Globals} {p : Addr}

/-- An activation that will make no process ready. -/
theorem targetsWait_of_targets (none : act.targets = []) : TargetsWait (act :: rest) g := by
  rintro _ ⟨⟩ t mem
  rw [none] at mem
  cases mem

/-- The same ones are to be made ready. -/
theorem TargetsWait.step (awaited : TargetsWait (act :: rest) g) (fewer : ∀ t ∈ act'.targets, t ∈ act.targets)
    (same : ∀ t ∈ act'.targets, (g'.proc t).state = (g.proc t).state) : TargetsWait (act' :: rest) g' := by
  rintro _ ⟨⟩ t mem
  rw [same t mem]
  exact awaited _ rfl t (fewer t mem)

/-- A process with one active guard is not registered when it is ready. -/
theorem Released.unregistered {waiting : ChanId → Option Addr} {q : Addr} {alt : Alternation}
    {found : Nat} (ready : Released w waiting q alt)
    (only : onlyActive alt.guards alt.nrGuards = some found) (c : ChanId) : waiting c ≠ some q := by
  intro here
  obtain ⟨i, mem, listens⟩ := ready.there c here
  have sole : ∀ j ∈ alt.enabledGuards, (alt.guards j).active = true → j = i := by
    intro j mem' active
    rw [onlyActive_eq only (lt_of_mem_enabledGuards ready.inside mem') active,
      onlyActive_eq only (lt_of_mem_enabledGuards ready.inside mem) listens.active]
  rcases ready.cause with (⟨j, mem', d, v, listens', waits, other⟩ | ⟨j, mem', d, sends⟩) | ⟨active, other⟩
  · obtain rfl := sole j mem' listens'.active
    obtain rfl := listens.unique listens'
    rw [here] at waits
    exact other (Option.some.inj waits).symm
  · obtain rfl := sole j mem' sends.active
    exact listens.not_sends sends
  · have same : alt.index = i := by
      rw [onlyActive_eq only ready.inside active,
        onlyActive_eq only (lt_of_mem_enabledGuards ready.inside mem) listens.active]
    obtain ⟨dest, len, guard⟩ := listens
    rw [same, guard] at other
    cases other

/-- The reader that waits where an output comes is waiting. -/
theorem Lags.partner_waiting {base : Int} {pc : EnablePc} {c : ChanId} {t : Addr}
    (inv : Lags net roster x [.enableAlt p pc, .schedule base p .enabling, .main .running] g)
    (exchange : Rendezvous w [.enableAlt p pc, .schedule base p .enabling, .main .running] g)
    (cooperates : Cooperating pri [.enableAlt p pc, .schedule base p .enabling, .main .running] g)
    (none : (Act.enableAlt p pc).targets = []) (here : g.waiting c = some t) (other : t ≠ p) :
    (g.proc t).state = .waiting := by
  have alive := exchange.known c t here
  have stands := exchange.stands t alive (by simp [exempt, Act.inAlt, none, other])
  refine (stands.registered here).resolve_right fun ready => ?_
  obtain ⟨k, runs⟩ := inv.known t alive (cooperates.user_of_state alive (by simp [ready]))
  have phase : phaseOf [.enableAlt p pc, .schedule base p .enabling, .main .running] (g.proc t) t =
      (g.proc t).alt.phase (List.range (g.proc t).alt.nrGuards) := by
    rw [phaseOf_enableAlt, if_neg other.symm]
    simp only [Process.phase, ready]
  obtain ⟨found, only, -⟩ := inv.regular t k alive runs (by
    rw [phase]
    unfold Alternation.phase
    split <;> simp)
  exact (stands.ready ready).unregistered only c here

theorem execEnableAlt_awaited {base : Int} {pc : EnablePc}
    (alive : initialised [.enableAlt p pc, .schedule base p .enabling, .main .running] g p = true)
    (user : (g.proc p).rtc = .user)
    (exchange : Rendezvous w [.enableAlt p pc, .schedule base p .enabling, .main .running] g)
    (cooperates : Cooperating pri [.enableAlt p pc, .schedule base p .enabling, .main .running] g)
    (inv : Lags net roster x [.enableAlt p pc, .schedule base p .enabling, .main .running] g)
    (awaited : TargetsWait [.enableAlt p pc, .schedule base p .enabling, .main .running] g) :
    (execEnableAlt p pc g).All (Settled TargetsWait) [.schedule base p .enabling, .main .running] := by
  obtain ⟨ok, -⟩ := exchange.focus _ rfl
  obtain ⟨k, here⟩ := inv.known p alive user
  have steady := cooperates.steady _ rfl
  cases pc with
  | enter =>
    simp only [execEnableAlt]
    split
    · trivial
    · split
      · exact targetsWait_of_targets rfl
      · split
        · trivial
        · exact targetsWait_of_targets rfl
  | loop i n partner =>
    obtain ⟨wired, most, first, listed, ofOutput⟩ := ok
    obtain ⟨plain, -⟩ := steady
    obtain ⟨found, only, communicates⟩ := inv.regular p k alive here (by
      rw [phaseOf_enableAlt, if_pos rfl]
      change Alternation.phase _ _ = _ ∨ Alternation.phase _ _ = _
      unfold Alternation.phase
      split <;> simp)
    have same : ∀ {i' n'} g', g'.proc = g.proc → TargetsWait [.enableAlt p (.loop i' n' partner),
        .schedule base p .enabling, .main .running] g' := fun g' proc =>
      awaited.step (fun t mem => mem) fun t _ => by rw [proc]
    simp only [execEnableAlt]
    split
    · rename_i more
      have positive : 0 < (g.proc p).alt.nrGuards := Nat.zero_lt_of_lt more
      have small := first positive
      split
      · rename_i active
        split
        · split
          · exact targetsWait_of_targets rfl
          · exact same _ rfl
        · rename_i c src kind
          -- no guard before it is active
          have new : ∀ j ∈ downFrom (g.proc p).alt.nrGuards (minus1Mod i (g.proc p).alt.nrGuards) n,
              ((g.proc p).alt.guards j).active = true → False := by
            intro j mem active'
            have inside := lt_of_mem_downFrom (minus1Mod_lt positive) mem
            obtain rfl : j = i := (onlyActive_eq only inside active').trans
              (onlyActive_eq only small active).symm
            exact not_mem_downFrom small more mem
          obtain rfl : partner = none := by
            refine ofOutput.resolve_right ?_
            rintro ⟨j, mem, d, sends⟩
            exact new j mem sends.active
          rintro _ ⟨⟩ t mem
          have waits : g.waiting c = some t := Option.mem_toList.mp mem
          refine inv.partner_waiting exchange cooperates rfl waits ?_
          rintro rfl
          obtain ⟨j, mem', uses⟩ := listed.there c waits
          exact new j mem' (uses.elim Listens.active Sends.active)
        · exact targetsWait_of_targets rfl
        · split
          · exact targetsWait_of_targets rfl
          · exact awaited.step (fun t mem => mem) fun t _ => rfl
        · split
          · exact targetsWait_of_targets rfl
          · exact same _ rfl
      · exact same _ rfl
    · split
      · trivial
      · exact awaited.step (fun t mem => mem) fun t _ => rfl
  | insert i n t partner => exact steady.elim
  | done i n found partner =>
    refine awaited.step (fun t mem => mem) fun t _ => ?_
    exact Globals.setAlt_state g p t _

theorem execDisableAlt_awaited {base : Int} {pc : DisablePc}
    (exchange : Rendezvous w [.disableAlt p pc, .schedule base p .disabling, .main .running] g)
    (cooperates : Cooperating pri [.disableAlt p pc, .schedule base p .disabling, .main .running] g) :
    (execDisableAlt p pc g).All (Settled TargetsWait) [.schedule base p .disabling, .main .running] := by
  have ok := exchange.focus _ rfl
  have steady := cooperates.steady _ rfl
  cases pc with
  | enter => exact targetsWait_of_targets rfl
  | loop i left partner =>
    cases left with
    | zero =>
      -- there is a partner where an input is selected
      have none : (∀ c dest len, ((g.proc p).alt.guards (g.proc p).alt.index).kind ≠ .chanin c dest len) →
          partner = none := by
        intro other
        rcases steady with ⟨none, -⟩ | ⟨-, input⟩
        · exact none
        · by_contra some
          have chanin := input some
          cases kind : ((g.proc p).alt.guards (g.proc p).alt.index).kind with
          | chanin c dest len => exact other c dest len kind
          | _ => simp [GuardKind.isChanin, kind] at chanin
      simp only [execDisableAlt]
      split
      · exact targetsWait_of_targets rfl
      · rename_i y dest kind
        obtain rfl := none fun c dest' len same => by rw [kind] at same; cases same
        exact targetsWait_of_targets rfl
      · rename_i other _
        obtain rfl := none fun c dest len same => other c dest len same
        exact targetsWait_of_targets rfl
    | succ left =>
      simp only [execDisableAlt]
      split
      · trivial
      · split
        · split <;> exact targetsWait_of_targets rfl
        · exact targetsWait_of_targets rfl
  | copy c dest len partner =>
    simp only [execDisableAlt]
    split
    · trivial
    · exact targetsWait_of_targets rfl
  | clear c partner =>
    obtain ⟨absent, reads, v, rfl, waits, other⟩ := ok
    have stands := exchange.stands v (exchange.known c v waits)
      (by simpa [exempt, Act.inAlt, Act.targets] using other)
    rintro _ ⟨⟩ t mem
    obtain rfl : v = t := Option.some.inj (Option.mem_toList.mp mem)
    exact (stands.served waits reads other).1

/-- `schedule` hands on whom it has to make ready. -/
theorem execSchedule_awaited {base : Int} {pc : SchedulePc} (shape : rest = [.main .running])
    (exchange : Rendezvous w (.schedule base p pc :: rest) g)
    (awaited : TargetsWait (.schedule base p pc :: rest) g) :
    (execSchedule base p pc g).All (Settled TargetsWait) rest := by
  subst shape
  have fits := exchange.phase _ List.mem_cons_self
  cases pc with
  | top => exact targetsWait_of_targets rfl
  | dispatch state => cases state <;> exact targetsWait_of_targets rfl
  | initial => exact targetsWait_of_targets rfl
  | enabling => trivial
  | enabled found partner =>
    have state : (g.proc p).state = .enabling := by simpa [Act.Fits, SchedulePc.states] using fits
    cases found with
    | true =>
      refine targetsWait_of_targets ?_
      simp [Act.targets, PState.afterEnabling, state]
    | false =>
      refine awaited.step (fun t mem => ?_) fun t mem => ?_
      · simpa [Act.targets, PState.afterEnabling, state] using mem
      · have target : partner = some t := by
          simpa [Act.targets, PState.afterEnabling, state] using mem
        subst target
        have other : t ≠ p := fun same => exchange.enabled_partner (congrArg some same)
        exact congrArg Process.state (Globals.setState_of_ne g _ other)
  | branch state partner =>
    simp only [execSchedule]
    split
    · exact targetsWait_of_targets rfl
    · rename_i other
      refine awaited.step (fun t mem => ?_) fun t _ => rfl
      simpa [Act.targets, other] using mem
  | disabling => trivial
  | disabled partner =>
    obtain ⟨-, other⟩ := exchange.focus _ rfl
    refine awaited.step (fun t mem => mem) fun t mem => ?_
    obtain rfl : partner = some t := Option.mem_toList.mp mem
    have apart : t ≠ p := fun same => other (congrArg some same)
    exact congrArg Process.state (Globals.setState_of_ne g _ apart)
  | partner partner execute =>
    cases partner with
    | none => exact targetsWait_of_targets rfl
    | some q => exact awaited.step (fun t mem => mem) fun t _ => rfl
  | readying execute => exact targetsWait_of_targets rfl
  | execute execute => cases execute <;> exact targetsWait_of_targets rfl
  | executing => exact targetsWait_of_targets rfl
  | finish =>
    simp only [execSchedule]
    split <;> exact targetsWait_of_targets rfl

/-- Whoever is to be made ready goes on waiting. -/
theorem exec_awaited (other : queueing (act :: rest) = false)
    (cooperative : Cooperative w pri (act :: rest) g) (inv : Lags net roster x (act :: rest) g)
    (awaited : TargetsWait (act :: rest) g) : (exec act g).All (Settled TargetsWait) rest := by
  obtain ⟨⟨free, ranked, settled⟩, cooperating, -⟩ := cooperative
  have ranks := ranked.ranks other
  have exchange := (settled_of_not_queueing other).mp settled
  have cooperates := (settled_of_not_queueing other).mp cooperating
  have below : Unsignalled rest := fun a mem => free a (List.mem_cons_of_mem _ mem)
  have calls : Unscheduled rest := fun q prev mem =>
    cooperates.unscheduled q prev (List.mem_cons_of_mem _ mem)
  have stacked := ranks.orderly.stacked
  cases act with
  | main pc =>
    obtain rfl : pc = .running := inv.later _ List.mem_cons_self
    trivial
  | select base pc =>
    obtain rfl := caller_of_schedule stacked rfl free cooperates.unscheduled
    cases pc with
    | top => exact targetsWait_of_targets rfl
    | chosen highest =>
      simp only [exec, execSelect]
      split
      · exact targetsWait_of_targets rfl
      · exact targetsWait_of_targets rfl
    | taking => trivial
    | took r => cases r with
      | none => trivial
      | some q => exact targetsWait_of_targets rfl
  | schedule base p pc =>
    exact execSchedule_awaited (caller_of_schedule stacked rfl free cooperates.unscheduled) exchange
      awaited
  | take level pc => cases other
  | append p pc => cases other
  | start args pc => exact (inv.later _ List.mem_cons_self).elim
  | rtc p => trivial
  | enableAlt p pc =>
    obtain ⟨base, under, rfl⟩ := (stacked.1 : Admitted (.enableAlt p) rest).caller_of_enableAlt
    obtain rfl := caller_of_schedule stacked.2 rfl below calls
    have alive := ranks.holds.held p (by simp [Act.holds])
    have state : (g.proc p).state = .enabling := by
      simpa [Act.Fits, SchedulePc.states] using
        exchange.phase _ (List.mem_cons_of_mem _ List.mem_cons_self)
    exact execEnableAlt_awaited alive (cooperates.user_of_state alive (by simp [state])) exchange
      cooperates inv awaited
  | disableAlt p pc =>
    obtain ⟨base, under, rfl⟩ := (stacked.1 : Admitted (.disableAlt p) rest).caller_of_disableAlt
    obtain rfl := caller_of_schedule stacked.2 rfl below calls
    exact execDisableAlt_awaited exchange cooperates
  | ready q pc =>
    obtain ⟨base, p, executes, under, rfl⟩ := below.caller_of_ready stacked.1 stacked.2
    cases pc with
    | test =>
      simp only [exec, execReady]
      split
      · exact targetsWait_of_targets rfl
      · exact targetsWait_of_targets rfl
    | appended =>
      simp only [exec, execReady]
      split
      · trivial
      · split
        · exact targetsWait_of_targets rfl
        · exact targetsWait_of_targets rfl
    | scheduling prev => exact targetsWait_of_targets rfl
  | signal intr saved pc => exact absurd rfl (free _ List.mem_cons_self)
  | timeoutHandler pc => exact (below.no_handler stacked.1 (Or.inl rfl)).elim
  | userHandler intrsrc => exact (below.no_handler stacked.1 (Or.inr rfl)).elim

/-- An execution makes nobody ready by itself. -/
theorem execUser_awaited {op : Op} (stacked : Stacked (.rtc p :: rest)) :
    (execUser op (.rtc p) g).All (Settled TargetsWait) rest := by
  obtain ⟨base, under, shape⟩ := (stacked.1 : Admitted (.rtc p) rest).caller_of_rtc
  have back : TargetsWait (returnTo .unit rest) g := by
    rcases shape with rfl | rfl
    · exact targetsWait_of_targets rfl
    · exact targetsWait_of_targets rfl
  have back' : Settled TargetsWait (returnTo .unit rest) g := by
    rcases shape with rfl | rfl
    · exact back
    · exact back
  simp only [execUser]
  split
  · cases op with
    | ret => exact back'
    | _ =>
      simp only [userRtc]
      repeat' split
      all_goals first | trivial | exact targetsWait_of_targets rfl
  · trivial

end Awaiting

/-! ## Calm runs -/

/-- No process terminates, and none is made ready that the ready queues are not fit for. -/
structure Calm (label : Label) (s : State) : Prop where
  /-- No process calls `terminate`. -/
  lasts : noTermination label s = true
  /-- The queues keep their processes. -/
  queues : keepsQueues label s = true
  /-- And their order. -/
  order : KeepsOrder label s

section Calm

variable {s first : State} {label : Label} {p : Addr}

/-- Where nothing is made ready, released or started by a process, a step is calm. -/
theorem Calm.of_parts (quiet : ∀ intr, label ≠ .interrupt intr) (stays : label ≠ .user .terminate)
    (readies : ∀ q rest, s.stack = .ready q .test :: rest → initialised s.stack s.g q = true ∧
      (s.g.proc q).state = .waiting ∧ q ∉ rest.filterMap Act.holds)
    (starts : ∀ args index record q rest, s.stack ≠ .start args (.fill index record) :: .rtc q :: rest)
    (releases : ReleasesUnqueued label s) : Calm label s := by
  obtain ⟨stack, g, stopped⟩ := s
  refine ⟨?_, ?_, ?_, ?_, ?_, releases⟩
  · unfold noTermination
    split
    · exact absurd rfl stays
    · rfl
  · simp only [keepsQueues, Bool.and_eq_true]
    refine ⟨⟨?_, ?_⟩, ?_⟩
    · unfold undisturbed
      split
      · rename_i intr
        exact absurd rfl (quiet intr)
      · rfl
    · unfold terminatesItself
      split
      · exact absurd rfl stays
      · rfl
    · unfold readiesRightly
      split
      · rename_i q rest same
        obtain ⟨known, waiting, free⟩ := readies q rest same
        obtain rfl : stack = _ := same
        have free' : q ∉ (Act.ready q .test :: rest).filterMap Act.holds := by
          simpa [List.filterMap_cons, Act.holds] using free
        rw [Bool.and_eq_true, Bool.or_eq_true, Bool.or_eq_true]
        exact ⟨known, Or.inl (Or.inr (decide_eq_true ⟨waiting, free'⟩))⟩
      · rfl
  · unfold guarded
    split
    · rename_i intr act rest same
      exact absurd rfl (quiet intr)
    · rfl
  · unfold startsBelow
    split
    · rename_i args index record q rest same
      exact absurd same (starts args index record q rest)
    · rfl
  · unfold readiesLive
    split
    · rename_i q rest same
      exact (readies q rest same).1
    · rfl

/-- In a calm run no process is done. -/
theorem lasts_of_run (booted : Booted first) (run : Run step Calm first s) {base : Int} {rest : List Act}
    (top : s.stack = .schedule base p .finish :: rest) : (s.g.proc p).state ≠ .done := by
  have kept := (stacked_kept.mono fun _ _ _ => trivial).and nestingInv_kept
  rcases kept.from_boot (fun arena memlen g pristine => ⟨⟨by simp [Admitted, Act.callee], trivial⟩,
    nestingInv_initial arena memlen pristine⟩) booted (run.mono fun _ _ calm => calm.lasts) with
    early | ⟨-, valid, inv⟩
  · obtain ⟨arena, memlen, same, -⟩ := early
    rw [same] at top
    cases top
  · have nested := inv.nested
    rw [top] at nested
    exact inv.store.live p (nested.1 p (by simp [Act.pointers]))

/-- A process that is not done keeps its record. -/
theorem lasting_kept (p : Addr) : Kept (fun label s => (keepsQueues label s = true ∧ Orderly s.stack) ∧
    ∀ base rest, s.stack = .schedule base p .finish :: rest → (s.g.proc p).state ≠ .done)
    (Settled fun stack g => ∃ s, Implements s stack g ∧ s.Exact ∧ s.live p) := by
  refine Kept.scheduled (fun s => s.Exact ∧ s.live p)
    (fun s a => s.MayReadyExactly a ∧ a ≠ .release p) ?_ (fun s inv => inv.1.toLeveled)
    (fun s a inv possible may => inv.1.safe possible (inv.1.mayReady may.1))
    (fun s a inv possible may => ⟨inv.1.next possible may.1, Sched.live_next inv.2 may.2⟩) ?_
  · rintro label s ⟨⟨keeps, orderly⟩, -⟩
    simp only [keepsQueues, Bool.and_eq_true] at keeps
    exact ⟨keeps.1.1, orderly, keeps.1.2⟩
  · rintro label stack g s ⟨⟨keeps, -⟩, lasts⟩ - impl
    simp only [keepsQueues, Bool.and_eq_true] at keeps
    refine ⟨impl.mayReadyExactly keeps.2, ?_⟩
    unfold action
    split
    · rename_i act rest same
      obtain rfl : stack = act :: rest := same
      unfold Act.action
      split
      case h_8 base q =>
        cases state : (g.proc q).state with
        | done =>
          rintro ⟨⟩
          exact lasts base rest rfl state
        | _ => simp
      all_goals first | (simp; done) | (split <;> simp)
    · unfold Op.action
      split <;> simp
    · simp

end Calm

/-! ## Runs without termination -/

namespace Network

variable {K : Type} (net : Network K)

/-- No execution calls `terminate`. -/
def everlasting (label : NetLabel) (both : State × Roster K) : Bool :=
  match label, both.1.stack with
  | .machine, .rtc _ :: _ => !(both.2.todo.head? matches some .terminate)
  | _, _ => true

/-- Networks are not interrupted. -/
theorem due_ne_interrupt (label : NetLabel) (both : State × Roster K) (intr : Nat) :
    net.due label both ≠ .interrupt intr := by
  unfold due
  split
  · unfold next
    repeat' split
    all_goals simp
  · simp

/-- The processes last. -/
theorem due_ne_terminate {label : NetLabel} {both : State × Roster K}
    (lasts : everlasting label both = true) : net.due label both ≠ .user .terminate := by
  obtain ⟨⟨stack, g, stopped⟩, roster⟩ := both
  unfold due
  split
  · unfold next
    split
    · split <;> simp
    · rename_i p rest same
      obtain rfl : stack = _ := same
      cases todo : roster.todo with
      | nil => simp
      | cons op ops => cases op with
        | terminate => simp [everlasting, todo] at lasts
        | _ => simp [Op.localise]
    · simp
  · simp

/-- A record gets its program when it is filled. -/
theorem of_note_runs {s : State} {roster : Roster K} {p : Addr} {k : K}
    (here : (net.note s roster).runs p = some k) : roster.runs p = some k ∨
      ∃ args index rest, s.stack = .start args (.fill index p) :: rest := by
  unfold note at here
  split at here
  · rename_i args index record rest same
    split at here
    · rcases eq_or_ne p record with rfl | other
      · exact Or.inr ⟨args, index, rest, same⟩
      · exact Or.inl ((Function.update_of_ne other ..).symm.trans here)
    · exact Or.inl here
  · exact Or.inl here
  · exact Or.inl here
  · exact Or.inl here
  · exact Or.inl here

end Network

/-- While processes are started none is made ready. -/
theorem Early.awaited {K : Type} {net : Network K} {roster : Roster K} {act : Act} {rest : List Act}
    {g : Globals} (early : Early net roster (act :: rest)) :
    (exec act g).All (Settled TargetsWait) rest := by
  cases early with
  | main pc early =>
    cases pc with
    | memoryInit arena memlen => cases arena with
      | none => trivial
      | some arena => exact targetsWait_of_targets rfl
    | idleAlloc =>
      simp only [exec, execMain]
      repeat' split
      all_goals first | trivial | exact targetsWait_of_targets rfl
    | user => trivial
    | running => trivial
    | _ => exact targetsWait_of_targets rfl
  | starting k others pc next more =>
    cases pc with
    | fill index record => exact targetsWait_of_targets rfl
    | appended => exact absurd rfl more
    | _ =>
      simp only [exec, execStart]
      repeat' split
      all_goals first | trivial | exact targetsWait_of_targets rfl
  | started args => exact targetsWait_of_targets rfl

section Persisting

variable {K : Type} [DecidableEq K] {net : Network K} {first : State} {order : List K}
  {both both' : State × Roster K} {label : NetLabel}

/-- What is known of a run in which no process terminates. -/
structure Persists (net : Network K) (order : List K) (first : State) (both : State × Roster K) :
    Prop where
  /-- It is calm, and makes moves of the network. -/
  moved : Moved net Calm first both
  /-- Whoever is to be made ready is waiting. -/
  awaited : both.1.stopped = none → Settled TargetsWait both.1.stack both.1.g
  /-- The processes keep their records. -/
  alive : both.1.stopped = none → ∀ p k, both.2.runs p = some k →
    Settled (fun stack g => initialised stack g p = true) both.1.stack both.1.g
  /-- Every process has been started, or will be. -/
  started : both.1.stopped = none → ∀ k ∈ order, k ∈ both.2.toStart ∨ ∃ p, both.2.runs p = some k

/-- A step of such a run is calm. -/
theorem Persists.calm (booted : Booted first) (known : Persists net order first both)
    (running : both.1.stopped = none) (lasts : Network.everlasting label both = true) :
    Calm (net.due label both) both.1 := by
  obtain ⟨⟨stack, g, stopped⟩, roster⟩ := both
  obtain rfl : stopped = none := running
  have quiet := net.due_ne_interrupt label (⟨stack, g, none⟩, roster)
  have stays := net.due_ne_terminate lasts
  rcases known.moved.2 rfl with ⟨-, settled⟩ | ⟨-, w, fits, run, settled⟩
  · refine .of_parts quiet stays ?_ ?_ ?_
    · rintro q rest rfl
      have inv : Gathering net roster (.ready q .test :: rest) g := settled
      cases inv.early
    · rintro args index record q rest rfl
      have inv : Gathering net roster (.start args (.fill index record) :: .rtc q :: rest) g := settled
      cases inv.early
    · unfold ReleasesUnqueued
      split
      · rename_i same
        obtain rfl : stack = _ := same
        cases settled.early
      · trivial
  · rcases cooperative_of_run booted (run.mono fun _ _ both => both.1) with
      starting | ⟨cooperative, -⟩
    · obtain ⟨pc, rfl⟩ := starting.alone
      refine .of_parts quiet stays ?_ ?_ ?_
      · rintro q rest ⟨⟩
      · rintro args index record q rest ⟨⟩
      · unfold ReleasesUnqueued
        split
        · rename_i same
          cases same
        · trivial
    · refine .of_parts quiet stays ?_ ?_ (releasesUnqueued_of_owning cooperative.owning)
      · rintro q rest rfl
        have cooperates : Cooperating net.pri (.ready q .test :: rest) g := cooperative.cooperating
        have awaited : TargetsWait (.ready q .test :: rest) g := known.awaited rfl
        exact ⟨cooperates.acts _ List.mem_cons_self, awaited _ rfl q (by simp [Act.targets]),
          cooperates.steady _ rfl⟩
      · rintro args index record q rest rfl
        obtain ⟨x, -, inv⟩ : Simulated net roster
          (.start args (.fill index record) :: .rtc q :: rest) g := settled
        exact inv.later _ List.mem_cons_self

/-- Whoever is to be made ready goes on waiting. -/
theorem Persists.awaits (booted : Booted first) (known : Persists net order first both)
    (stepped : net.step label both = some both') (running : both'.1.stopped = none) :
    Settled TargetsWait both'.1.stack both'.1.g := by
  obtain ⟨s, roster⟩ := both
  cases label with
  | clock t =>
    obtain ⟨s', went, rfl⟩ := Option.map_eq_some_iff.mp stepped
    obtain ⟨before, rfl⟩ : s.stopped = none ∧ { s with g := { s.g with now := t } } = s' := by
      simpa [Microcsp.step] using went
    exact (known.awaited before).clock t fun _ _ awaited => awaited
  | machine =>
    obtain ⟨s', went, rfl⟩ := Option.map_eq_some_iff.mp stepped
    have before := running_of_step went
    obtain ⟨stack, g, stopped⟩ := s
    obtain rfl : stopped = none := before
    cases stack with
    | nil => simp [Microcsp.step, Network.next] at went
    | cons act rest =>
      have awaited : Settled TargetsWait (act :: rest) g := known.awaited rfl
      -- the innermost activation runs
      have ran : (exec act g).All (Settled TargetsWait) rest →
          Microcsp.step .run ⟨act :: rest, g, none⟩ = some s' → Settled TargetsWait s'.stack s'.g :=
        fun all ran => (all.goesOn (apply_of_run ran)).1 running
      have stacked : Stacked (act :: rest) ∨ ∃ pc, act = .main pc := by
        rcases known.moved.2 rfl with ⟨run, -⟩ | ⟨-, w, -, run, -⟩
        · have run := run ⟨fun _ => 0, fun _ => 1, by simp⟩
          rcases exact_of_run booted (run.mono fun _ _ both => both.2.queues) with starting | ⟨orderly, -⟩
          · obtain ⟨pc, alone⟩ := starting.alone
            exact Or.inr ⟨pc, (List.cons.inj alone).1⟩
          · exact Or.inl orderly.stacked
        · rcases exact_of_run booted (run.mono fun _ _ both => both.2.queues) with starting | ⟨orderly, -⟩
          · obtain ⟨pc, alone⟩ := starting.alone
            exact Or.inr ⟨pc, (List.cons.inj alone).1⟩
          · exact Or.inl orderly.stacked
      cases act with
      | take level pc =>
        rcases stacked with stacked | ⟨pc, same⟩
        · exact ran (execTake_settled stacked.1 awaited) went
        · cases same
      | append p pc =>
        rcases stacked with stacked | ⟨pc, same⟩
        · exact ran (execAppend_settled stacked.1 awaited) went
        · cases same
      | rtc p =>
        rcases stacked with stacked | ⟨pc, same⟩
        · cases todo : roster.todo with
          | nil =>
            simp only [Network.next, todo] at went
            exact ((execUser_awaited stacked).goesOn (apply_of_user went)).1 running
          | cons op ops =>
            simp only [Network.next, todo] at went
            exact ((execUser_awaited stacked).goesOn (apply_of_user went)).1 running
        · cases same
      | main pc =>
        by_cases user : pc = .user
        · subst user
          have all : ∀ op, (execUser op (.main .user) g).All (Settled TargetsWait) rest := by
            intro op
            cases op <;> simp only [execUser, userMain] <;> (try split) <;>
              first | trivial | exact targetsWait_of_targets rfl
          cases left : roster.toStart with
          | nil =>
            simp only [Network.next, left] at went
            exact ((all _).goesOn (apply_of_user went)).1 running
          | cons k others =>
            simp only [Network.next, left] at went
            exact ((all _).goesOn (apply_of_user went)).1 running
        · have due : net.next ⟨.main pc :: rest, g, none⟩ roster = .run := by
            cases pc <;> first | rfl | exact absurd rfl user
          rw [due] at went
          refine ran ?_ went
          rcases known.moved.2 rfl with ⟨-, settled⟩ | ⟨-, w, -, -, settled⟩
          · have inv : Gathering net roster (.main pc :: rest) g := settled
            exact inv.early.awaited
          · obtain ⟨x, -, inv⟩ : Simulated net roster (.main pc :: rest) g := settled
            obtain rfl : pc = .running := inv.later _ List.mem_cons_self
            trivial
      | _ =>
        refine ran ?_ went
        rcases known.moved.2 rfl with ⟨-, settled⟩ | ⟨-, w, -, run, settled⟩
        · have inv : Gathering net roster _ g := settled
          exact inv.early.awaited
        · obtain ⟨x, -, inv⟩ : Simulated net roster _ g := settled
          rcases cooperative_of_run booted (run.mono fun _ _ both => both.1) with
            starting | ⟨cooperative, -⟩
          · obtain ⟨pc, alone⟩ := starting.alone
            cases alone
          · exact exec_awaited rfl cooperative inv awaited

/-- A run that is known is calm. -/
theorem Persists.run (known : Persists net order first both) (running : both.1.stopped = none) :
    Run Microcsp.step Calm first both.1 := by
  rcases known.moved.2 running with ⟨run, -⟩ | ⟨-, w, -, run, -⟩
  · exact (run ⟨fun _ => 0, fun _ => 1, by simp⟩).mono fun _ _ both => both.2
  · exact run.mono fun _ _ both => both.2

/-- A process that has its record keeps it. -/
theorem Persists.keeps {s s' : State} {roster : Roster K} {label : Label} (booted : Booted first)
    (known : Persists net order first (s, roster)) (calm : Calm label s)
    (stepped : Microcsp.step label s = some s') {p : Addr}
    (alive : Settled (fun stack g => initialised stack g p = true) s.stack s.g) :
    Settled (fun stack g => initialised stack g p = true) s'.stack s'.g := by
  have run := known.run (running_of_step stepped)
  rcases exact_of_run booted (run.mono fun _ _ calm => calm.queues) with starting | ⟨orderly, owns⟩
  · obtain ⟨pc, alone⟩ := starting.alone
    have empty : s.g.log = [] := starting.log
    rw [alone] at alive
    have none : initialised [.main pc] s.g p = true := alive
    simp [initialised, empty, allocated] at none
  · have before : Settled (fun stack g => ∃ s, Implements s stack g ∧ s.Exact ∧ s.live p)
        s.stack s.g := by
      refine (owns.and alive).imp ?_
      rintro stack g ⟨⟨s, impl, own⟩, here⟩
      exact ⟨s, impl, own, impl.live_iff.mpr here⟩
    have after := (lasting_kept p).step before
      ⟨⟨calm.queues, orderly⟩, fun base rest top => lasts_of_run booted run top⟩ stepped
    refine after.imp ?_
    rintro stack g ⟨s, impl, -, live⟩
    exact impl.live_iff.mp live

/-- The processes keep their records. -/
theorem Persists.lives (booted : Booted first) (known : Persists net order first both)
    (calm : Calm (net.due label both) both.1) (moved : Moved net Calm first both')
    (stepped : net.step label both = some both') (running : both'.1.stopped = none) (p : Addr) (k : K)
    (here : both'.2.runs p = some k) :
    Settled (fun stack g => initialised stack g p = true) both'.1.stack both'.1.g := by
  rcases moved.2 running with ⟨-, settled⟩ | ⟨-, w, -, -, settled⟩
  · exact settled.imp fun stack g inv => inv.alive p k here
  · obtain ⟨s, roster⟩ := both
    cases label with
    | clock t =>
      obtain ⟨s', went, rfl⟩ := Option.map_eq_some_iff.mp stepped
      exact known.keeps booted calm went (known.alive (running_of_step went) p k here)
    | machine =>
      obtain ⟨s', went, rfl⟩ := Option.map_eq_some_iff.mp stepped
      rcases net.of_note_runs here with before | ⟨args, index, rest, top⟩
      · exact known.keeps booted calm went (known.alive (running_of_step went) p k before)
      · -- the process is being started, and the program is not executed
        obtain ⟨stack, g, stopped⟩ := s
        obtain rfl : stack = _ := top
        obtain rfl : stopped = none := running_of_step went
        obtain rfl := Option.some.inj went
        obtain ⟨x, -, inv⟩ : Simulated net _ (.start args .appended :: rest) _ := settled
        exact (inv.later _ List.mem_cons_self).elim

/-- Every process has been started, or will be. -/
theorem Persists.starts {s : State} {roster : Roster K} (known : Persists net order first (s, roster))
    (running : s.stopped = none) (k : K) (mem : k ∈ order) :
    k ∈ (net.note s roster).toStart ∨ ∃ p, (net.note s roster).runs p = some k := by
  have before := known.started running k mem
  unfold Network.note
  split
  · rename_i args index record rest top
    split
    · rename_i k' others next
      rcases before with left | ⟨p, here⟩
      · have left : k ∈ roster.toStart := left
        rw [next] at left
        rcases List.mem_cons.mp left with rfl | other
        · exact Or.inr ⟨record, Function.update_self ..⟩
        · exact Or.inl other
      · refine Or.inr ⟨p, (Function.update_of_ne ?_ ..).trans here⟩
        rintro rfl
        have alive := known.alive running p k here
        obtain ⟨stack, g, stopped⟩ := s
        obtain rfl : stack = _ := top
        have reserved : initialised (.start args (.fill index p) :: rest) g p = false :=
          not_initialised_reserved rfl
        cases reserved.symm.trans alive
    · exact before
  · exact before
  · exact before
  · exact before
  · exact before

/-- What is known is kept. -/
theorem Persists.step (booted : Booted first) (allowed : net.withoutChoice label both = true)
    (lasts : Network.everlasting label both = true) (known : Persists net order first both)
    (stepped : net.step label both = some both') : Persists net order first both' := by
  have running : both.1.stopped = none := by
    cases label with
    | machine =>
      obtain ⟨s', went, rfl⟩ := Option.map_eq_some_iff.mp stepped
      exact running_of_step went
    | clock t =>
      obtain ⟨s', went, rfl⟩ := Option.map_eq_some_iff.mp stepped
      exact running_of_step went
  have calm := known.calm booted running lasts
  have moved := known.moved.step booted allowed calm stepped
  refine ⟨moved, known.awaits booted stepped, known.lives booted calm moved stepped, fun _ => ?_⟩
  obtain ⟨s, roster⟩ := both
  cases label with
  | clock t =>
    obtain ⟨s', went, rfl⟩ := Option.map_eq_some_iff.mp stepped
    exact known.started running
  | machine =>
    obtain ⟨s', went, rfl⟩ := Option.map_eq_some_iff.mp stepped
    exact known.starts running

/-- Before the first step. -/
theorem persists_start (booted : Booted first) (distinct : order.Nodup) :
    Persists net order first (first, Roster.starting order) := by
  refine ⟨moved_start booted distinct, fun _ => ?_, fun _ p k here => ?_, fun _ k mem => Or.inl mem⟩
  · obtain ⟨arena, memlen, same, -⟩ := booted.uninitialised
    change Settled TargetsWait first.stack first.g
    rw [same]
    exact targetsWait_of_targets rfl
  · cases here

/-- What is known of a run in which no process terminates. -/
theorem persists_of_run (booted : Booted first) (distinct : order.Nodup)
    (run : Run net.step (fun label both => net.withoutChoice label both = true ∧
      Network.everlasting label both = true) (first, Roster.starting order) both) :
    Persists net order first both :=
  run.invariant (Persists net order first) (persists_start booted distinct)
    fun _ _ _ known allowed stepped => known.step booted allowed.1 allowed.2 stepped

end Persisting

/-! ## The idle process -/

/-- The idle process is executed. -/
def State.idles (s : State) : Bool :=
  match s.stopped, s.stack with
  | none, .rtc p :: _ => decide ((s.g.proc p).rtc = .idle)
  | _, _ => false

section Idle

variable {K : Type} [DecidableEq K] {net : Network K} {roster : Roster K} {first : State}
  {order : List K} {g : Globals} {idle : Addr} {w : Wiring}
  {x : Dataflow.State K ChanId Buffer (Nat × Buffer) Local} {base : Int} {pc : SchedulePc}

/-- While a process is executed all processes above it wait. -/
theorem waiting_above {stack : List Act} {p : Addr} (booted : Booted first)
    (run : Run step Calm first ⟨stack, g, none⟩) (executing : codeOf stack = some idle)
    (settled : queueing stack = false) (alive : initialised stack g p = true)
    (below : (g.proc idle).pri < (g.proc p).pri) : (g.proc p).state = .waiting := by
  have starting : ¬ Starting stack g := fun starting => by
    obtain ⟨pc, alone⟩ := starting.alone
    rw [alone] at executing
    cases executing
  have owns := (exact_of_run booted (run.mono fun _ _ calm => calm.queues)).resolve_left starting
  obtain ⟨ranked, preempts⟩ := (preemption_kept.from_sched_init (fun arena memlen g handlers pristine =>
    ⟨ranked_start pristine, fun known => absurd known (by simp [level])⟩) booted
    (run.mono fun _ _ calm => calm.order)).resolve_left starting
  exact (ranked.ranks settled).waiting_above (ranked.clear preempts executing)
    ((settled_of_not_queueing settled).mp owns.2) executing alive below

/-- An output that is offered while the idle process is executed has not been copied. -/
theorem not_prompt_of_offering {p : Addr} {k : K} {c : ChanId}
    (inv : Lags net roster x [.rtc idle, .schedule base idle pc, .main .running] g)
    (transfers : Transfers w [.rtc idle, .schedule base idle pc, .main .running] g)
    (fits : Fits net roster w) (here : roster.runs p = some k) (writes : net.writer c = k)
    (waits : g.waiting c = some p) : ¬ net.moves.Prompt k x := by
  intro prompt
  have held : Held w [.rtc idle, .schedule base idle pc, .main .running] g c := by
    refine ⟨?_, by simp [cleared]⟩
    rw [waits, (fits p k here c).1 writes]
  obtain ⟨values, cut, full, -⟩ := transfers.delivers c
  have same : (x.gets c).length = (x.puts c).length := prompt c writes
  rw [inv.gets, inv.puts, (full held).1, List.length_append, cut.length_eq] at same
  exact absurd same (by simp)

/-- An input that waits while the idle process is executed has nothing to copy. -/
theorem nothing_to_get {p : Addr} {c : ChanId}
    (inv : Lags net roster x [.rtc idle, .schedule base idle pc, .main .running] g)
    (transfers : Transfers w [.rtc idle, .schedule base idle pc, .main .running] g)
    (reads : w.reader c = p) (waits : g.waiting c = some p) :
    (x.puts c)[(x.gets c).length]? = none := by
  have empty : ¬ Held w [.rtc idle, .schedule base idle pc, .main .running] g c := by
    rintro ⟨held, -⟩
    rw [waits, Option.some.injEq] at held
    exact w.apart c (held.symm.trans reads.symm)
  obtain ⟨values, cut, -, free⟩ := transfers.delivers c
  rw [inv.puts, inv.gets, free empty, cut.length_eq]
  exact List.getElem?_eq_none (le_refl _)

/-- While the idle process is executed no process of the network can move. -/
theorem Persists.atRest {s : State} (booted : Booted first) (complete : ∀ k, k ∈ order)
    (positive : 0 < net.pri) (known : Persists net order first (s, roster))
    (idles : s.idles = true) : ∃ x, Run net.moves.step net.moves.Prompt net.initially x ∧
      net.moves.AtRest x ∧ ∀ c, x.gets c = copies s.g.log c := by
  obtain ⟨stack, g, stopped⟩ := s
  obtain ⟨idle, rest, rfl, rfl, code⟩ : ∃ idle rest, stopped = none ∧ stack = .rtc idle :: rest ∧
      (g.proc idle).rtc = .idle := by
    unfold State.idles at idles
    split at idles
    · rename_i idle rest stopped' top
      exact ⟨idle, rest, stopped', top, of_decide_eq_true idles⟩
    · cases idles
  have calm := known.run rfl
  rcases known.moved.2 rfl with ⟨-, settled⟩ | ⟨all, w, fits, run, settled⟩
  · have inv : Gathering net roster (.rtc idle :: rest) g := settled
    cases inv.early
  obtain ⟨x, reached, inv⟩ : Simulated net roster (.rtc idle :: rest) g := settled
  refine ⟨x, reached, fun k y prompt stepped => ?_, inv.gets⟩
  rcases cooperative_of_run booted (run.mono fun _ _ both => both.1) with
    starting | ⟨⟨⟨free, ranked, exchanges⟩, cooperating, -⟩, transferring⟩
  · obtain ⟨pc, alone⟩ := starting.alone
    cases alone
  have ranks := ranked.ranks rfl
  have exchange : Rendezvous w (.rtc idle :: rest) g := exchanges
  have cooperates : Cooperating net.pri (.rtc idle :: rest) g := cooperating
  have transfers : Transfers w (.rtc idle :: rest) g := transferring
  have stacked := ranks.orderly.stacked
  -- the idle process is in progress, and no other one is
  obtain ⟨base, pc, rfl⟩ : ∃ base pc, rest = [.schedule base idle pc, .main .running] := by
    have below : Unsignalled rest := fun a mem => free a (List.mem_cons_of_mem _ mem)
    have calls : Unscheduled rest := fun q prev mem =>
      cooperates.unscheduled q prev (List.mem_cons_of_mem _ mem)
    obtain ⟨base, under, rfl | rfl⟩ := (stacked.1 : Admitted (.rtc idle) rest).caller_of_rtc
    · exact ⟨base, _, by rw [caller_of_schedule stacked.2 rfl below calls]⟩
    · exact ⟨base, _, by rw [caller_of_schedule stacked.2 rfl below calls]⟩
  -- the process waits
  obtain ⟨p, here⟩ := (known.started rfl k (complete k)).resolve_left (by rw [all]; simp)
  have alive : initialised [.rtc idle, .schedule base idle pc, .main .running] g p = true :=
    known.alive rfl p k here
  have user := inv.user p k alive here
  have other : p ≠ idle := by
    rintro rfl
    rw [user] at code
    cases code
  have level : (g.proc idle).pri < (g.proc p).pri := by
    have low : (g.proc idle).pri = priMin := by
      rcases cooperates.kinds idle (ranks.holds.held idle (by simp [Act.holds])) with
        ⟨user', -⟩ | ⟨-, low, -⟩
      · rw [user'] at code
        cases code
      · exact low
    have high : (g.proc p).pri = net.pri := by
      rcases cooperates.kinds p alive with ⟨-, high⟩ | ⟨idle', -⟩
      · exact high
      · rw [idle'] at user
        cases user
    rw [low, high]
    exact positive
  have waiting := waiting_above booted calm rfl rfl alive level
  have waits := (exchange.stands p alive (by simp [exempt, Act.inAlt, Act.targets])).waits waiting
  have phase : phaseOf [.rtc idle, .schedule base idle pc, .main .running] (g.proc p) p =
      (g.proc p).alt.phase (List.range (g.proc p).alt.nrGuards) := by
    simp [phaseOf, Act.phase, other.symm, Process.phase, waiting]
  obtain ⟨i, only, communicates⟩ := inv.regular p k alive here (by
    rw [phase]
    unfold Alternation.phase
    split <;> simp)
  obtain ⟨inside, awake⟩ := onlyActive_spec only
  rcases communicates_cases communicates awake with ⟨c, dest, len, guard, reads, -⟩ |
    ⟨c, src, guard, writes, -⟩
  · have listens : Listens (g.proc p).alt c i := ⟨dest, len, guard⟩
    have here' := waits.listed.here i (List.mem_range.mpr inside) c (Or.inl listens)
    have empty := nothing_to_get inv transfers ((fits p k here c).2 reads) here'
    have resting : x.own k = g.own p := by
      rw [inv.own p k alive here, phase, Alternation.phase_waiting fun j mem d sends => ?_]
      · rfl
      · obtain rfl := onlyActive_eq only (List.mem_range.mp mem) sends.active
        exact listens.not_sends sends
    have kind : ((g.own p).guards i).kind = .chanin c (dest.map (Ptr.localise 0)) len := by
      change (g.guard p i).relative.kind = _
      rw [guard]
      rfl
    have move : ∃ next, (net.program k).move (x.own k) = some (.get c next) := by
      simp only [Program.move, resting, Globals.own_only, only, kind]
      exact ⟨_, rfl⟩
    obtain ⟨next, move⟩ := move
    rcases Dataflow.step_eq_some.mp stepped with ⟨d, v, next', moves, -⟩ | ⟨d, next', v, moves, -, there, -⟩
    · cases move.symm.trans moves
    · cases move.symm.trans moves
      rw [empty] at there
      cases there
  · have here' := waits.listed.here i (List.mem_range.mpr inside) c (Or.inr ⟨src, guard⟩)
    exact not_prompt_of_offering inv transfers fits here writes here' prompt

end Idle

/-! ## The result -/

section Results

variable {K : Type} [DecidableEq K] {net : Network K}

/-- What a run has transferred when the idle process is executed is all that is transferred in any order
of the starts. -/
theorem rest_is_final {order order' : List K} (complete : ∀ k, k ∈ order) (distinct : order.Nodup)
    (distinct' : order'.Nodup) (positive : 0 < net.pri) {first first' : State} (booted : Booted first)
    (booted' : Booted first') {last last' : State × Roster K}
    (run : Run net.step (fun label both => net.withoutChoice label both = true ∧
      Network.everlasting label both = true) (first, Roster.starting order) last)
    (idles : last.1.idles = true)
    (run' : Run net.step (fun label both => net.withoutChoice label both = true)
      (first', Roster.starting order') last') (c : ChanId) :
    copies last'.1.g.log c <+: copies last.1.g.log c := by
  obtain ⟨x, reached, rest, gets⟩ :=
    (persists_of_run booted distinct run).atRest booted complete positive idles
  obtain ⟨x', reached', gets'⟩ := copies_of_moves booted' distinct' run'
  rw [← gets, ← gets']
  exact Dataflow.gets_extend (rest.reached reached reached') c

/-- It outputs a byte, then inputs an answer. -/
def askOnce : Program where
  locals _ := [1]
  guards _ := ⟨.skip, false⟩
  localSize := 16
  rtc _ selected :=
    match selected with
    | none => [.initAlt 2, .initChanoutGuard 0 0 (some ⟨0, 0⟩), .initChaninGuard 1 1 (some ⟨0, 0⟩) 1,
        .activate 0]
    | some _ => [.deactivate 0, .activate 1]

/-- The first one asks on channel 0; the second one never answers. -/
def unanswered : Network Bool where
  program first := if first then askOnce else takeOne
  writer c := c == 0
  reader c := !(c == 0)
  apart _ := by simp
  pri := 1

theorem rest_is_final_unanswered : ∃ last last' : State × Roster Bool,
    copies last'.1.g.log 0 <+: copies last.1.g.log 0 ∧ last.1.idles = true ∧
    copies last.1.g.log 0 = [(1, [1])] ∧ copies last'.1.g.log 0 = [(1, [1])] := by
  obtain ⟨last, run, seen⟩ := exists_run_of_executeUnder (List.replicate 157 NetLabel.machine)
    (fun both : State × Roster Bool =>
      copies both.1.g.log 0 == [(1, [1])] && both.1.idles)
    (by decide +kernel : (executeUnder unanswered.step
      (fun label both => unanswered.withoutChoice label both && Network.everlasting label both)
      (List.replicate 157 .machine) (zeroBoot 1000, Roster.starting [true, false])).any _ = true)
  obtain ⟨last', run', seen'⟩ := exists_run_of_executeUnder (List.replicate 150 NetLabel.machine)
    (fun both : State × Roster Bool => copies both.1.g.log 0 == [(1, [1])])
    (by decide +kernel : (executeUnder unanswered.step unanswered.withoutChoice
      (List.replicate 150 .machine) (zeroBoot 1000, Roster.starting [false, true])).any _ = true)
  rw [Bool.and_eq_true, beq_iff_eq] at seen
  rw [beq_iff_eq] at seen'
  exact ⟨last, last', rest_is_final (by decide) (by decide) (by decide) (by decide)
    (zeroBoot_booted 1000) (zeroBoot_booted 1000)
    (run.mono fun _ _ allowed => Bool.and_eq_true_iff.mp allowed) seen.2 run' 0, seen.2, seen.1,
    seen'⟩

end Results

end Microcsp
