import Microcsp.Preemption
import Microcsp.TimerQueue

/-!
# Released records

A record that `schedule` releases can still be referred to: it can be linked into a ready queue, wait
in a channel, belong to an armed timeout, or be the partner that some activation is about to make
ready. As long as no record is released in such a state, it is not used again before it is allocated
again, because a process enters channels and timeouts only itself, and partners are found there.
-/

open Library

namespace Microcsp

/-- `schedule` has released, `take` has returned and `readyProcessIfNecessary` was called with
allocated records only. -/
def usesAllocated : List Event → Bool
  | [] => true
  | .release p :: log => allocated log p && usesAllocated log
  | .took p :: log => allocated log p && usesAllocated log
  | .readied p :: log => allocated log p && usesAllocated log
  | _ :: log => usesAllocated log

/-! ## References -/

/-- A channel, an interrupt channel or an armed timeout refers to the process. -/
def Globals.refersTo (g : Globals) (q : Addr) : Prop :=
  (∃ c, (g.chan c).waiting = some q) ∨ (∃ x, (g.ichan x).waiting = some q) ∨
    ∃ t ∈ g.timer.queue, (g.timer.timeout t).proc = some q

/-- The process that a local variable of the activation refers to and that may be made ready. -/
def Act.partner (g : Globals) : Act → Option Addr
  | .enableAlt _ (.loop _ _ partner) => partner
  | .enableAlt _ (.insert _ _ _ partner) => partner
  | .enableAlt _ (.done _ _ _ partner) => partner
  | .disableAlt _ (.loop _ _ partner) => partner
  | .disableAlt _ (.copy _ _ _ partner) => partner
  | .disableAlt _ (.clear _ partner) => partner
  | .schedule _ _ (.enabled _ partner) => partner
  | .schedule _ _ (.branch _ partner) => partner
  | .schedule _ _ (.disabled partner) => partner
  | .schedule _ _ (.partner partner _) => partner
  | .ready q .test => some q
  | .timeoutHandler (.test _ (some t)) => (g.timer.timeout t).proc
  | .timeoutHandler (.remove _ t) => (g.timer.timeout t).proc
  | _ => none

/-- Something refers to the process. -/
def Refers (stack : List Act) (g : Globals) (q : Addr) : Prop :=
  g.refersTo q ∨ ∃ act ∈ stack, act.partner g = some q

/-- A record that nothing refers to is released. -/
def ReleasesUnreferenced (label : Label) (s : State) : Prop :=
  match label, s.stack with
  | .run, .schedule _ p .finish :: _ => (s.g.proc p).state = .done → ¬ Refers s.stack s.g p
  | _, _ => True

/-- `enable_alt` arms timeouts of the process only. -/
def armsOwn (label : Label) (s : State) : Bool :=
  match label, s.stack with
  | .run, .enableAlt p (.insert _ _ t _) :: _ => decide ((s.g.timer.timeout t).proc = some p)
  | _, _ => true

/-- No record is released. -/
def releasesNone (label : Label) (s : State) : Bool :=
  match label, s.stack with
  | .run, .schedule _ p .finish :: _ => decide ((s.g.proc p).state ≠ .done)
  | _, _ => true

/-- The conditions: interrupts come where they should, a process starts no process above itself and
arms only its own timeouts, and a record that is released is not in use. -/
structure KeepsRecords (label : Label) (s : State) : Prop where
  /-- Where interrupts come. -/
  guarded : guarded label s = true
  /-- What processes start. -/
  starts : startsBelow label s = true
  /-- Which timeouts are armed. -/
  arms : armsOwn label s = true
  /-- A released record is in no queue. -/
  unqueued : ReleasesUnqueued label s
  /-- Nothing else refers to it. -/
  unreferenced : ReleasesUnreferenced label s

/-- A step that releases no record releases none that is in use. -/
theorem keepsRecords_of_releasesNone {label : Label} {s : State} (guard : guarded label s = true)
    (starts : startsBelow label s = true) (arms : armsOwn label s = true)
    (none : releasesNone label s = true) : KeepsRecords label s := by
  refine ⟨guard, starts, arms, ?_, ?_⟩
  · unfold ReleasesUnqueued
    split
    · rename_i base p rest same
      simp only [releasesNone, same, decide_eq_true_eq] at none
      exact fun done => absurd done none
    · trivial
  · unfold ReleasesUnreferenced
    split
    · rename_i base p rest same
      simp only [releasesNone, same, decide_eq_true_eq] at none
      exact fun done => absurd done none
    · trivial

/-- What refers to a process in the later state referred to it before, or the process was
executing. -/
def Fewer (stack : List Act) (g : Globals) (stack' : List Act) (g' : Globals) : Prop :=
  ∀ q, Refers stack' g' q → Refers stack g q ∨ codeOf stack = some q

section Steps

variable {act act' callee : Act} {rest : List Act} {g g' : Globals}

/-- The parts of the global variables that refer to processes. -/
theorem Globals.refersTo_congr (chan : g'.chan = g.chan) (ichan : g'.ichan = g.ichan)
    (timer : g'.timer = g.timer) (q : Addr) : g'.refersTo q ↔ g.refersTo q := by
  unfold refersTo
  rw [chan, ichan, timer]

theorem Globals.refersTo_setChan {c : ChanId} {chan : Channel} {q : Addr}
    (refers : (g.setChan c chan).refersTo q) : g.refersTo q ∨ chan.waiting = some q := by
  rcases refers with ⟨d, waiting⟩ | other
  · by_cases same : d = c
    · subst same
      exact Or.inr (by simpa [setChan] using waiting)
    · exact Or.inl (Or.inl ⟨d, by simpa [setChan, Function.update_of_ne same] using waiting⟩)
  · exact Or.inl (Or.inr other)

theorem Globals.refersTo_setIchan {x : ChanId} {ichan : InterruptChannel} {q : Addr}
    (refers : (g.setIchan x ichan).refersTo q) : g.refersTo q ∨ ichan.waiting = some q := by
  rcases refers with chan | ⟨y, waiting⟩ | timer
  · exact Or.inl (Or.inl chan)
  · by_cases same : y = x
    · subst same
      exact Or.inr (by simpa [setIchan] using waiting)
    · exact Or.inl (Or.inr (Or.inl ⟨y, by simpa [setIchan, Function.update_of_ne same] using waiting⟩))
  · exact Or.inl (Or.inr (Or.inr timer))

/-- No activation of the rest refers to anything new. -/
theorem partner_congr (timeouts : g'.timer.timeout = g.timer.timeout) (act : Act) :
    act.partner g' = act.partner g := by
  unfold Act.partner
  rw [timeouts]

/-- What a returned value refers to. -/
def Value.partner : Value → Option Addr
  | .alt _ partner => partner
  | .proc partner => partner
  | .unit => none

/-- The caller refers to what it did and to what is returned. -/
theorem partner_resume {caller : Act} {v : Value} {q : Addr}
    (partner : (caller.resume v).partner g = some q) :
    v.partner = some q ∨ caller.partner g = some q := by
  unfold Act.resume at partner
  split at partner
  · cases partner
  · exact Or.inl partner
  · exact Or.inl partner
  · exact Or.inr partner

/-- What the outcome of a step refers to in the global variables and in the activations that the
step has put on the stack. -/
def Result.refers (q : Addr) : Result → Prop
  | .next act g => act.partner g = some q ∨ g.refersTo q
  | .call caller callee g => callee.partner g = some q ∨ caller.partner g = some q ∨ g.refersTo q
  | .ret v g => v.partner = some q ∨ g.refersTo q
  | .stop _ => False
  | .stuck => False

/-- The step leaves the `Timeout` objects as they are. -/
def Result.keepsTimeouts (g : Globals) : Result → Prop
  | .next _ g' | .call _ _ g' | .ret _ g' => g'.timer.timeout = g.timer.timeout
  | .stop _ => True
  | .stuck => True

/-- The end of a queue operation refers to no more. -/
theorem Settled.fewer {stack stack' : List Act} (stacked : Stacked stack')
    (fewer : Fewer stack g stack' g') : Settled (Fewer stack g) stack' g' := by
  unfold Settled
  split
  · rename_i pri pc under
    have same := g'.takeFrom_frame pri pc
    simp only [Prod.mk.injEq] at same
    rintro q (refers | ⟨a, mem, partner⟩)
    · exact fewer q (Or.inl ((Globals.refersTo_congr same.1 same.2.1 same.2.2 q).mp refers))
    · obtain ⟨base, outer, rfl⟩ := (stacked.1 : Admitted .take under).caller_of_take
      rcases List.mem_cons.mp mem with rfl | inner
      · cases partner
      · rw [partner_congr (congrArg TimerState.timeout same.2.2)] at partner
        exact fewer q (Or.inr ⟨a, List.mem_cons_of_mem _ (List.mem_cons_of_mem _ inner), partner⟩)
  · rename_i p pc under
    have same := g'.appendFrom_frame p pc
    simp only [Prod.mk.injEq] at same
    rintro q (refers | ⟨a, mem, partner⟩)
    · exact fewer q (Or.inl ((Globals.refersTo_congr same.2.2.1 same.2.2.2.1 same.2.2.2.2 q).mp refers))
    · rw [partner_congr (congrArg TimerState.timeout same.2.2.2.2)] at partner
      exact fewer q (Or.inr ⟨a, List.mem_cons_of_mem _ mem, partner⟩)
  · exact fewer

/-- A step refers to nothing new if its outcome does not. -/
theorem Fewer.all {r : Result} (stacked : r.All (fun stack _ => Stacked stack) rest)
    (timeouts : r.keepsTimeouts g)
    (old : ∀ q, r.refers q → Refers (act :: rest) g q ∨ codeOf (act :: rest) = some q) :
    r.All (Settled (Fewer (act :: rest) g)) rest := by
  have below : ∀ {a q}, a ∈ rest → a.partner g = some q → Refers (act :: rest) g q :=
    fun mem partner => Or.inr ⟨_, List.mem_cons_of_mem _ mem, partner⟩
  cases r with
  | next act' g' =>
    refine Settled.fewer stacked ?_
    rintro q (refers | ⟨a, mem, partner⟩)
    · exact old q (Or.inr refers)
    · rcases List.mem_cons.mp mem with rfl | inner
      · exact old q (Or.inl partner)
      · rw [partner_congr timeouts] at partner
        exact Or.inl (below inner partner)
  | call caller callee g' =>
    refine Settled.fewer stacked ?_
    rintro q (refers | ⟨a, mem, partner⟩)
    · exact old q (Or.inr (Or.inr refers))
    · simp only [List.mem_cons] at mem
      rcases mem with rfl | rfl | inner
      · exact old q (Or.inl partner)
      · exact old q (Or.inr (Or.inl partner))
      · rw [partner_congr timeouts] at partner
        exact Or.inl (below inner partner)
  | ret v g' =>
    refine Settled.fewer stacked ?_
    rintro q (refers | ⟨a, mem, partner⟩)
    · exact old q (Or.inr refers)
    · cases rest with
      | nil => cases mem
      | cons under outer =>
        rcases List.mem_cons.mp mem with rfl | inner
        · rcases partner_resume partner with value | before
          · exact old q (Or.inl value)
          · rw [partner_congr timeouts] at before
            exact Or.inl (below List.mem_cons_self before)
        · rw [partner_congr timeouts] at partner
          exact Or.inl (below (List.mem_cons_of_mem _ inner) partner)
  | stop why => trivial
  | stuck => trivial

/-- A channel that `current` enables for input refers to what it referred to before, or to it. -/
theorem refersTo_enableInput (g : Globals) (c : ChanId) {q : Addr}
    (refers : (g.enableChannelInput c).2.refersTo q) : g.refersTo q ∨ g.current = some q := by
  rcases Globals.refersTo_setChan refers with old | waiting
  · exact Or.inl old
  · exact (Channel.enableInput_waiting waiting).imp_left fun before => Or.inl ⟨c, before⟩

theorem refersTo_disableInput (g : Globals) (c : ChanId) {q : Addr}
    (refers : (g.disableChannelInput c).2.refersTo q) : g.refersTo q := by
  rcases Globals.refersTo_setChan refers with old | waiting
  · exact old
  · exact Or.inl ⟨c, Channel.disableInput_waiting waiting⟩

theorem refersTo_enableOutput (g : Globals) (c : ChanId) (src : Option Ptr) {q : Addr}
    (refers : (g.enableChannelOutput c src).2.refersTo q) : g.refersTo q ∨ g.current = some q :=
  Globals.refersTo_setChan refers

theorem refersTo_enableInterrupt (g : Globals) (x : ChanId) {q : Addr}
    (refers : (g.enableInterruptChannel x).2.refersTo q) : g.refersTo q ∨ g.current = some q := by
  rcases Globals.refersTo_setIchan refers with old | waiting
  · exact Or.inl old
  · exact (InterruptChannel.enable_waiting waiting).imp_left fun before => Or.inr (Or.inl ⟨x, before⟩)

theorem refersTo_disableInterrupt (g : Globals) (x : ChanId) {q : Addr}
    (refers : (g.disableInterruptChannel x).2.refersTo q) : g.refersTo q := by
  rcases Globals.refersTo_setIchan refers with old | waiting
  · exact old
  · cases waiting

/-- `enable_alt` refers to what it finds in the channels. -/
theorem execEnableAlt_refers {p : Addr} {pc : EnablePc} (current : g.current = some p)
    (arms : armsOwn .run ⟨.enableAlt p pc :: rest, g, none⟩ = true) {q : Addr}
    (refers : (execEnableAlt p pc g).refers q) : Refers (.enableAlt p pc :: rest) g q ∨ q = p := by
  have self : g.current = some q → q = p := fun same =>
    (Option.some.inj (current.symm.trans same)).symm
  have old : g.refersTo q → Refers (.enableAlt p pc :: rest) g q ∨ q = p := fun refers =>
    Or.inl (Or.inl refers)
  have mine : (Act.enableAlt p pc).partner g = some q → Refers (.enableAlt p pc :: rest) g q ∨ q = p :=
    fun partner => Or.inl (Or.inr ⟨_, List.mem_cons_self, partner⟩)
  cases pc with
  | enter =>
    simp only [execEnableAlt] at refers
    repeat' split at refers
    all_goals first | exact refers.elim | exact old (refers.resolve_left (by simp [Act.partner]))
  | loop i k partner =>
    simp only [execEnableAlt] at refers
    split at refers
    · split at refers
      · split at refers
        · rename_i c _ _ _
          split at refers
          · rename_i w found
            rcases refers with same | refers
            · obtain rfl : w = q := Option.some.inj same
              exact old (Or.inl ⟨c, Channel.enableInput_partner found⟩)
            · exact (refersTo_enableInput g c refers).elim old fun same =>
                Or.inr (self same)
          · exact refers.elim mine fun refers =>
              (refersTo_enableInput g c refers).elim old fun same => Or.inr (self same)
        · rename_i c src _
          rcases refers with found | refers
          · exact old (Or.inl ⟨c, found⟩)
          · exact (refersTo_enableOutput g c src refers).elim old fun same =>
              Or.inr (self same)
        · exact refers.elim mine old
        · split at refers
          · exact refers.elim mine old
          · exact refers.elim mine old
        · rename_i x _ _
          split at refers
          · exact refers.elim mine fun refers =>
              (refersTo_enableInterrupt g x refers).elim old fun same => Or.inr (self same)
          · exact refers.elim mine fun refers =>
              (refersTo_enableInterrupt g x refers).elim old fun same => Or.inr (self same)
      · exact refers.elim mine old
    · split at refers
      · exact refers.elim
      · exact refers.elim mine old
  | insert i k t partner =>
    have own : (g.timer.timeout t).proc = some p := of_decide_eq_true arms
    simp only [execEnableAlt] at refers
    split at refers
    · exact refers.elim
    · rcases refers with same | refers
      · exact mine same
      · rcases refers with chan | ichan | ⟨u, queued, proc⟩
        · exact old (Or.inl chan)
        · exact old (Or.inr (Or.inl ichan))
        · have timeouts : (g.timer.insertInQueue t g.now).timeout = g.timer.timeout := by simp
          change u ∈ (g.timer.insertInQueue t g.now).queue at queued
          change ((g.timer.insertInQueue t g.now).timeout u).proc = some q at proc
          rw [timeouts] at proc
          rcases TimerState.mem_insertInQueue.mp queued with rfl | before
          · exact Or.inr (Option.some.inj (proc.symm.trans own))
          · exact old (Or.inr (Or.inr ⟨u, before, proc⟩))
  | done i k ready partner => exact refers.elim mine old

/-- `disable_alt` refers to what it finds in the channels. -/
theorem execDisableAlt_refers {p : Addr} {pc : DisablePc} {q : Addr}
    (refers : (execDisableAlt p pc g).refers q) : Refers (.disableAlt p pc :: rest) g q := by
  have old : g.refersTo q → Refers (.disableAlt p pc :: rest) g q := fun refers => Or.inl refers
  have mine : (Act.disableAlt p pc).partner g = some q → Refers (.disableAlt p pc :: rest) g q :=
    fun partner => Or.inr ⟨_, List.mem_cons_self, partner⟩
  cases pc with
  | enter => exact refers.elim (fun none => absurd none (by simp [Act.partner])) old
  | loop i left partner =>
    cases left with
    | zero =>
      simp only [execDisableAlt] at refers
      split at refers
      · exact refers.elim mine old
      · rename_i x dest _
        rcases refers with same | chan | ⟨y, waiting⟩ | timer
        · exact mine same
        · exact old (Or.inl chan)
        · refine old (Or.inr (Or.inl ⟨y, ?_⟩))
          by_cases same : y = x
          · subst same
            simpa [Globals.receiveInterrupt] using waiting
          · simpa [Globals.receiveInterrupt, Function.update_of_ne same] using waiting
        · exact old (Or.inr (Or.inr timer))
      · exact refers.elim mine old
    | succ left =>
      simp only [execDisableAlt] at refers
      split at refers
      · exact refers.elim
      · split at refers
        · split at refers
          · rename_i c _ _ _
            rcases refers with same | refers
            · change ((g.disableChannelInput c).1.or partner) = some q at same
              rcases Option.or_eq_some_iff.mp same with found | ⟨-, before⟩
              · exact old (Or.inl ⟨c, Channel.disableInput_partner found⟩)
              · exact mine before
            · exact old (refersTo_disableInput g c refers)
          · exact refers.elim mine old
          · exact refers.elim mine old
          · rename_i t _
            rcases refers with same | chan | ichan | ⟨u, queued, proc⟩
            · exact mine same
            · exact old (Or.inl chan)
            · exact old (Or.inr (Or.inl ichan))
            · refine old (Or.inr (Or.inr ⟨u, ?_, ?_⟩))
              · exact (g.timer.removeFromQueue_sublist _ _).subset queued
              · change ((g.timer.disableTimeout t g.now).2.timeout u).proc = some q at proc
                rwa [TimerState.disableTimeout_timeout] at proc
          · rename_i x _ _
            exact refers.elim mine fun refers => old (refersTo_disableInterrupt g x refers)
        · exact refers.elim mine old
  | copy c dest len partner =>
    simp only [execDisableAlt] at refers
    split at refers
    · exact refers.elim
    · exact refers.elim mine old
  | clear c partner =>
    rcases refers with same | refers
    · exact mine same
    · rcases Globals.refersTo_setChan refers with before | none
      · exact old before
      · cases none

/-- `schedule` refers to what was returned to it. -/
theorem execSchedule_refers {base : Int} {p : Addr} {pc : SchedulePc} {q : Addr}
    (refers : (execSchedule base p pc g).refers q) : Refers (.schedule base p pc :: rest) g q := by
  have old : g.refersTo q → Refers (.schedule base p pc :: rest) g q := fun refers => Or.inl refers
  have mine : (Act.schedule base p pc).partner g = some q → Refers (.schedule base p pc :: rest) g q :=
    fun partner => Or.inr ⟨_, List.mem_cons_self, partner⟩
  have none : ∀ {P : Prop}, (none : Option Addr) = some q → P := fun same => by cases same
  cases pc with
  | dispatch state =>
    cases state <;> first | exact refers.elim none old | exact refers.elim none (·.elim none old)
  | enabled found partner => exact refers.elim mine old
  | disabled partner => exact refers.elim mine old
  | branch state partner =>
    simp only [execSchedule] at refers
    split at refers
    · exact refers.elim none (·.elim none old)
    · exact refers.elim mine old
  | partner partner execute =>
    cases partner with
    | none => exact refers.elim none old
    | some r => exact refers.elim mine (·.elim none old)
  | execute execute => cases execute <;> first | exact refers.elim none old | exact refers.elim none (·.elim none old)
  | finish =>
    simp only [execSchedule] at refers
    split at refers <;> exact refers.elim none old
  | enabling => exact refers.elim
  | disabling => exact refers.elim
  | _ => exact refers.elim none old

/-- The handlers refer to what they find in the timeout queue and in the interrupt channels. -/
theorem execTimeoutHandler_refers {pc : TimeoutPc} {q : Addr}
    (refers : (execTimeoutHandler pc g).refers q) : Refers (.timeoutHandler pc :: rest) g q := by
  have old : g.refersTo q → Refers (.timeoutHandler pc :: rest) g q := fun refers => Or.inl refers
  have mine : (Act.timeoutHandler pc).partner g = some q → Refers (.timeoutHandler pc :: rest) g q :=
    fun partner => Or.inr ⟨_, List.mem_cons_self, partner⟩
  have none : ∀ {P : Prop}, (none : Option Addr) = some q → P := fun same => by cases same
  have first : ∀ now : Time, (Act.timeoutHandler (.test now g.timer.queue.head?)).partner g = some q →
      g.refersTo q := by
    intro now partner
    cases queue : g.timer.queue with
    | nil => rw [queue] at partner; cases partner
    | cons t others =>
      rw [queue] at partner
      exact Or.inr (Or.inr ⟨t, by rw [queue]; exact List.mem_cons_self, partner⟩)
  have restarted : ∀ now : Time, ({ g with timer := g.timer.restart now } : Globals).refersTo q →
      g.refersTo q := by
    rintro now (chan | ichan | ⟨t, queued, proc⟩)
    · exact Or.inl chan
    · exact Or.inr (Or.inl ichan)
    · refine Or.inr (Or.inr ⟨t, ?_, ?_⟩)
      · change t ∈ (g.timer.restart now).queue at queued
        unfold TimerState.restart at queued
        split at queued
        · exact queued
        · exact queued
      · change ((g.timer.restart now).timeout t).proc = some q at proc
        rwa [TimerState.restart_timeout] at proc
  cases pc with
  | enter => exact refers.elim (fun partner => old (first _ partner)) old
  | test now head =>
    simp only [execTimeoutHandler] at refers
    split at refers
    · split at refers
      · exact refers.elim mine old
      · exact refers.elim none fun refers => old (restarted now refers)
    · exact refers.elim none fun refers => old (restarted now refers)
  | remove now t =>
    simp only [execTimeoutHandler, readyOrFault] at refers
    split at refers
    · exact refers.elim
    · split at refers
      · exact refers.elim
      · rename_i r proc
        rcases refers with same | same | chan | ichan | ⟨u, queued, expects⟩
        · exact mine (proc.trans same)
        · cases same
        · exact old (Or.inl chan)
        · exact old (Or.inr (Or.inl ichan))
        · exact old (Or.inr (Or.inr ⟨u, List.mem_of_mem_tail queued, expects⟩))
  | resume now => exact refers.elim (fun partner => old (first _ partner)) old

theorem execUserHandler_refers {intrsrc : Nat} {q : Addr}
    (refers : (execUserHandler intrsrc g).refers q) : Refers (.userHandler intrsrc :: rest) g q := by
  have none : ∀ {P : Prop}, (none : Option Addr) = some q → P := fun same => by cases same
  simp only [execUserHandler] at refers
  split at refers
  · exact refers.elim none Or.inl
  · rename_i x connected
    have counted : (g.setIchan x { g.ichan x with count := (g.ichan x).count + 1 }).refersTo q →
        Refers (.userHandler intrsrc :: rest) g q := by
      intro refers
      rcases Globals.refersTo_setIchan refers with before | waiting
      · exact Or.inl before
      · exact Or.inl (Or.inr (Or.inl ⟨x, waiting⟩))
    split at refers
    · split at refers
      · exact refers.elim none counted
      · rename_i r waiting
        rcases refers with same | refers
        · obtain rfl : r = q := Option.some.inj same
          refine Or.inl (Or.inr (Or.inl ⟨x, ?_⟩))
          simpa [Globals.setIchan] using waiting
        · exact counted refers
    · exact refers.elim

/-- A step of the running code refers to nothing new but the process that executes it. -/
theorem exec_refers {act : Act} (coherent : CurrentInv (act :: rest) g)
    (arms : armsOwn .run ⟨act :: rest, g, none⟩ = true) (other : queueing (act :: rest) = false) {q : Addr}
    (refers : (exec act g).refers q) :
    Refers (act :: rest) g q ∨ codeOf (act :: rest) = some q := by
  have old : g.refersTo q → Refers (act :: rest) g q ∨ codeOf (act :: rest) = some q := fun refers =>
    Or.inl (Or.inl refers)
  have none : ∀ {P : Prop}, (none : Option Addr) = some q → P := fun same => by cases same
  cases act with
  | main pc =>
    cases pc <;> simp only [exec, execMain] at refers <;> (repeat' split at refers) <;>
      first
        | exact refers.elim
        | exact refers.elim none old
        | exact refers.elim none (·.elim none old)
  | select base pc =>
    cases pc <;> simp only [exec, execSelect] at refers <;> (repeat' split at refers) <;>
      first
        | exact refers.elim
        | exact refers.elim none old
        | exact refers.elim none (·.elim none old)
  | schedule base p pc => exact Or.inl (execSchedule_refers refers)
  | take pri pc => cases other
  | append p pc => cases other
  | start args pc =>
    cases pc <;> simp only [exec, execStart] at refers <;> (repeat' split at refers) <;>
      first
        | exact refers.elim
        | exact refers.elim none old
        | exact refers.elim none (·.elim none old)
  | rtc p => exact refers.elim
  | enableAlt p pc =>
    rcases execEnableAlt_refers coherent.1 arms refers with before | rfl
    · exact Or.inl before
    · exact Or.inr rfl
  | disableAlt p pc => exact Or.inl (execDisableAlt_refers refers)
  | ready r pc =>
    cases pc <;> simp only [exec, execReady, callSchedule] at refers <;> (repeat' split at refers) <;>
      first
        | exact refers.elim
        | exact refers.elim none old
        | exact refers.elim none (·.elim none old)
  | signal intr saved pc =>
    cases pc <;> simp only [exec, execSignal, callScheduleAtCurrent, callSchedule] at refers <;>
      (repeat' split at refers) <;>
      first
        | exact refers.elim
        | exact refers.elim none old
        | exact refers.elim none (·.elim none old)
  | timeoutHandler pc => exact Or.inl (execTimeoutHandler_refers refers)
  | userHandler intrsrc => exact Or.inl (execUserHandler_refers refers)

/-- No step of the running code stores into a `Timeout`. -/
theorem exec_keepsTimeouts (act : Act) : (exec act g).keepsTimeouts g := by
  cases act with
  | main pc => cases pc <;> simp only [exec, execMain] <;> (repeat' split) <;> trivial
  | select base pc => cases pc <;> simp only [exec, execSelect] <;> (repeat' split) <;> trivial
  | schedule base p pc =>
    cases pc <;> simp only [exec, execSchedule, callDisableAlt] <;> (repeat' split) <;> trivial
  | take pri pc => cases pc <;> simp only [exec, execTake] <;> (repeat' split) <;> trivial
  | append p pc => cases pc <;> simp only [exec, execAppend] <;> (repeat' split) <;> trivial
  | start args pc => cases pc <;> simp only [exec, execStart] <;> (repeat' split) <;> trivial
  | rtc p => trivial
  | enableAlt p pc =>
    cases pc <;> simp only [exec, execEnableAlt] <;> (repeat' split) <;>
      first | trivial | exact TimerState.insertInQueue_timeout ..
  | disableAlt p pc =>
    cases pc <;> simp only [exec, execDisableAlt] <;> (repeat' split) <;>
      first | trivial | simp [Result.keepsTimeouts]
  | ready r pc => cases pc <;> simp only [exec, execReady, callSchedule] <;> (repeat' split) <;> trivial
  | signal intr saved pc =>
    cases pc <;> simp only [exec, execSignal, callScheduleAtCurrent, callSchedule] <;>
      (repeat' split) <;> trivial
  | timeoutHandler pc =>
    cases pc <;> simp only [exec, execTimeoutHandler, readyOrFault] <;> (repeat' split) <;>
      first | trivial | exact TimerState.restart_timeout ..
  | userHandler intrsrc => simp only [exec, execUserHandler] ; (repeat' split) <;> trivial

theorem refersTo_connect (g : Globals) (x : ChanId) (intrno : Int) {q : Addr}
    (refers : (g.connectInterruptToChannel x intrno).refersTo q) : g.refersTo q := by
  have stored : (g.setIchan x ⟨none, 0⟩).refersTo q := refers
  rcases Globals.refersTo_setIchan stored with before | waiting
  · exact before
  · cases waiting

/-- Nor does application code, but for `init_timeout_guard`, or refer to anything new. -/
theorem execUser_refers {op : Op} (act : Act) (g : Globals) (other : ∀ i t time, op ≠ .initTimeoutGuard i t time) :
    (execUser op act g).keepsTimeouts g ∧ ∀ q, (execUser op act g).refers q → g.refersTo q := by
  have none : ∀ {q} {P : Prop}, (none : Option Addr) = some q → P := fun same => by cases same
  unfold execUser
  split
  · split
    · cases op with
      | initTimeoutGuard i t time => exact absurd rfl (other i t time)
      | connect x intrno =>
        simp only [userRtc]
        split
        · exact ⟨rfl, fun q refers => refers.elim none (refersTo_connect g x intrno)⟩
        · exact ⟨trivial, fun q refers => refers.elim⟩
      | _ =>
        simp only [userRtc]
        repeat' split
        all_goals first
          | exact ⟨trivial, fun q refers => refers.elim⟩
          | exact ⟨rfl, fun q refers => refers.elim none id⟩
          | exact ⟨rfl, fun q refers => refers.elim none (·.elim none id)⟩
    · exact ⟨trivial, fun q refers => refers.elim⟩
  · cases op with
    | connect x intrno =>
      simp only [userMain]
      split
      · exact ⟨rfl, fun q refers => refers.elim none (refersTo_connect g x intrno)⟩
      · exact ⟨trivial, fun q refers => refers.elim⟩
    | _ =>
      first
        | exact ⟨trivial, fun q refers => refers.elim⟩
        | exact ⟨rfl, fun q refers => refers.elim none (·.elim none id)⟩
  · exact ⟨trivial, fun q refers => refers.elim⟩

/-- `init_timeout_guard` makes a `Timeout` refer to the executing process. -/
theorem execUser_fewer {op : Op} {act : Act} (orderly : Orderly (act :: rest))
    (coherent : CurrentInv (act :: rest) g) :
    (execUser op act g).All (Settled (Fewer (act :: rest) g)) rest := by
  have stacked := orderly.stacked.follow (execUser_follows op act g)
  by_cases init : ∃ i t time, op = .initTimeoutGuard i t time
  · obtain ⟨i, t, time, rfl⟩ := init
    cases act with
    | rtc p =>
      simp only [execUser, userRtc]
      split
      · have current : g.current = some p := coherent.1
        have self : ∀ {u q}, (Function.update g.timer.timeout t ⟨g.current, time⟩ u).proc = some q →
            (g.timer.timeout u).proc = some q ∨ p = q := by
          intro u q proc
          by_cases same : u = t
          · subst same
            rw [Function.update_self, current] at proc
            exact Or.inr (Option.some.inj proc)
          · rw [Function.update_of_ne same] at proc
            exact Or.inl proc
        rintro q ((chan | ichan | ⟨u, queued, proc⟩) | ⟨a, mem, partner⟩)
        · exact Or.inl (Or.inl (Or.inl chan))
        · exact Or.inl (Or.inl (Or.inr (Or.inl ichan)))
        · exact (self proc).imp (fun before => Or.inl (Or.inr (Or.inr ⟨u, queued, before⟩)))
            fun same => congrArg some same
        · have before : a.partner g = some q ∨ p = q := by
            unfold Act.partner at partner ⊢
            split at partner <;> first | exact Or.inl partner | exact self partner
          exact before.imp (fun partner => Or.inr ⟨a, mem, partner⟩) fun same => congrArg some same
      · trivial
    | main pc => cases pc <;> trivial
    | _ => trivial
  · have made := execUser_refers act g fun i t time same => init ⟨i, t, time, same⟩
    exact Fewer.all stacked made.1 fun q refers => Or.inl (Or.inl (made.2 q refers))

/-- Code that executes is that of a process in progress. -/
theorem Ranks.executing {stack : List Act} {q : Addr} (ranks : Ranks stack g)
    (executing : codeOf stack = some q) : initialised stack g q = true := by
  refine ranks.holds.held q ?_
  have stacked := ranks.orderly.stacked
  clear ranks
  induction stack with
  | nil => cases executing
  | cons act rest ih =>
    cases act with
    | rtc p =>
      cases executing
      obtain ⟨base, under, rfl | rfl⟩ := stacked.1.caller_of_rtc <;> exact List.mem_cons_self
    | enableAlt p pc =>
      cases executing
      obtain ⟨base, under, rfl⟩ := stacked.1.caller_of_enableAlt
      exact List.mem_cons_self
    | disableAlt p pc =>
      cases executing
      obtain ⟨base, under, rfl⟩ := stacked.1.caller_of_disableAlt
      exact List.mem_cons_self
    | append p pc => exact ih executing stacked.2
    | start args pc => exact ih executing stacked.2
    | _ => cases executing

/-- The step has used allocated records only. -/
def Result.honest : Result → Prop
  | .next _ g | .call _ _ g | .ret _ g => usesAllocated g.log = true
  | .stop _ => True
  | .stuck => True

/-- Queue operations use at most the record that `take` returns. -/
theorem Settled.honest {stack : List Act} (settled : Settled (fun _ g => usesAllocated g.log = true) stack g) :
    usesAllocated g.log = true := by
  unfold Settled at settled
  split at settled
  · rename_i pri pc under
    rcases g.takeFrom_log pri pc with same | ⟨q, grown⟩
    · rwa [same] at settled
    · rw [grown] at settled
      exact (Bool.and_eq_true_iff.mp settled).2
  · rename_i p pc under
    rwa [g.appendFrom_log p pc] at settled
  · exact settled

/-- Unless it is `take`, what comes next uses no record. -/
theorem settled_honest {stack : List Act} (honest : usesAllocated g.log = true)
    (other : ∀ pri pc under, stack ≠ .take pri pc :: under) :
    Settled (fun _ g => usesAllocated g.log = true) stack g := by
  unfold Settled
  split
  · exact absurd rfl (other _ _ _)
  · rename_i p pc under
    change usesAllocated (g.appendFrom p pc).log = true
    rwa [g.appendFrom_log p pc]
  · exact honest

/-- A process that something refers to may be made ready. -/
theorem honest_enterReady {q : Addr} (honest : usesAllocated g.log = true)
    (known : allocated g.log q = true) : usesAllocated (enterReady g q).log = true :=
  Bool.and_eq_true_iff.mpr ⟨known, honest⟩

end Steps

/-! ## The invariant -/

/-- Everything that is referred to is a process with its record. -/
def ReferencesInv (stack : List Act) (g : Globals) : Prop :=
  ∀ q, Refers stack g q → initialised stack g q = true

/-- Only records in use are referred to, and only those were used. -/
structure RecordsInv (stack : List Act) (g : Globals) : Prop where
  /-- What is referred to. -/
  references : ReferencesInv stack g
  /-- What was used. -/
  honest : usesAllocated g.log = true

section Records

variable {act : Act} {rest : List Act} {g g' : Globals}

theorem ReferencesInv.allocated {stack : List Act} {q : Addr} (inv : ReferencesInv stack g)
    (refers : Refers stack g q) : allocated g.log q = true := by
  have known := inv q refers
  simp only [initialised, Bool.and_eq_true] at known
  exact known.1

/-- A reference of the innermost activation. -/
theorem ReferencesInv.top {q : Addr} (inv : ReferencesInv (act :: rest) g)
    (partner : act.partner g = some q) : Microcsp.allocated g.log q = true :=
  inv.allocated (Or.inr ⟨act, List.mem_cons_self, partner⟩)

/-- A step of anything but `take` and `append` uses allocated records only, as far as it goes. -/
theorem exec_honest (other : queueing (act :: rest) = false) (holds : Holds (act :: rest) g)
    (inv : RecordsInv (act :: rest) g) : (exec act g).honest := by
  have honest := inv.honest
  have refers : ∀ q, act.partner g = some q → allocated g.log q = true := fun q =>
    inv.references.top
  cases act with
  | main pc =>
    cases pc <;> simp only [exec, execMain] <;> (repeat' split) <;> trivial
  | select base pc =>
    cases pc <;> simp only [exec, execSelect] <;> (repeat' split) <;> trivial
  | schedule base p pc =>
    cases pc with
    | partner partner execute =>
      cases partner with
      | none => exact honest
      | some q => exact honest_enterReady honest (refers q rfl)
    | finish =>
      have known := holds.held p List.mem_cons_self
      simp only [initialised, Bool.and_eq_true] at known
      simp only [exec, execSchedule]
      split
      · exact Bool.and_eq_true_iff.mpr ⟨known.1, honest⟩
      · exact honest
      · exact honest
    | _ => simp only [exec, execSchedule, callDisableAlt]; (repeat' split) <;> trivial
  | take pri pc => cases other
  | append p pc => cases other
  | start args pc =>
    cases pc <;> simp only [exec, execStart] <;> (repeat' split) <;> trivial
  | rtc p => trivial
  | enableAlt p pc =>
    cases pc <;> simp only [exec, execEnableAlt] <;> (repeat' split) <;> trivial
  | disableAlt p pc =>
    cases pc <;> simp only [exec, execDisableAlt] <;> (repeat' split) <;> trivial
  | ready r pc =>
    cases pc <;> simp only [exec, execReady, callSchedule] <;> (repeat' split) <;> trivial
  | signal intr saved pc =>
    cases pc <;> simp only [exec, execSignal, callScheduleAtCurrent, callSchedule] <;>
      (repeat' split) <;> trivial
  | timeoutHandler pc =>
    cases pc with
    | remove now t =>
      simp only [exec, execTimeoutHandler, readyOrFault]
      split
      · trivial
      · split
        · trivial
        · rename_i q proc
          exact honest_enterReady honest (refers q proc)
    | _ => simp only [exec, execTimeoutHandler]; (repeat' split) <;> trivial
  | userHandler intrsrc =>
    simp only [exec, execUserHandler]
    split
    · exact honest
    · rename_i x connected
      split
      · split
        · exact honest
        · rename_i q waiting
          refine honest_enterReady honest (inv.references.allocated (Or.inl (Or.inr (Or.inl ⟨x, ?_⟩))))
          simpa [Globals.setIchan] using waiting
      · trivial

/-- `take` is called where `schedule` has chosen a level. -/
theorem caller_takes {caller : Act} {pri : Nat} {pc : TakePc}
    (calls : exec act g = .call caller (.take pri pc) g') :
    ∃ base highest, act = .select base (.chosen highest) := by
  have follows := exec_follows act g
  rw [calls] at follows
  obtain ⟨same, admits, -⟩ := follows
  obtain ⟨base, under, frame⟩ := @Admitted.caller_of_take [caller] admits
  obtain ⟨rfl, -⟩ := List.cons.inj frame
  cases act with
  | select base pc =>
    cases pc with
    | chosen highest => exact ⟨base, highest, rfl⟩
    | took r => cases r <;> cases calls
    | _ => cases calls
  | schedule base p pc =>
    cases pc <;> simp only [exec, execSchedule, callDisableAlt] at calls <;>
      (repeat' split at calls) <;> cases calls
  | _ => cases same

/-- Where `take` is not called, what the step has used is all. -/
theorem Result.honest.all {r : Result} (honest : r.honest) (orderly : Orderly (act :: rest))
    (other : queueing (act :: rest) = false) (follows : r.All (fun stack _ => Follows act stack) [])
    (takes : ∀ caller pri pc g', r ≠ .call caller (.take pri pc) g') :
    r.All (Settled fun _ g => usesAllocated g.log = true) rest := by
  cases r with
  | next act' g' =>
    refine settled_honest honest fun pri pc under same => ?_
    obtain ⟨rfl, -⟩ := List.cons.inj same
    rcases follows with callee | ⟨-, ready⟩
    · cases act <;> cases callee
      cases other
    · cases ready
  | call caller callee g' =>
    refine settled_honest honest fun pri pc under same => ?_
    obtain ⟨rfl, -⟩ := List.cons.inj same
    exact takes _ _ _ _ rfl
  | ret v g' =>
    refine settled_honest honest fun pri pc under same => ?_
    have caller := orderly.caller v
    rw [same] at caller
    cases caller
  | stop why => trivial
  | stuck => trivial

/-- `take` returns the head of a queue, which is a process with its record. -/
theorem exec_honest_settled (other : queueing (act :: rest) = false) (orderly : Orderly (act :: rest))
    (holds : Holds (act :: rest) g) (inv : RecordsInv (act :: rest) g) :
    (exec act g).All (Settled fun _ g => usesAllocated g.log = true) rest := by
  have honest := exec_honest other holds inv
  by_cases chosen : ∃ base highest, act = .select base (.chosen highest)
  · obtain ⟨base, highest, rfl⟩ := chosen
    simp only [exec, execSelect]
    split
    · refine settled_honest inv.honest fun pri pc under same => ?_
      have caller := orderly.caller .unit
      rw [same] at caller
      cases caller
    · simp only [Result.all_call, Settled, Globals.takeFrom, Globals.takeHead_eq]
      cases head : (g.readyQ highest).head with
      | none =>
        simp only [Globals.enter_readyQ, head]
        exact inv.honest
      | some p =>
        have known := (holds.head highest p head).1
        simp only [initialised, Bool.and_eq_true] at known
        simp only [Globals.enter_readyQ, head]
        exact Bool.and_eq_true_iff.mpr ⟨known.1, inv.honest⟩
  · exact honest.all orderly other (exec_follows act g) fun caller pri pc g' calls =>
      chosen (caller_takes calls)

/-- Application code uses no record. -/
theorem execUser_honest {op : Op} (honest : usesAllocated g.log = true) :
    (execUser op act g).honest := by
  unfold execUser
  split
  · split
    · cases op <;> simp only [userRtc] <;> (repeat' split) <;> trivial
    · trivial
  · cases op <;> simp only [userMain, callSchedule] <;> (repeat' split) <;> trivial
  · trivial

/-- A process that is made ready has its record. -/
theorem ReferencesInv.readies {label : Label} {stack : List Act} (inv : ReferencesInv stack g) :
    readiesLive label ⟨stack, g, none⟩ = true := by
  unfold readiesLive
  split
  · rename_i q rest same
    obtain rfl : stack = .ready q .test :: rest := same
    exact inv q (Or.inr ⟨_, List.mem_cons_self, rfl⟩)
  · rfl

/-- A process whose record a step releases is not referred to. -/
theorem ReleasesUnreferenced.spared {q : Addr}
    (unreferenced : ReleasesUnreferenced .run ⟨act :: rest, g, none⟩)
    (release : act.action g = .release q) :
    ¬ Refers (act :: rest) g q ∧ codeOf (act :: rest) = none := by
  cases act with
  | schedule base p pc =>
    cases pc with
    | finish =>
      simp only [Act.action] at release
      split at release
      · rename_i done
        obtain rfl : p = q := by simpa using release
        exact ⟨unreferenced done, rfl⟩
      · cases release
      · cases release
    | dispatch state => cases state <;> cases release
    | _ => cases release
  | select base pc =>
    cases pc with
    | chosen highest =>
      simp only [Act.action] at release
      split at release <;> cases release
    | _ => cases release
  | main pc => cases pc <;> cases release
  | start args pc => cases pc <;> cases release
  | ready r pc => cases pc <;> cases release
  | _ => cases release

/-- Every step of the running code keeps the invariant. -/
theorem exec_records (keeps : KeepsRecords .run ⟨act :: rest, g, none⟩)
    (other : queueing (act :: rest) = false) (ranks : Ranks (act :: rest) g)
    (inv : RecordsInv (act :: rest) g) : (exec act g).All (Settled RecordsInv) rest := by
  have fewer := Fewer.all (ranks.orderly.stacked.follow (exec_follows act g)) (exec_keepsTimeouts act)
    fun q refers => exec_refers ranks.coherent keeps.arms other refers
  have known := ranks.exec_initialised other inv.references.readies keeps.unqueued
  have honest := exec_honest_settled other ranks.orderly ranks.holds inv
  refine ((fewer.and known).and honest).imp fun stack' g' all =>
    ((all.1.1.and all.1.2).and all.2).imp fun stack' g' after => ⟨fun q refers => ?_, after.2⟩
  obtain ⟨⟨fewer, known⟩, -⟩ := after
  have before : initialised (act :: rest) g q = true := by
    rcases fewer q refers with old | executing
    · exact inv.references q old
    · exact ranks.executing executing
  refine known q before fun release => ?_
  obtain ⟨unreferenced, idle⟩ := keeps.unreferenced.spared release
  rcases fewer q refers with old | executing
  · exact unreferenced old
  · rw [idle] at executing
    cases executing

/-- So does every call of application code. -/
theorem execUser_records {op : Op} (ranks : Ranks (act :: rest) g)
    (other : queueing (act :: rest) = false) (inv : RecordsInv (act :: rest) g) :
    (execUser op act g).All (Settled RecordsInv) rest := by
  have fewer : (execUser op act g).All (Settled (Fewer (act :: rest) g)) rest :=
    execUser_fewer ranks.orderly ranks.coherent
  have known := @Ranks.execUser_initialised act rest g op ranks
  have checks : (execUser op act g).honest := execUser_honest inv.honest
  have honest := checks.all ranks.orderly other
    (execUser_follows op act g) fun caller pri pc g' calls => by
      have follows := execUser_follows op act g
      rw [calls] at follows
      obtain ⟨same, admits, -⟩ := follows
      obtain ⟨base, under, frame⟩ := @Admitted.caller_of_take [caller] admits
      obtain ⟨rfl, -⟩ := List.cons.inj frame
      cases act <;> cases same <;> cases calls
  refine ((fewer.and known).and honest).imp fun stack' g' all =>
    ((all.1.1.and all.1.2).and all.2).imp fun stack' g' after => ⟨fun q refers => ?_, after.2⟩
  obtain ⟨⟨fewer, known⟩, -⟩ := after
  rcases fewer q refers with old | executing
  · exact known q (inv.references q old)
  · exact known q (ranks.executing executing)

/-- An interrupt refers to nothing. -/
theorem RecordsInv.interrupt {stack : List Act} (inv : RecordsInv stack g) (intr : Nat) :
    RecordsInv (.signal intr g.blocked .enter :: stack) g.disable := by
  refine ⟨?_, inv.honest⟩
  rintro q (refers | ⟨a, mem, partner⟩)
  · exact inv.references q (Or.inl refers)
  · rcases List.mem_cons.mp mem with rfl | inner
    · cases partner
    · exact inv.references q (Or.inr ⟨a, inner, partner⟩)

/-- In runs under the conditions only records in use are referred to and used, and processes
preempt each other in order. -/
theorem records_kept : Kept KeepsRecords (fun stack g =>
    (Ranked stack g ∧ Settled PreemptionInv stack g) ∧ Settled RecordsInv stack g) := by
  refine Kept.mutual (preemption_kept.mono fun label s known => ?_) (Kept.settled ?_ ?_ ?_ ?_ ?_)
  · obtain ⟨keeps, settled⟩ := known
    refine ⟨keeps.guarded, keeps.starts, ?_, keeps.unqueued⟩
    by_cases other : queueing s.stack = false
    · exact ((settled_of_not_queueing other).mp settled).references.readies
    · unfold readiesLive
      split
      · rename_i q rest same
        rw [same] at other
        exact absurd rfl other
      · rfl
  · exact fun label s known => ⟨undisturbed_of_guarded known.1.guarded, known.2.1.orderly.stacked⟩
  · exact fun act rest g other known inv => exec_records known.1 other (known.2.1.ranks other) inv
  · intro op act rest g known inv
    by_cases other : queueing (act :: rest) = false
    · exact execUser_records (known.2.1.ranks other) other inv
    · cases act with
      | take pri pc => trivial
      | append p pc => trivial
      | _ => exact absurd rfl other
  · exact fun intr stack g _ _ _ inv => inv.interrupt intr
  · exact fun t stack g inv => ⟨fun q refers => inv.references q refers, inv.honest⟩

end Records

/-! ## The result -/

end Microcsp
