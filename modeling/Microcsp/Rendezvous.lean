import Microcsp.Standing

/-!
# The rendezvous

The invariant of runs without interrupts: every process stands in the channels as its state says,
but for the one that is in the middle of its ALT and the one that is about to be made ready. It
rests on the point-to-point use of the channels, and on `disable_alt` not returning a sender that it
has not served.
-/

open Library

namespace Microcsp

/-! ## Conditions -/

/-- The ALT that is about to be enabled uses the channels as they are wired. -/
def pointToPoint (w : Wiring) (label : Label) (s : State) : Bool :=
  match label, s.stack with
  | .run, .enableAlt p .enter :: _ =>
    (List.range (s.g.proc p).alt.nrGuards).all fun i =>
      match s.g.guard p i with
      | ⟨.chanin c _ _, true⟩ => decide (p = w.reader c)
      | ⟨.chanout c _, true⟩ => decide (p = w.writer c)
      | _ => true
  | _, _ => true

/-- When `disable_alt` has visited the guards and has a partner, an input is selected. -/
def servesPartner (label : Label) (s : State) : Bool :=
  match label, s.stack with
  | .run, .disableAlt p (.loop _ 0 (some _)) :: _ =>
    (s.g.guard p (s.g.proc p).alt.index).kind.isChanin
  | _, _ => true

/-- No interrupt is delivered. -/
def withoutInterrupts (label : Label) (_ : State) : Bool :=
  match label with
  | .interrupt _ => false
  | _ => true

/-! ## The invariant -/

/-- The states of the process at a point of `schedule`, when it is not interrupted. -/
def SchedulePc.states : SchedulePc → List PState
  | .top => [.initial, .quiescent, .waiting, .ready]
  | .dispatch .waiting => [.waiting, .ready]
  | .dispatch .enabling | .dispatch .done => []
  | .dispatch state => [state]
  | .initial => [.initial, .done]
  | .enabling | .enabled _ _ => [.enabling]
  | .branch .waiting _ => [.waiting, .ready]
  | .branch .ready _ => [.ready]
  | .branch _ _ => []
  | .disabling | .disabled _ => [.ready]
  | .partner _ executes | .readying executes | .execute executes =>
    if executes then [.quiescent] else [.waiting, .ready]
  | .executing => [.quiescent, .done]
  | .finish => [.quiescent, .waiting, .ready, .done]

/-- A process that waits may be made ready at any point where it may wait. -/
theorem SchedulePc.ready_mem_states {pc : SchedulePc} (waits : .waiting ∈ pc.states) :
    .ready ∈ pc.states := by
  revert waits
  cases pc with
  | dispatch state => cases state <;> simp [states]
  | branch state partner => cases state <;> simp [states]
  | partner partner executes => cases executes <;> simp [states]
  | readying executes => cases executes <;> simp [states]
  | execute executes => cases executes <;> simp [states]
  | _ => simp [states]

/-- The process that an activation has in the middle of its ALT. -/
def Act.inAlt : Act → Option Addr
  | .enableAlt p _ | .disableAlt p _ => some p
  | .schedule _ p (.enabled _ _) | .schedule _ p (.disabled _) => some p
  | _ => none

/-- The processes that an activation will have made ready. -/
def Act.targets : Act → List Addr
  | .enableAlt _ (.loop _ _ partner) | .enableAlt _ (.insert _ _ _ partner) => partner.toList
  | .enableAlt _ (.done _ _ found partner) | .schedule _ _ (.enabled found partner) =>
    if found then [] else partner.toList
  | .schedule _ _ (.branch state partner) => if state = .ready then [] else partner.toList
  | .schedule _ _ (.disabled partner) | .schedule _ _ (.partner partner _) => partner.toList
  | .ready q .test => [q]
  | _ => []

/-- The processes that need not stand as their states say. -/
def exempt : List Act → List Addr
  | act :: _ => act.inAlt.toList ++ act.targets
  | [] => []

/-- A partner comes from an output among the guards. -/
def OfOutput (alt : Alternation) (guards : List Nat) (partner : Option Addr) : Prop :=
  partner = none ∨ ∃ i ∈ guards, ∃ c, Sends alt c i

/-- What `enable_alt` has done when it is at a point. -/
def EnableOk (w : Wiring) (waiting : ChanId → Option Addr) (p : Addr) (alt : Alternation) :
    EnablePc → Prop
  | .enter => Absent waiting p
  | .loop i k partner => Wired w p alt ∧ k ≤ alt.nrGuards ∧ (0 < alt.nrGuards → i < alt.nrGuards) ∧
      Listed waiting p alt (downFrom alt.nrGuards (minus1Mod i alt.nrGuards) k) ∧
      OfOutput alt (downFrom alt.nrGuards (minus1Mod i alt.nrGuards) k) partner
  | .insert i k _ partner => Wired w p alt ∧ k < alt.nrGuards ∧ i < alt.nrGuards ∧
      Listed waiting p alt (downFrom alt.nrGuards i (k + 1)) ∧
      OfOutput alt (downFrom alt.nrGuards i (k + 1)) partner
  | .done i k ready _ => Wired w p alt ∧ k < alt.nrGuards ∧ i < alt.nrGuards ∧
      if ready then
        (∀ c, waiting c = some p → ∃ j ∈ downFrom alt.nrGuards i (k + 1), Listens alt c j) ∧
          ((∃ c v, Listens alt c i ∧ waiting c = some v ∧ v ≠ p) ∨
            (alt.guards i).active = true ∧ (alt.guards i).kind.isChanin = false)
      else k + 1 = alt.nrGuards ∧ Listed waiting p alt (downFrom alt.nrGuards i (k + 1))

/-- What `disable_alt` knows of the guard that it will select: it is to be found still, or it is
one that transfers nothing, or it is an input with the partner. -/
def Choice (waiting : ChanId → Option Addr) (p : Addr) (alt : Alternation) (left : List Nat)
    (partner : Option Addr) : Prop :=
  partner = none ∧ Called waiting p alt left ∨ Harmless alt ∨
    ∃ c v, Listens alt c alt.index ∧ partner = some v ∧ waiting c = some v ∧ v ≠ p

/-- What `disable_alt` has done when it is at a point. -/
def DisableOk (w : Wiring) (waiting : ChanId → Option Addr) (p : Addr) (alt : Alternation) :
    DisablePc → Prop
  | .enter => Released w waiting p alt
  | .loop i left partner => Wired w p alt ∧ alt.index < alt.nrGuards ∧ i < alt.nrGuards ∧
      (∀ c, waiting c = some p → ∃ j ∈ downFrom alt.nrGuards i left, Listens alt c j) ∧
      Choice waiting p alt (downFrom alt.nrGuards i left) partner
  | .copy c _ _ partner | .clear c partner => Absent waiting p ∧ p = w.reader c ∧
      ∃ v, partner = some v ∧ waiting c = some v ∧ v ≠ p

/-- The target of an output in progress waits in its channels, but for those that the writer has come
to. -/
def Overtaken (waiting : ChanId → Option Addr) (p q : Addr) (proc : Process) : Prop :=
  proc.state = .waiting → ∀ i < proc.alt.nrGuards, ∀ c, Listens proc.alt c i ∨ Sends proc.alt c i →
    waiting c = some q ∨ waiting c = some p

/-- What the innermost activation has done. -/
def Act.Focus (w : Wiring) (g : Globals) : Act → Prop
  | .enableAlt p pc => EnableOk w g.waiting p (g.proc p).alt pc ∧
      ∀ t ∈ (Act.enableAlt p pc).targets, Overtaken g.waiting p t (g.proc t)
  | .disableAlt p pc => DisableOk w g.waiting p (g.proc p).alt pc
  | .schedule _ p (.enabled found _) =>
    if found then Released w g.waiting p (g.proc p).alt else WaitsOn w g.waiting p (g.proc p).alt
  | .schedule _ p (.disabled partner) => Absent g.waiting p ∧ partner ≠ some p
  | _ => True

/-- The process is about to be made ready, and stands as if it were. -/
def Pending (w : Wiring) (g : Globals) (t : Addr) : Prop :=
  ((g.proc t).state = .waiting ∨ (g.proc t).state = .ready) ∧
    Released w g.waiting t (g.proc t).alt

/-- A process in progress is in a state that `schedule` knows of. -/
def Act.Fits (g : Globals) : Act → Prop
  | .schedule _ p pc => (g.proc p).state ∈ pc.states
  | .select _ (.took (some p)) => (g.proc p).state ∈ [PState.initial, .waiting, .ready]
  | _ => True

/-- The invariant. -/
structure Rendezvous (w : Wiring) (stack : List Act) (g : Globals) : Prop where
  /-- The number of guards fits in eight bits. -/
  small : ∀ q, initialised stack g q = true → (g.proc q).alt.nrGuards ≤ 255
  /-- The processes in channels have their records. -/
  known : ∀ c q, g.waiting c = some q → initialised stack g q = true
  /-- The processes stand as their states say. -/
  stands : ∀ q, initialised stack g q = true → q ∉ exempt stack → Stands w g.waiting q (g.proc q)
  /-- The processes in progress are in states that `schedule` knows of. -/
  phase : ∀ act ∈ stack, act.Fits g
  /-- The others can be taken, or wait. -/
  idle : ∀ q, initialised stack g q = true → q ∉ stack.filterMap Act.holds →
    (g.proc q).state ∈ [PState.initial, .waiting, .ready]
  /-- The innermost activation has done its part. -/
  focus : ∀ act ∈ stack.head?, act.Focus w g
  /-- Its targets have their records, and stand as if they were ready. -/
  targets : ∀ act ∈ stack.head?, ∀ t ∈ act.targets, initialised stack g t = true ∧ Pending w g t

/-! ## Steps in general -/

section General

variable {w : Wiring} {stack stack' rest : List Act} {act act' callee : Act} {g g' : Globals}

/-- An activation whose process stays in its state, or is made ready where it may wait, fits. -/
theorem Act.Fits.keep (fits : act.Fits g) (same : ∀ p, act.holds = some p →
    (g'.proc p).state = (g.proc p).state ∨ ((g.proc p).state = .waiting ∨ (g.proc p).state = .ready) ∧
      (g'.proc p).state = .ready) : act.Fits g' := by
  cases act with
  | schedule base p pc =>
    simp only [Act.Fits] at fits ⊢
    rcases same p rfl with state | ⟨was | was, now⟩
    · rw [state]
      exact fits
    · rw [was] at fits
      rw [now]
      exact SchedulePc.ready_mem_states fits
    · rw [was] at fits
      rw [now]
      exact fits
  | select base pc =>
    cases pc with
    | took r =>
      cases r with
      | none => trivial
      | some p =>
        simp only [Act.Fits] at fits ⊢
        rcases same p rfl with state | ⟨-, now⟩
        · rw [state]
          exact fits
        · simp [now]
    | _ => trivial
  | _ => trivial

/-- A step that touches some processes, and creates and releases none. -/
theorem Rendezvous.step (inv : Rendezvous w stack g) (touched : Addr → Prop)
    (life : ∀ q, initialised stack' g' q = initialised stack g q)
    (small : ∀ q, touched q → (g'.proc q).alt.nrGuards ≤ 255)
    (known : ∀ c q, g'.waiting c = some q → initialised stack g q = true)
    (proc : ∀ q, ¬ touched q → g'.proc q = g.proc q)
    (own : ∀ q, ¬ touched q → ∀ c, g'.waiting c = some q ↔ g.waiting c = some q)
    (sender : ∀ q, ¬ touched q → ∀ c v, q = w.reader c → g.waiting c = some v → v ≠ q →
      ∃ v', g'.waiting c = some v' ∧ v' ≠ q)
    (left : ∀ q, ¬ touched q → q ∉ exempt stack' → q ∉ exempt stack)
    (stands : ∀ q, initialised stack g q = true → touched q → q ∉ exempt stack' →
      Stands w g'.waiting q (g'.proc q))
    (phase : ∀ act ∈ stack', act.Fits g')
    (idle : ∀ q, q ∉ stack'.filterMap Act.holds → ¬ touched q ∧ q ∉ stack.filterMap Act.holds ∨
      (g'.proc q).state ∈ [PState.initial, .waiting, .ready])
    (focus : ∀ act ∈ stack'.head?, act.Focus w g')
    (targets : ∀ act ∈ stack'.head?, ∀ t ∈ act.targets, initialised stack g t = true ∧
      Pending w g' t) : Rendezvous w stack' g' where
  small q alive := by
    rw [life] at alive
    by_cases mine : touched q
    · exact small q mine
    · rw [proc q mine]
      exact inv.small q alive
  known c q there := by
    rw [life]
    exact known c q there
  stands q alive free := by
    rw [life] at alive
    by_cases mine : touched q
    · exact stands q alive mine free
    · rw [proc q mine]
      exact (inv.stands q alive (left q mine free)).congr (own q mine) (sender q mine)
  phase := phase
  idle q alive free := by
    rw [life] at alive
    rcases idle q free with ⟨mine, before⟩ | state
    · rw [proc q mine]
      exact inv.idle q alive before
    · exact state
  focus := focus
  targets act top t mem := by
    rw [life]
    exact targets act top t mem

/-- A step that leaves the processes and the channels alone. -/
theorem Rendezvous.silent (inv : Rendezvous w stack g) (proc : g'.proc = g.proc)
    (waiting : g'.waiting = g.waiting)
    (life : ∀ q, initialised stack' g' q = initialised stack g q)
    (holds : ∀ q, q ∈ stack.filterMap Act.holds → q ∈ stack'.filterMap Act.holds ∨
      (g.proc q).state = .waiting)
    (left : ∀ q, initialised stack g q = true → q ∈ exempt stack → q ∉ exempt stack' →
      Stands w g.waiting q (g.proc q))
    (phase : ∀ act ∈ stack', act.Fits g) (focus : ∀ act ∈ stack'.head?, act.Focus w g')
    (targets : ∀ act ∈ stack'.head?, ∀ t ∈ act.targets, initialised stack g t = true ∧
      Pending w g t) : Rendezvous w stack' g' := by
  constructor
  · intro q alive
    rw [life] at alive
    rw [proc]
    exact inv.small q alive
  · intro c q there
    rw [waiting] at there
    rw [life]
    exact inv.known c q there
  · intro q alive free
    rw [life] at alive
    rw [proc, waiting]
    by_cases before : q ∈ exempt stack
    · exact left q alive before free
    · exact inv.stands q alive before
  · intro act mem
    exact (phase act mem).keep fun p _ => Or.inl (by rw [proc])
  · intro q alive free
    rw [life] at alive
    rw [proc]
    by_cases before : q ∈ stack.filterMap Act.holds
    · have state := (holds q before).resolve_left free
      simp [state]
    · exact inv.idle q alive before
  · exact focus
  · intro act top t mem
    rw [life, Pending, proc, waiting]
    exact targets act top t mem

/-- A silent step to another point of the same activation. -/
theorem Rendezvous.next (inv : Rendezvous w (act :: rest) g) (proc : g'.proc = g.proc)
    (waiting : g'.waiting = g.waiting) (log : allocated g'.log = allocated g.log)
    (reserves : act'.reserves = act.reserves) (holds : act'.holds = act.holds)
    (left : ∀ q, initialised (act :: rest) g q = true → q ∈ exempt (act :: rest) →
      q ∉ exempt (act' :: rest) → Stands w g.waiting q (g.proc q))
    (fits : act'.Fits g) (focus : act'.Focus w g')
    (targets : ∀ t ∈ act'.targets, initialised (act :: rest) g t = true ∧ Pending w g t) :
    Rendezvous w (act' :: rest) g' := by
  refine inv.silent proc waiting (initialised_congr log ?_) (fun q mem => Or.inl ?_) left ?_ ?_ ?_
  · simp only [List.filterMap_cons, reserves]
  · simpa only [List.filterMap_cons, holds] using mem
  · exact List.forall_mem_cons.mpr ⟨fits, fun a mem => inv.phase a (List.mem_cons_of_mem _ mem)⟩
  · simpa using focus
  · simpa using targets

/-- A silent call. -/
theorem Rendezvous.call (inv : Rendezvous w (act :: rest) g) (proc : g'.proc = g.proc)
    (waiting : g'.waiting = g.waiting) (log : allocated g'.log = allocated g.log)
    (reserves : act'.reserves = act.reserves) (holds : act'.holds = act.holds)
    (none : callee.reserves = none) (idle : callee.holds = Option.none)
    (left : ∀ q, initialised (act :: rest) g q = true → q ∈ exempt (act :: rest) →
      q ∉ exempt (callee :: act' :: rest) → Stands w g.waiting q (g.proc q))
    (fits : act'.Fits g) (atop : callee.Fits g) (focus : callee.Focus w g')
    (targets : ∀ t ∈ callee.targets, initialised (act :: rest) g t = true ∧ Pending w g t) :
    Rendezvous w (callee :: act' :: rest) g' := by
  refine inv.silent proc waiting (initialised_congr log ?_) (fun q mem => Or.inl ?_) left ?_ ?_ ?_
  · simp only [List.filterMap_cons, reserves, none]
  · simpa only [List.filterMap_cons, holds, idle] using mem
  · exact List.forall_mem_cons.mpr ⟨atop, List.forall_mem_cons.mpr
      ⟨fits, fun a mem => inv.phase a (List.mem_cons_of_mem _ mem)⟩⟩
  · simpa using focus
  · simpa using targets

/-- The innermost activation has no part in an ALT. -/
def OutsideAlt : List Act → Prop
  | act :: _ => act.inAlt = none ∧ act.targets = [] ∧ ∀ w g, act.Focus w g
  | [] => True

/-- A caller is at a point where it has none. -/
theorem Admitted.outsideAlt {callee : Callee} (atop : Admitted callee stack)
    (calls : callee ≠ .signal) : OutsideAlt stack := by
  cases stack with
  | nil => trivial
  | cons caller rest =>
    simp only [admitted_cons, Act.admits] at atop
    split at atop <;> first | exact ⟨rfl, rfl, fun _ _ => trivial⟩ | contradiction

/-- A silent return to a caller. -/
theorem Rendezvous.ret (inv : Rendezvous w (act :: rest) g) (proc : g'.proc = g.proc)
    (waiting : g'.waiting = g.waiting) (log : allocated g'.log = allocated g.log)
    (reserves : act.reserves = none) (holds : act.holds = none)
    (left : ∀ q, initialised (act :: rest) g q = true → q ∈ exempt (act :: rest) →
      Stands w g.waiting q (g.proc q))
    (outside : OutsideAlt rest) : Rendezvous w rest g' := by
  refine inv.silent proc waiting (initialised_congr log ?_) (fun q mem => Or.inl ?_)
    (fun q alive mem _ => left q alive mem) ?_ ?_ ?_
  · simp only [List.filterMap_cons, reserves]
  · simpa only [List.filterMap_cons, holds] using mem
  · exact fun a mem => inv.phase a (List.mem_cons_of_mem _ mem)
  · intro caller top
    cases rest with
    | nil => cases top
    | cons a under =>
      cases top
      exact outside.2.2 w g'
  · intro caller top t mem
    cases rest with
    | nil => cases top
    | cons a under =>
      cases top
      rw [outside.2.1] at mem
      cases mem

end General

/-! ## The scheduler -/

section Scheduler

variable {w : Wiring} {rest : List Act} {g : Globals}

/-- Nobody leaves the exempt processes where there are none. -/
theorem exempt_none {P : Addr → Prop} {act : Act} {stack : List Act} (none : exempt stack = []) :
    ∀ q, initialised (act :: rest) g q = true → q ∈ exempt stack → P q := by
  intro q _ mem
  rw [none] at mem
  cases mem

theorem execSelect_rendezvous {base : Int} {pc : SelectPc}
    (orderly : Orderly (.select base pc :: rest)) (holds : Holds (.select base pc :: rest) g)
    (free : ∀ highest, pc = .chosen highest → base < highest → ∀ p,
      (g.readyQ highest).head = some p → p ∉ rest.filterMap Act.holds)
    (inv : Rendezvous w (.select base pc :: rest) g) :
    (execSelect base pc g).All (Settled (Rendezvous w)) rest := by
  have outside : OutsideAlt rest := orderly.stacked.1.outsideAlt (by simp [Act.callee])
  cases pc with
  | top =>
    exact inv.next rfl rfl rfl rfl rfl (by simp [exempt, Act.inAlt, Act.targets]) trivial trivial
      (by simp [Act.targets])
  | chosen highest =>
    simp only [execSelect]
    split
    · rw [Result.all_ret, settled_of_not_queueing (orderly.caller _), returnTo_unit]
      exact inv.ret rfl rfl rfl rfl rfl (exempt_none rfl) outside
    · rename_i above
      simp only [Result.all_call, Settled, Globals.takeFrom, Globals.takeHead_eq]
      cases head : (g.readyQ highest).head with
      | none =>
        simp only [Globals.enter_readyQ, head]
        exact inv.next rfl rfl rfl rfl rfl (by simp [exempt, Act.inAlt, Act.targets]) trivial
          trivial (by simp [Act.targets, Act.resume])
      | some p =>
        simp only [Globals.enter_readyQ, head]
        have idle := free highest rfl (by omega) p head
        have alive := (holds.head highest p head).1
        refine inv.silent rfl rfl (initialised_congr rfl rfl) (fun q mem => Or.inl ?_)
          (fun q _ mem => absurd mem List.not_mem_nil) ?_ ?_ ?_
        · exact List.mem_cons_of_mem _ mem
        · refine List.forall_mem_cons.mpr ⟨?_, fun a mem => inv.phase a (List.mem_cons_of_mem _ mem)⟩
          exact inv.idle p alive idle
        · rintro _ ⟨⟩
          trivial
        · rintro _ ⟨⟩ t mem
          cases mem
  | taking => trivial
  | took r =>
    cases r with
    | none => trivial
    | some p =>
      have state : (g.proc p).state ∈ [PState.initial, .waiting, .ready] :=
        inv.phase _ List.mem_cons_self
      refine inv.next rfl rfl rfl rfl rfl (by simp [exempt, Act.inAlt, Act.targets]) ?_ trivial
        (by simp [Act.targets])
      simp only [Act.Fits, SchedulePc.states]
      simp only [List.mem_cons, List.not_mem_nil, or_false] at state ⊢
      rcases state with state | state | state <;> simp [state]

/-- A process in progress that is in no other activation. -/
theorem Holds.outer {act : Act} {p q : Addr} (holds : Holds (act :: rest) g) (own : act.holds = some p)
    (mem : q ∈ rest.filterMap Act.holds) : q ≠ p := by
  have single := holds.single
  rw [List.filterMap_cons, own] at single
  rintro rfl
  exact (List.nodup_cons.mp single).1 mem

/-- The state of the process of `schedule` changes, and nothing else. -/
theorem Rendezvous.setState {base : Int} {p : Addr} {pc pc' : SchedulePc} {state : PState}
    {stack' : List Act} {g' : Globals} (holds : Holds (.schedule base p pc :: rest) g)
    (inv : Rendezvous w (.schedule base p pc :: rest) g) (proc : g'.proc = (g.setState p state).proc)
    (waiting : g'.waiting = g.waiting) (log : allocated g'.log = allocated g.log)
    (top : stack' = .schedule base p pc' :: rest ∨
      stack' = .enableAlt p .enter :: .schedule base p pc' :: rest)
    (left : ∀ q, q ≠ p → q ∉ exempt stack' → q ∉ exempt (.schedule base p pc :: rest))
    (stands : p ∉ exempt stack' → Stands w g.waiting p ((g.setState p state).proc p))
    (fits : state ∈ pc'.states)
    (focus : ∀ act ∈ stack'.head?, act.Focus w g')
    (targets : ∀ act ∈ stack'.head?, ∀ t ∈ act.targets,
      t ≠ p ∧ initialised (.schedule base p pc :: rest) g t = true ∧ Pending w g t) :
    Rendezvous w stack' g' := by
  have others : ∀ q, q ≠ p → g'.proc q = g.proc q := fun q other => by
    rw [proc, Globals.setState_of_ne g state other]
  have alive : initialised (.schedule base p pc :: rest) g p = true :=
    holds.held p (by simp [Act.holds])
  have held : stack'.filterMap Act.holds = p :: rest.filterMap Act.holds := by
    rcases top with rfl | rfl <;> rfl
  have life : stack'.filterMap Act.reserves = rest.filterMap Act.reserves := by
    rcases top with rfl | rfl <;> rfl
  refine inv.step (· = p) (initialised_congr log life) ?_ ?_ others ?_ ?_ left ?_ ?_ ?_ focus ?_
  · rintro q rfl
    rw [proc, Globals.setState_alt]
    exact inv.small q alive
  · intro c q there
    rw [waiting] at there
    exact inv.known c q there
  · intro q _ c
    rw [waiting]
  · intro q _ c v _ there other
    rw [waiting]
    exact ⟨v, there, other⟩
  · rintro q - rfl free
    rw [waiting, proc]
    exact stands free
  · have inner : ∀ a ∈ rest, a.Fits g' := by
      intro a mem
      refine (inv.phase a (List.mem_cons_of_mem _ mem)).keep fun q own => Or.inl ?_
      have other : q ≠ p := holds.outer rfl (List.mem_filterMap.mpr ⟨a, mem, own⟩)
      rw [others q other]
    have here : (Act.schedule base p pc').Fits g' := by
      rw [Act.Fits, proc, Globals.setState_state_self]
      exact fits
    rcases top with rfl | rfl
    · exact List.forall_mem_cons.mpr ⟨here, inner⟩
    · exact List.forall_mem_cons.mpr ⟨trivial, List.forall_mem_cons.mpr ⟨here, inner⟩⟩
  · intro q free
    rw [held, List.mem_cons, not_or] at free
    refine Or.inl ⟨free.1, fun mem => ?_⟩
    rcases List.mem_cons.mp (mem : q ∈ p :: rest.filterMap Act.holds) with same | inner
    · exact free.1 same
    · exact free.2 inner
  · intro act first t mem
    obtain ⟨other, known, pending⟩ := targets act first t mem
    refine ⟨known, ?_⟩
    rw [Pending, waiting, others t other]
    exact pending

/-- `disable_alt` is called for a process that is ready. -/
theorem Rendezvous.callDisableAlt {base : Int} {p : Addr} {pc : SchedulePc}
    (holds : Holds (.schedule base p pc :: rest) g)
    (inv : Rendezvous w (.schedule base p pc :: rest) g)
    (none : exempt (.schedule base p pc :: rest) = []) (ready : (g.proc p).state = .ready) :
    (callDisableAlt base p g).All (Settled (Rendezvous w)) rest := by
  have alive : initialised (.schedule base p pc :: rest) g p = true :=
    holds.held p (by simp [Act.holds])
  have stands := inv.stands p alive (by rw [none]; exact List.not_mem_nil)
  refine inv.call rfl rfl rfl rfl rfl rfl rfl ?_ ?_ trivial (stands.ready ready)
    (by simp [Act.targets])
  · intro q _ mem
    rw [none] at mem
    cases mem
  · simp [Act.Fits, SchedulePc.states, ready]

/-- A process that has terminated is in no channel, and gives up its record. -/
theorem Rendezvous.release {base : Int} {p : Addr} {mem : Memory}
    (holds : Holds (.schedule base p .finish :: rest) g)
    (inv : Rendezvous w (.schedule base p .finish :: rest) g) (done : (g.proc p).state = .done) :
    Rendezvous w (.select base .top :: rest)
      ({ g.disable with mem := mem }.enable.emit (.release p)) := by
  have alive : initialised (.schedule base p .finish :: rest) g p = true :=
    holds.held p (by simp [Act.holds])
  have absent : Absent g.waiting p :=
    (inv.stands p alive List.not_mem_nil).absent (Or.inr (Or.inr done))
  have life : ∀ q, initialised (.select base .top :: rest)
      ({ g.disable with mem := mem }.enable.emit (.release p)) q = true ↔
        initialised (.schedule base p .finish :: rest) g q = true ∧ q ≠ p := by
    intro q
    have reserves : (Act.select base .top :: rest).filterMap Act.reserves =
        (Act.schedule base p .finish :: rest).filterMap Act.reserves := rfl
    by_cases same : p = q <;> simp [initialised, allocated, reserves, same, Ne.symm]
  constructor
  · exact fun q known => inv.small q ((life q).mp known).1
  · intro c q there
    refine (life q).mpr ⟨inv.known c q there, ?_⟩
    rintro rfl
    exact absent c there
  · exact fun q known _ => inv.stands q ((life q).mp known).1 List.not_mem_nil
  · exact List.forall_mem_cons.mpr ⟨trivial, fun a mem => inv.phase a (List.mem_cons_of_mem _ mem)⟩
  · intro q known free
    obtain ⟨before, other⟩ := (life q).mp known
    refine inv.idle q before fun mem => ?_
    rcases List.mem_cons.mp (mem : q ∈ p :: rest.filterMap Act.holds) with same | inside
    · exact other same
    · exact free inside
  · rintro _ ⟨⟩
    trivial
  · rintro _ ⟨⟩ t mem
    cases mem

theorem execSchedule_rendezvous {base : Int} {p : Addr} {pc : SchedulePc}
    (holds : Holds (.schedule base p pc :: rest) g)
    (inv : Rendezvous w (.schedule base p pc :: rest) g) :
    (execSchedule base p pc g).All (Settled (Rendezvous w)) rest := by
  have alive : initialised (.schedule base p pc :: rest) g p = true :=
    holds.held p (by simp [Act.holds])
  have fits : (g.proc p).state ∈ pc.states := inv.phase _ List.mem_cons_self
  cases pc with
  | top =>
    refine inv.next rfl rfl rfl rfl rfl (fun q _ mem => absurd mem List.not_mem_nil) ?_ trivial
      (by simp [Act.targets])
    simp only [Act.Fits, SchedulePc.states, List.mem_cons, List.not_mem_nil, or_false] at fits ⊢
    rcases fits with state | state | state | state <;> simp [state]
  | dispatch state =>
    cases state with
    | initial =>
      refine inv.call rfl rfl rfl rfl rfl rfl rfl (fun q _ mem => absurd mem List.not_mem_nil) ?_
        trivial trivial (by simp [Act.targets])
      have state : (g.proc p).state = .initial := by simpa [SchedulePc.states] using fits
      simp [Act.Fits, SchedulePc.states, state]
    | quiescent =>
      have state : (g.proc p).state = .quiescent := by simpa [SchedulePc.states] using fits
      have stands := inv.stands p alive List.not_mem_nil
      refine inv.setState holds rfl rfl rfl (Or.inr rfl) (fun q _ _ => List.not_mem_nil)
        (fun free => absurd List.mem_cons_self free) (by simp [SchedulePc.states]) ?_ ?_
      · rintro _ ⟨⟩
        exact ⟨stands.absent (Or.inr (Or.inl state)), by simp [Act.targets]⟩
      · rintro _ ⟨⟩ t mem
        cases mem
    | ready =>
      have state : (g.proc p).state = .ready := by simpa [SchedulePc.states] using fits
      exact inv.callDisableAlt holds rfl state
    | waiting =>
      exact inv.next rfl rfl rfl rfl rfl (fun q _ mem => absurd mem List.not_mem_nil) fits trivial
        (by simp [Act.targets])
    | enabling => cases fits
    | done => cases fits
  | initial =>
    have stands := inv.stands p alive List.not_mem_nil
    have absent : Absent g.waiting p := by
      have states : (g.proc p).state = .initial ∨ (g.proc p).state = .done := by
        simpa [SchedulePc.states] using fits
      exact stands.absent (states.imp_right Or.inr)
    refine inv.setState holds rfl rfl rfl (Or.inl rfl) (fun q _ _ => List.not_mem_nil) (fun _ => ?_)
      (by simp [SchedulePc.states]) ?_ ?_
    · constructor <;> simp [absent]
    · rintro _ ⟨⟩
      trivial
    · rintro _ ⟨⟩ t mem
      cases mem
  | enabling => trivial
  | enabled found partner =>
    have state : (g.proc p).state = .enabling := by simpa [SchedulePc.states] using fits
    have focus := inv.focus _ rfl
    have targets := inv.targets _ rfl
    have after : (g.proc p).state.afterEnabling found = if found then .ready else .waiting := by
      simp [PState.afterEnabling, state]
    have own : partner ≠ some p ∨ found = true := by
      cases found with
      | true => exact Or.inr rfl
      | false =>
        refine Or.inl ?_
        rintro rfl
        obtain ⟨-, waits | ready, -⟩ := targets p (by simp [Act.targets])
        · rw [state] at waits
          cases waits
        · rw [state] at ready
          cases ready
    simp only [execSchedule, after]
    cases found with
    | true =>
      refine inv.setState holds rfl rfl rfl (Or.inl rfl) ?_ (fun _ => ?_)
        (by simp [SchedulePc.states]) ?_ ?_
      · intro q other _
        simp [exempt, Act.inAlt, Act.targets, other]
      · constructor <;> simp
        exact focus
      · rintro _ ⟨⟩
        trivial
      · rintro _ ⟨⟩ t mem
        simp [Act.targets] at mem
    | false =>
      refine inv.setState holds rfl rfl rfl (Or.inl rfl) ?_ (fun _ => ?_)
        (by simp [SchedulePc.states]) ?_ ?_
      · intro q other free
        simpa [exempt, Act.inAlt, Act.targets, other] using free
      · constructor <;> simp
        exact focus
      · rintro _ ⟨⟩
        trivial
      · rintro _ ⟨⟩ t mem
        have target : t ∈ partner.toList := by simpa [Act.targets] using mem
        refine ⟨?_, targets t (by simpa [Act.targets] using target)⟩
        rintro rfl
        exact own.resolve_right (by simp) (by simpa using target)
  | branch state partner =>
    simp only [execSchedule]
    split
    · rename_i ready
      subst ready
      have state : (g.proc p).state = .ready := by simpa [SchedulePc.states] using fits
      exact inv.callDisableAlt holds (by simp [exempt, Act.inAlt, Act.targets]) state
    · rename_i other
      have same : (Act.schedule base p (.branch state partner)).targets =
          (Act.schedule base p (.partner partner false)).targets := by simp [Act.targets, other]
      refine inv.next rfl rfl rfl rfl rfl (fun q _ mem free => absurd ?_ free) ?_ trivial
        fun t mem => inv.targets _ rfl t (by rw [same]; exact mem)
      · simpa only [exempt, same, Act.inAlt] using mem
      · cases state with
        | waiting => exact fits
        | ready => exact absurd rfl other
        | _ => cases fits
  | disabling => trivial
  | disabled partner =>
    obtain ⟨absent, other⟩ := inv.focus _ rfl
    have targets := inv.targets _ rfl
    refine inv.setState holds rfl rfl rfl (Or.inl rfl) ?_ (fun _ => ?_)
      (by simp [SchedulePc.states]) ?_ ?_
    · intro q other free
      simpa [exempt, Act.inAlt, Act.targets, other] using free
    · constructor <;> simp [absent]
    · rintro _ ⟨⟩
      trivial
    · rintro _ ⟨⟩ t mem
      refine ⟨?_, targets t mem⟩
      rintro rfl
      exact other (by simpa [Act.targets] using mem)
  | partner partner executes =>
    cases partner with
    | none =>
      exact inv.next rfl rfl rfl rfl rfl (fun q _ mem => absurd mem List.not_mem_nil) fits trivial
        (by simp [Act.targets])
    | some q =>
      exact inv.call rfl rfl rfl rfl rfl rfl rfl (fun q _ mem free => absurd mem free) fits trivial
        trivial fun t mem => inv.targets _ rfl t mem
  | readying executes =>
    exact inv.next rfl rfl rfl rfl rfl (fun q _ mem => absurd mem List.not_mem_nil) fits trivial
      (by simp [Act.targets])
  | execute executes =>
    cases executes with
    | false =>
      refine inv.next rfl rfl rfl rfl rfl (fun q _ mem => absurd mem List.not_mem_nil) ?_ trivial
        (by simp [Act.targets])
      have states : (g.proc p).state = .waiting ∨ (g.proc p).state = .ready := by
        simpa [SchedulePc.states] using fits
      rcases states with state | state <;> simp [Act.Fits, SchedulePc.states, state]
    | true =>
      refine inv.call rfl rfl rfl rfl rfl rfl rfl (fun q _ mem => absurd mem List.not_mem_nil) ?_
        trivial trivial (by simp [Act.targets])
      have state : (g.proc p).state = .quiescent := by simpa [SchedulePc.states] using fits
      simp [Act.Fits, SchedulePc.states, state]
  | executing =>
    refine inv.next rfl rfl rfl rfl rfl (fun q _ mem => absurd mem List.not_mem_nil) ?_ trivial
      (by simp [Act.targets])
    have states : (g.proc p).state = .quiescent ∨ (g.proc p).state = .done := by
      simpa [SchedulePc.states] using fits
    rcases states with state | state <;> simp [Act.Fits, SchedulePc.states, state]
  | finish =>
    have none : exempt (.schedule base p .finish :: rest) = [] := rfl
    have inner : ∀ a ∈ rest, a.Fits g := fun a mem => inv.phase a (List.mem_cons_of_mem _ mem)
    have held : ∀ q, q ∉ rest.filterMap Act.holds → q ≠ p →
        q ∉ (Act.schedule base p .finish :: rest).filterMap Act.holds := by
      intro q free other mem
      rcases List.mem_cons.mp (mem : q ∈ p :: rest.filterMap Act.holds) with same | inside
      · exact other same
      · exact free inside
    simp only [execSchedule, Globals.disable_proc]
    cases state : (g.proc p).state with
    | done => exact inv.release holds state
    | waiting =>
      refine inv.silent rfl rfl (initialised_congr rfl rfl) (fun q mem => ?_)
        (fun q _ mem => absurd mem List.not_mem_nil)
        (List.forall_mem_cons.mpr ⟨trivial, inner⟩) ?_ ?_
      · rcases List.mem_cons.mp (mem : q ∈ p :: rest.filterMap Act.holds) with rfl | inside
        · exact Or.inr state
        · exact Or.inl inside
      · rintro _ ⟨⟩
        trivial
      · rintro _ ⟨⟩ t mem
        cases mem
    | initial | enabling => simp [SchedulePc.states, state] at fits
    | quiescent | ready =>
      refine inv.next rfl rfl rfl rfl rfl (fun q _ mem => absurd mem List.not_mem_nil) ?_ trivial
        (by simp [Act.targets])
      simp [Act.Fits, SchedulePc.states, state]

theorem execReady_rendezvous {q : Addr} {pc : ReadyPc} (orderly : Orderly (.ready q pc :: rest))
    (inv : Rendezvous w (.ready q pc :: rest) g) :
    (execReady q pc g).All (Settled (Rendezvous w)) rest := by
  have outside : OutsideAlt rest := orderly.stacked.1.outsideAlt (by simp [Act.callee])
  cases pc with
  | test =>
    obtain ⟨alive, waits, released⟩ := inv.targets _ rfl q List.mem_cons_self
    have active : (g.proc q).state ≠ .enabling := by
      rcases waits with state | state <;> simp [state]
    simp only [execReady, if_neg active, Result.all_call, Settled, Globals.appendFrom,
      Globals.appendLink_eq]
    have others : ∀ r, r ≠ q → ((g.setState q .waiting).setState q .ready).proc r = g.proc r :=
      fun r other => by rw [Globals.setState_of_ne _ _ other, Globals.setState_of_ne _ _ other]
    have state : (((g.setState q .waiting).setState q .ready).proc q).state = .ready := by simp
    have alt : (((g.setState q .waiting).setState q .ready).proc q).alt = (g.proc q).alt := by simp
    have fits : ∀ a ∈ rest,
        a.Fits ((((g.setState q .waiting).setState q .ready).enter .append).enqueue q) := by
      intro a mem
      refine (inv.phase a (List.mem_cons_of_mem _ mem)).keep fun r own => ?_
      by_cases same : r = q
      · subst same
        exact Or.inr ⟨waits, state⟩
      · exact Or.inl (congrArg Process.state (others r same))
    refine inv.step (· = q) (initialised_congr rfl rfl) ?_ (fun c r there => inv.known c r there)
      others (fun r _ c => Iff.rfl) (fun r _ c v _ there other => ⟨v, there, other⟩) ?_ ?_
      (List.forall_mem_cons.mpr ⟨trivial, fits⟩) ?_ ?_ ?_
    · rintro r rfl
      exact (congrArg Alternation.nrGuards alt).trans_le (inv.small _ alive)
    · intro r other _ mem
      exact other (List.mem_singleton.mp mem)
    · rintro r - rfl -
      constructor
      · intro waits
        cases state.symm.trans waits
      · intro _
        have same : Released w g.waiting r (((g.setState r .waiting).setState r .ready).proc r).alt := by
          rw [alt]
          exact released
        exact same
      · rintro (one | one | one) <;> cases state.symm.trans one
      · intro one
        cases state.symm.trans one
    · intro r free
      by_cases same : r = q
      · subst same
        refine Or.inr ?_
        rw [Globals.enqueue_proc, Globals.enter_proc, state]
        simp
      · exact Or.inl ⟨same, free⟩
    · rintro _ ⟨⟩
      trivial
    · rintro _ ⟨⟩ t mem
      cases mem
  | appended =>
    simp only [execReady, callSchedule]
    split
    · trivial
    · split
      · exact inv.call rfl rfl rfl rfl rfl rfl rfl (fun q _ mem => absurd mem List.not_mem_nil)
          trivial trivial trivial (by simp [Act.targets])
      · rw [Result.all_ret, settled_of_not_queueing (orderly.caller _), returnTo_unit]
        exact inv.ret rfl rfl rfl rfl rfl (fun q _ mem => absurd mem List.not_mem_nil) outside
  | scheduling prev =>
    rw [execReady, Result.all_ret, settled_of_not_queueing (orderly.caller _), returnTo_unit]
    exact inv.ret rfl rfl rfl rfl rfl (fun q _ mem => absurd mem List.not_mem_nil) outside

/-- A record is allocated that was not. -/
theorem Rendezvous.alloc {act act' : Act} {g' : Globals} {record : Addr}
    (inv : Rendezvous w (act :: rest) g) (fresh : allocated g.log record = false)
    (proc : g'.proc = g.proc) (waiting : g'.waiting = g.waiting)
    (log : g'.log = .alloc record :: g.log) (none : act.reserves = none)
    (reserves : act'.reserves = some record) (idle : act.holds = Option.none)
    (holds : act'.holds = Option.none) (outside : exempt (act :: rest) = [])
    (fits : act'.Fits g) (focus : act'.Focus w g') (targets : act'.targets = []) :
    Rendezvous w (act' :: rest) g' := by
  refine inv.silent proc waiting (fun q => ?_) (fun q mem => Or.inl ?_) ?_ ?_ ?_ ?_
  · by_cases same : record = q
    · subst same
      simp [initialised, log, fresh, reserves]
    · simp [initialised, log, allocated, reserves, none, same, Ne.symm same]
  · simpa only [List.filterMap_cons, idle, holds] using mem
  · intro q _ mem
    rw [outside] at mem
    cases mem
  · exact List.forall_mem_cons.mpr ⟨fits, fun a mem => inv.phase a (List.mem_cons_of_mem _ mem)⟩
  · simpa using focus
  · simp [targets]

/-- A reserved record is filled with a new process. -/
theorem Rendezvous.fill {act act' : Act} {g' : Globals} {record : Addr}
    (holds : Holds (act :: rest) g) (inv : Rendezvous w (act :: rest) g)
    (reserved : act.reserves = some record) (none : act'.reserves = none)
    (idle : act.holds = Option.none) (idle' : act'.holds = Option.none)
    (others : ∀ q, q ≠ record → g'.proc q = g.proc q) (state : (g'.proc record).state = .initial)
    (guards : (g'.proc record).alt.nrGuards = 0) (waiting : g'.waiting = g.waiting)
    (log : allocated g'.log = allocated g.log) (outside : exempt (act :: rest) = [])
    (fits : act'.Fits g') (focus : act'.Focus w g') (targets : act'.targets = []) :
    Rendezvous w (act' :: rest) g' := by
  have unknown : initialised (act :: rest) g record = false := by
    simp [initialised, reserved]
  have other : ∀ q, initialised (act :: rest) g q = true → q ≠ record := by
    rintro q known rfl
    rw [unknown] at known
    cases known
  have wider : ∀ q, initialised (act :: rest) g q = true → initialised (act' :: rest) g' q = true := by
    intro q known
    simp only [initialised, log, List.filterMap_cons, reserved, none, Bool.and_eq_true,
      decide_eq_true_eq, List.mem_cons, not_or] at known ⊢
    exact ⟨known.1, known.2.2⟩
  have narrow : ∀ q, initialised (act' :: rest) g' q = true → q ≠ record →
      initialised (act :: rest) g q = true := by
    intro q known different
    simp only [initialised, log, List.filterMap_cons, reserved, none, Bool.and_eq_true,
      decide_eq_true_eq, List.mem_cons, not_or] at known ⊢
    exact ⟨known.1, different, known.2⟩
  have held : (act' :: rest).filterMap Act.holds = (act :: rest).filterMap Act.holds := by
    simp only [List.filterMap_cons, idle, idle']
  have absent : Absent g'.waiting record := by
    intro c there
    rw [waiting] at there
    exact other record (inv.known c record there) rfl
  constructor
  · intro q known
    by_cases same : q = record
    · subst same
      rw [guards]
      exact Nat.zero_le _
    · rw [others q same]
      exact inv.small q (narrow q known same)
  · intro c q there
    rw [waiting] at there
    exact wider q (inv.known c q there)
  · intro q known _
    by_cases same : q = record
    · subst same
      constructor <;> simp [state, absent]
    · rw [others q same, waiting]
      exact inv.stands q (narrow q known same) (by rw [outside]; exact List.not_mem_nil)
  · refine List.forall_mem_cons.mpr ⟨fits, fun a mem => ?_⟩
    refine (inv.phase a (List.mem_cons_of_mem _ mem)).keep fun q own => Or.inl ?_
    have known := holds.held q (List.mem_filterMap.mpr ⟨a, List.mem_cons_of_mem _ mem, own⟩)
    rw [others q (other q known)]
  · intro q known free
    by_cases same : q = record
    · subst same
      simp [state]
    · rw [others q same]
      rw [held] at free
      exact inv.idle q (narrow q known same) free
  · simpa using focus
  · simp [targets]

theorem execStart_rendezvous {args : StartArgs} {pc : StartPc}
    (orderly : Orderly (.start args pc :: rest)) (holds : Holds (.start args pc :: rest) g)
    (fresh : ∀ index record mem, index < nalloc → g.mem.allocateMem index = some (record, mem) →
      allocated g.log record = false)
    (inv : Rendezvous w (.start args pc :: rest) g) :
    (execStart args pc g).All (Settled (Rendezvous w)) rest := by
  have outside : OutsideAlt rest := orderly.stacked.1.outsideAlt (by simp [Act.callee])
  have sound := orderly.sound _ List.mem_cons_self
  cases pc with
  | check =>
    simp only [execStart]
    split
    · trivial
    · split
      · exact inv.next rfl rfl rfl rfl rfl (fun q _ mem => absurd mem List.not_mem_nil) trivial
          trivial (by simp [Act.targets])
      · trivial
      · trivial
  | alloc index =>
    simp only [execStart]
    split
    · trivial
    · rename_i record mem allocated
      exact inv.alloc (fresh index record mem sound.1 allocated) rfl rfl rfl rfl rfl rfl rfl rfl
        trivial trivial rfl
  | fill index record =>
    simp only [execStart, Result.all_call, Settled, Globals.appendFrom, Globals.appendLink_eq]
    refine inv.fill holds rfl rfl rfl rfl (fun q other => Globals.setProc_of_ne g _ other) ?_ ?_ rfl
      rfl rfl trivial trivial rfl
    · simp [Globals.setProc]
    · simp [Globals.setProc]
  | appended =>
    rw [execStart, Result.all_ret, settled_of_not_queueing (orderly.caller _), returnTo_unit]
    exact inv.ret rfl rfl rfl rfl rfl (fun q _ mem => absurd mem List.not_mem_nil) outside

theorem execMain_rendezvous {pc : MainPc} (orderly : Orderly (.main pc :: rest))
    (holds : Holds (.main pc :: rest) g)
    (fresh : ∀ index record mem, index < nalloc → g.mem.allocateMem index = some (record, mem) →
      allocated g.log record = false)
    (inv : Rendezvous w (.main pc :: rest) g) :
    (execMain pc g).All (Settled (Rendezvous w)) rest := by
  have sound := orderly.sound _ List.mem_cons_self
  cases pc with
  | memoryInit arena memlen => exact sound.elim
  | schedInit => exact sound.elim
  | idleAlloc =>
    simp only [execMain]
    split
    · rename_i index found
      split
      · trivial
      · rename_i record mem allocated
        exact inv.alloc (fresh index record mem (findMemIndex_bound found) allocated) rfl rfl rfl rfl
          rfl rfl rfl rfl trivial trivial rfl
    · trivial
    · trivial
  | idleFill index record =>
    simp only [execMain, Result.all_call, Settled, Globals.appendFrom, Globals.appendLink_eq]
    refine inv.fill holds rfl rfl rfl rfl (fun q other => Globals.setProc_of_ne g _ other) ?_ ?_ rfl
      rfl rfl trivial trivial rfl
    · simp [Globals.setProc]
    · simp [Globals.setProc]
  | timerInit =>
    exact inv.next rfl rfl rfl rfl rfl (fun q _ mem => absurd mem List.not_mem_nil) trivial trivial
      (by simp [Act.targets])
  | user => trivial
  | running => trivial

end Scheduler

end Microcsp
