import Microcsp.Exchange
import Microcsp.Ownership
import Microcsp.Preemption

/-!
# Cooperation

Systems of one priority whose processes are started from `main` and which no interrupt disturbs: one
process is in progress at a time and none that is in progress is queued, so that its ALT is disabled as
it was enabled or as its partners left it, and `disable_alt` serves every sender that it returns.
-/

open Library

namespace Microcsp

/-! ## Conditions -/

/-- An active guard is an input or output on the process's own variables, or a skip. -/
def Guard.plain (p : Addr) (guard : Guard) : Bool :=
  match guard with
  | ⟨_, false⟩ => true
  | ⟨.chanin _ dest _, true⟩ => dest.all fun ptr => decide (ptr.proc = p)
  | ⟨.chanout _ src, true⟩ => src.all fun ptr => decide (ptr.proc = p)
  | ⟨.skip, true⟩ => true
  | _ => false

/-- The ALT that is about to be enabled has such guards only. -/
def plainGuards (label : Label) (s : State) : Bool :=
  match label, s.stack with
  | .run, .enableAlt p .enter :: _ =>
    (List.range (s.g.proc p).alt.nrGuards).all fun i => (s.g.guard p i).plain p
  | _, _ => true

/-- Processes are started from `main`, at one priority. -/
def startsFromMain (pri : Nat) (label : Label) (s : State) : Bool :=
  match label, s.stack with
  | .user (.start args), .main _ :: _ => decide (args.pri = pri)
  | .user (.start _), _ => false
  | _, _ => true

/-- There are no interrupts, processes of one priority are started from `main`, and channels are used
from one process to another. -/
def cooperative (w : Wiring) (pri : Nat) (label : Label) (s : State) : Bool :=
  withoutInterrupts label s && startsFromMain pri label s && plainGuards label s &&
    pointToPoint w label s

/-! ## One process at a time -/

/-- `readyProcessIfNecessary` has not called `schedule`. -/
def Unscheduled (stack : List Act) : Prop := ∀ q prev, Act.ready q (.scheduling prev) ∉ stack

section Flat

variable {stack rest : List Act} {act : Act} {p : Addr}

/-- `schedule` was called by `main`. -/
theorem caller_of_schedule (stacked : Stacked (act :: rest)) (calls : act.callee = .schedule)
    (free : Unsignalled (act :: rest)) (unscheduled : Unscheduled (act :: rest)) :
    rest = [.main .running] := by
  obtain ⟨atop, below⟩ := stacked
  rw [calls] at atop
  cases rest with
  | nil => simp [Admitted] at atop
  | cons caller under =>
    cases caller with
    | main pc =>
      cases pc with
      | running =>
        have alone : under = [] := below.1.eq_nil_of_main
        rw [alone]
      | _ => exact False.elim atop
    | ready q pc =>
      cases pc with
      | scheduling prev =>
        exact absurd (List.mem_cons_of_mem _ List.mem_cons_self) (unscheduled q prev)
      | _ => exact False.elim atop
    | signal intr saved pc =>
      exact absurd rfl (free _ (List.mem_cons_of_mem _ List.mem_cons_self))
    | _ => exact False.elim atop

/-- At most one process is in progress. -/
theorem holds_flat (stacked : Stacked stack) (free : Unsignalled stack)
    (unscheduled : Unscheduled stack) :
    stack.filterMap Act.holds = [] ∨ ∃ p, stack.filterMap Act.holds = [p] := by
  induction stack with
  | nil => exact Or.inl rfl
  | cons act rest ih =>
    have bottom : act.callee = .schedule → rest.filterMap Act.holds = [] := by
      intro calls
      rw [caller_of_schedule stacked calls free unscheduled]
      rfl
    have below := ih stacked.2 (fun a mem => free a (List.mem_cons_of_mem _ mem))
      (fun q prev mem => unscheduled q prev (List.mem_cons_of_mem _ mem))
    cases own : act.holds with
    | none =>
      rw [List.filterMap_cons_none own]
      exact below
    | some p =>
      have calls : act.callee = .schedule := by
        unfold Act.holds at own
        split at own
        · rfl
        · rfl
        · cases own
      rw [List.filterMap_cons_some own, bottom calls]
      exact Or.inr ⟨p, rfl⟩

/-- Two processes in progress are the same. -/
theorem eq_of_holds {q : Addr} (stacked : Stacked stack) (free : Unsignalled stack)
    (unscheduled : Unscheduled stack) (here : p ∈ stack.filterMap Act.holds)
    (there : q ∈ stack.filterMap Act.holds) : p = q := by
  rcases holds_flat stacked free unscheduled with none | ⟨r, one⟩
  · rw [none] at here
    cases here
  · rw [one, List.mem_singleton] at here there
    exact here.trans there.symm

end Flat

/-! ## The invariant -/

/-- The active guards are plain. -/
def Alternation.Plain (p : Addr) (alt : Alternation) : Prop :=
  ∀ i < alt.nrGuards, (alt.guards i).plain p = true

/-- None of these active guards is a skip. -/
def Alternation.Skipless (alt : Alternation) (guards : List Nat) : Prop :=
  ∀ i ∈ guards, (alt.guards i).active = true → (alt.guards i).kind ≠ .skip

/-- No sender waits at the guards that are left, or they are all inputs and one is selected if there is
a partner. -/
def Alternation.Settles (alt : Alternation) (waiting : ChanId → Option Addr) (p : Addr)
    (left : List Nat) (partner : Option Addr) : Prop :=
  (partner = none ∧ ∀ j ∈ left, ∀ c, Listens alt c j → ∀ v, waiting c = some v → v = p) ∨
    (∀ j ∈ left, (alt.guards j).active = true → (alt.guards j).kind.isChanin = true) ∧
      (partner ≠ none → (alt.guards alt.index).kind.isChanin = true)

/-- The process goes from enabling to disabling at once. -/
def SchedulePc.straight : SchedulePc → Bool
  | .branch .ready _ | .disabling | .disabled _ => true
  | _ => false

/-- What the innermost activation knows. -/
def Act.Steady (g : Globals) (rest : List Act) : Act → Prop
  | .schedule _ p .initial => (g.proc p).rtc = .user
  | .schedule _ p (.enabled found _) => (g.proc p).alt.Plain p ∧
      if found then (g.proc p).alt.Settles g.waiting p (g.proc p).alt.enabledGuards none
      else (g.proc p).alt.Skipless (List.range (g.proc p).alt.nrGuards)
  | .schedule _ p (.branch .ready _) =>
    (g.proc p).alt.Settles g.waiting p (g.proc p).alt.enabledGuards none
  | .schedule _ p (.branch _ partner) => partner ≠ some p
  | .schedule _ p (.partner partner _) => partner ≠ some p
  | .ready q .test => q ∉ rest.filterMap Act.holds
  | .enableAlt p (.loop i k _) => (g.proc p).alt.Plain p ∧ (g.proc p).alt.Skipless
      (downFrom (g.proc p).alt.nrGuards (minus1Mod i (g.proc p).alt.nrGuards) k)
  | .enableAlt _ (.insert _ _ _ _) => False
  | .enableAlt p (.done i k found _) => (g.proc p).alt.Plain p ∧
      if found then (g.proc p).alt.Settles g.waiting p
        (downFrom (g.proc p).alt.nrGuards i (k + 1)) none
      else (g.proc p).alt.Skipless (List.range (g.proc p).alt.nrGuards)
  | .disableAlt p .enter => (g.proc p).alt.Settles g.waiting p (g.proc p).alt.enabledGuards none
  | .disableAlt p (.loop i left partner) =>
    (g.proc p).alt.Settles g.waiting p (downFrom (g.proc p).alt.nrGuards i left) partner
  | .disableAlt p (.copy _ dest _ _) => ∀ ptr ∈ dest, ptr.proc = p
  | _ => True

/-- A process of the application at this priority, or the idle process. -/
def Process.OfKind (pri : Nat) (proc : Process) : Prop :=
  proc.rtc = .user ∧ proc.pri = pri ∨
    proc.rtc = .idle ∧ proc.pri = priMin ∧ proc.state = .initial

/-- New processes will have the priority, `readyProcessIfNecessary` is given a process and does not
call `schedule`. -/
def Act.Cooperates (pri : Nat) (alive : Addr → Prop) : Act → Prop
  | .start args _ => args.pri = pri
  | .ready _ (.scheduling _) => False
  | .ready q _ => alive q
  | _ => True

/-- The process goes on at once. -/
def Straight (stack : List Act) (q : Addr) : Prop :=
  ∃ base pc, Act.schedule base q pc ∈ stack ∧ pc.straight = true

/-- A process in an ALT has plain guards and, unless it goes on at once, no active skip guard. -/
def Process.Steady (straight : Prop) (q : Addr) (proc : Process) : Prop :=
  proc.state = .waiting ∨ proc.state = .ready → proc.alt.Plain q ∧
    (proc.alt.Skipless (List.range proc.alt.nrGuards) ∨ straight)

/-- The invariant. -/
structure Cooperating (pri : Nat) (stack : List Act) (g : Globals) : Prop where
  /-- There are processes of one priority, and the idle process. -/
  kinds : ∀ q, initialised stack g q = true → (g.proc q).OfKind pri
  /-- The calls in progress keep it so. -/
  acts : ∀ act ∈ stack, act.Cooperates pri (fun q => initialised stack g q = true)
  /-- The processes that wait or are ready. -/
  procs : ∀ q, initialised stack g q = true → (g.proc q).Steady (Straight stack q) q
  /-- The innermost activation. -/
  steady : ∀ act ∈ stack.head?, act.Steady g stack.tail

/-! ## Steps in general -/

section General

variable {pri : Nat} {stack stack' rest : List Act} {act act' callee : Act} {g g' : Globals}

theorem Act.Cooperates.mono {alive alive' : Addr → Prop} (cooperates : act.Cooperates pri alive)
    (wider : ∀ q, alive q → alive' q) : act.Cooperates pri alive' := by
  unfold Act.Cooperates at cooperates ⊢
  split
  · exact cooperates
  · exact cooperates
  · rename_i q pc other
    cases pc with
    | scheduling prev => exact (other prev rfl).elim
    | _ => exact wider q cooperates
  · trivial

theorem Cooperating.unscheduled (inv : Cooperating pri stack g) : Unscheduled stack :=
  fun _ _ mem => inv.acts _ mem

theorem Process.Steady.imp {straight straight' : Prop} {q : Addr} {proc : Process}
    (steady : proc.Steady straight q) (wider : straight → straight') : proc.Steady straight' q :=
  fun state => ⟨(steady state).1, (steady state).2.imp_right wider⟩

/-- A step that changes one process at most. -/
theorem Cooperating.step (inv : Cooperating pri stack g) (p : Addr)
    (life : ∀ q, initialised stack' g' q = initialised stack g q)
    (others : ∀ q, q ≠ p → g'.proc q = g.proc q)
    (kind : (g.proc p).OfKind pri → (g'.proc p).OfKind pri)
    (acts : ∀ act ∈ stack', act.Cooperates pri (fun q => initialised stack g q = true))
    (own : initialised stack g p = true → (g'.proc p).Steady (Straight stack' p) p)
    (straight : ∀ q, q ≠ p → Straight stack q → Straight stack' q)
    (steady : ∀ act ∈ stack'.head?, act.Steady g' stack'.tail) : Cooperating pri stack' g' where
  kinds q alive := by
    rw [life] at alive
    by_cases same : q = p
    · subst same
      exact kind (inv.kinds q alive)
    · rw [others q same]
      exact inv.kinds q alive
  acts act mem := by
    simp only [life]
    exact acts act mem
  procs q alive := by
    rw [life] at alive
    by_cases same : q = p
    · subst same
      exact own alive
    · rw [others q same]
      exact (inv.procs q alive).imp (straight q same)
  steady := steady

/-- A step that leaves the processes alone. -/
theorem Cooperating.silent (inv : Cooperating pri stack g) (proc : g'.proc = g.proc)
    (life : ∀ q, initialised stack' g' q = initialised stack g q)
    (acts : ∀ act ∈ stack', act.Cooperates pri (fun q => initialised stack g q = true))
    (straight : ∀ q, Straight stack q → Straight stack' q ∨
      (g.proc q).state ≠ .waiting ∧ (g.proc q).state ≠ .ready)
    (steady : ∀ act ∈ stack'.head?, act.Steady g' stack'.tail) : Cooperating pri stack' g' where
  kinds q alive := by
    rw [life] at alive
    rw [proc]
    exact inv.kinds q alive
  acts act mem := by
    simp only [life]
    exact acts act mem
  procs q alive state := by
    rw [life] at alive
    rw [proc] at state ⊢
    obtain ⟨plain, skipless | here⟩ := inv.procs q alive state
    · exact ⟨plain, Or.inl skipless⟩
    · rcases straight q here with there | ⟨awake, unready⟩
      · exact ⟨plain, Or.inr there⟩
      · exact absurd state (not_or.mpr ⟨awake, unready⟩)
  steady := steady

/-- The process of an activation that goes on at once. -/
def Act.goesOn : Act → Option Addr
  | .schedule _ q pc => if pc.straight then some q else none
  | _ => none

theorem straight_cons {q : Addr} :
    Straight (act :: rest) q ↔ act.goesOn = some q ∨ Straight rest q := by
  constructor
  · rintro ⟨base, pc, mem, straight⟩
    rcases List.mem_cons.mp mem with rfl | mem
    · exact Or.inl (if_pos straight)
    · exact Or.inr ⟨base, pc, mem, straight⟩
  · rintro (here | ⟨base, pc, mem, straight⟩)
    · unfold Act.goesOn at here
      split at here
      · rename_i base q' pc
        split at here
        · rename_i straight
          obtain rfl := Option.some.inj here
          exact ⟨base, pc, List.mem_cons_self, straight⟩
        · cases here
      · cases here
    · exact ⟨base, pc, List.mem_cons_of_mem _ mem, straight⟩

/-- A silent step to another point of the same activation. -/
theorem Cooperating.next (inv : Cooperating pri (act :: rest) g) (proc : g'.proc = g.proc)
    (log : allocated g'.log = allocated g.log) (reserves : act'.reserves = act.reserves)
    (cooperates : act'.Cooperates pri (fun q => initialised (act :: rest) g q = true))
    (goes : act'.goesOn = act.goesOn) (steady : act'.Steady g' rest) :
    Cooperating pri (act' :: rest) g' := by
  refine inv.silent proc (initialised_congr log ?_) ?_ (fun q here => Or.inl ?_) ?_
  · simp only [List.filterMap_cons, reserves]
  · exact List.forall_mem_cons.mpr ⟨cooperates, fun a mem => inv.acts a (List.mem_cons_of_mem _ mem)⟩
  · rw [straight_cons, goes, ← straight_cons]
    exact here
  · rintro _ ⟨⟩
    exact steady

/-- A silent call. -/
theorem Cooperating.call (inv : Cooperating pri (act :: rest) g) (proc : g'.proc = g.proc)
    (log : allocated g'.log = allocated g.log) (reserves : act'.reserves = act.reserves)
    (none : callee.reserves = none)
    (cooperates : act'.Cooperates pri (fun q => initialised (act :: rest) g q = true))
    (atop : callee.Cooperates pri (fun q => initialised (act :: rest) g q = true))
    (goes : act'.goesOn = act.goesOn) (steady : callee.Steady g' (act' :: rest)) :
    Cooperating pri (callee :: act' :: rest) g' := by
  refine inv.silent proc (initialised_congr log ?_) ?_ (fun q here => Or.inl ?_) ?_
  · simp only [List.filterMap_cons, reserves, none]
  · exact List.forall_mem_cons.mpr ⟨atop, List.forall_mem_cons.mpr
      ⟨cooperates, fun a mem => inv.acts a (List.mem_cons_of_mem _ mem)⟩⟩
  · rw [straight_cons, straight_cons, goes, ← straight_cons]
    exact Or.inr here
  · rintro _ ⟨⟩
    exact steady

/-- A silent return to a caller. -/
theorem Cooperating.ret (inv : Cooperating pri (act :: rest) g) (proc : g'.proc = g.proc)
    (log : allocated g'.log = allocated g.log) (reserves : act.reserves = none)
    (goes : act.goesOn = none) (steady : ∀ caller ∈ rest.head?, caller.Steady g' rest.tail) :
    Cooperating pri rest g' := by
  refine inv.silent proc (initialised_congr log ?_)
    (fun a mem => inv.acts a (List.mem_cons_of_mem _ mem)) (fun q here => Or.inl ?_) steady
  · simp only [List.filterMap_cons, reserves]
  · rw [straight_cons, goes] at here
    exact here.resolve_left nofun

/-- A record is allocated. -/
theorem initialised_alloc {record : Addr} (fresh : allocated g.log record = false)
    (log : g'.log = .alloc record :: g.log) (none : act.reserves = none)
    (reserves : act'.reserves = some record) (q : Addr) :
    initialised (act' :: rest) g' q = initialised (act :: rest) g q := by
  by_cases same : record = q
  · subst same
    simp [initialised, log, fresh, reserves]
  · simp [initialised, log, allocated, reserves, none, same, Ne.symm same]

/-- A reserved record is filled. -/
theorem initialised_fill {record : Addr} (reserved : act.reserves = some record)
    (none : act'.reserves = none) (log : allocated g'.log = allocated g.log) {q : Addr}
    (other : q ≠ record) :
    initialised (act' :: rest) g' q = true ↔ initialised (act :: rest) g q = true := by
  simp only [initialised, log, List.filterMap_cons, reserved, none, Bool.and_eq_true,
    decide_eq_true_eq, List.mem_cons, not_or]
  exact ⟨fun known => ⟨known.1, other, known.2⟩, fun known => ⟨known.1, known.2.2⟩⟩

/-- A reserved record holds no process. -/
theorem not_initialised_reserved {record : Addr} (reserved : act.reserves = some record) :
    initialised (act :: rest) g record = false := by
  simp [initialised, reserved]

/-- A record is allocated for a new process. -/
theorem Cooperating.alloc {record : Addr} (inv : Cooperating pri (act :: rest) g)
    (fresh : allocated g.log record = false) (proc : g'.proc = g.proc)
    (log : g'.log = .alloc record :: g.log) (none : act.reserves = none)
    (reserves : act'.reserves = some record)
    (cooperates : act'.Cooperates pri (fun q => initialised (act :: rest) g q = true))
    (goes : act'.goesOn = act.goesOn) (steady : act'.Steady g' rest) :
    Cooperating pri (act' :: rest) g' := by
  refine inv.silent proc (initialised_alloc fresh log none reserves) ?_ (fun q here => Or.inl ?_) ?_
  · exact List.forall_mem_cons.mpr ⟨cooperates, fun a mem => inv.acts a (List.mem_cons_of_mem _ mem)⟩
  · rw [straight_cons, goes, ← straight_cons]
    exact here
  · rintro _ ⟨⟩
    exact steady

/-- A record is filled with a new process. -/
theorem Cooperating.fill {record : Addr} (inv : Cooperating pri (act :: rest) g)
    (reserved : act.reserves = some record) (none : act'.reserves = none)
    (others : ∀ q, q ≠ record → g'.proc q = g.proc q) (kind : (g'.proc record).OfKind pri)
    (state : (g'.proc record).state = .initial) (log : allocated g'.log = allocated g.log)
    (cooperates : act'.Cooperates pri (fun q => initialised (act :: rest) g q = true))
    (goes : act'.goesOn = act.goesOn) (steady : act'.Steady g' rest) :
    Cooperating pri (act' :: rest) g' where
  kinds q alive := by
    by_cases same : q = record
    · subst same
      exact kind
    · rw [others q same]
      exact inv.kinds q ((initialised_fill reserved none log same).mp alive)
  acts a mem := by
    have before : a.Cooperates pri (fun q => initialised (act :: rest) g q = true) := by
      rcases List.mem_cons.mp mem with rfl | mem
      · exact cooperates
      · exact inv.acts a (List.mem_cons_of_mem _ mem)
    refine before.mono fun q alive => ?_
    have other : q ≠ record := by
      rintro rfl
      rw [not_initialised_reserved reserved] at alive
      cases alive
    exact (initialised_fill reserved none log other).mpr alive
  procs q alive := by
    by_cases same : q = record
    · subst same
      rintro (one | one)
      · rw [state] at one
        cases one
      · rw [state] at one
        cases one
    · rw [others q same, straight_cons, goes, ← straight_cons]
      exact inv.procs q ((initialised_fill reserved none log same).mp alive)
  steady := by
    rintro _ ⟨⟩
    exact steady

end General

/-! ## The scheduler -/

section Scheduler

variable {w : Wiring} {pri : Nat} {rest : List Act} {g : Globals}

theorem execSelect_cooperating {base : Int} {pc : SelectPc}
    (orderly : Orderly (.select base pc :: rest)) (free : Unsignalled (.select base pc :: rest))
    (inv : Cooperating pri (.select base pc :: rest) g) :
    (execSelect base pc g).All (Settled (Cooperating pri)) rest := by
  cases pc with
  | top => exact inv.next rfl rfl rfl trivial rfl trivial
  | chosen highest =>
    simp only [execSelect]
    split
    · rw [Result.all_ret, settled_of_not_queueing (orderly.caller _), returnTo_unit]
      refine inv.ret rfl rfl rfl rfl fun caller top => ?_
      rw [caller_of_schedule orderly.stacked rfl free inv.unscheduled] at top
      cases top
      trivial
    · simp only [Result.all_call, Settled, Globals.takeFrom, Globals.takeHead_eq]
      cases head : (g.readyQ highest).head with
      | none =>
        simp only [Globals.enter_readyQ, head]
        exact inv.next rfl rfl rfl trivial rfl trivial
      | some p =>
        simp only [Globals.enter_readyQ, head]
        exact inv.next rfl rfl rfl trivial rfl trivial
  | taking => trivial
  | took r =>
    cases r with
    | none => trivial
    | some p => exact inv.next rfl rfl rfl trivial rfl trivial

/-- A process whose state is not that of the idle process is one of the application. -/
theorem Process.OfKind.setState {proc : Process} (kind : proc.OfKind pri)
    (other : proc.state ≠ .initial ∨ proc.rtc = .user) (state : PState) :
    Process.OfKind pri { proc with state := state } := by
  rcases kind with user | ⟨idle, -, initial⟩
  · exact Or.inl user
  · rcases other with awake | user
    · exact absurd initial awake
    · rw [idle] at user
      cases user

/-- The state of the process of `schedule` changes. -/
theorem Cooperating.setState {base : Int} {p : Addr} {pc pc' : SchedulePc} {state : PState}
    {stack' : List Act} {g' : Globals} (inv : Cooperating pri (.schedule base p pc :: rest) g)
    (proc : g'.proc = (g.setState p state).proc) (log : allocated g'.log = allocated g.log)
    (top : stack' = .schedule base p pc' :: rest ∨
      stack' = .enableAlt p .enter :: .schedule base p pc' :: rest)
    (other : (g.proc p).state ≠ .initial ∨ (g.proc p).rtc = .user)
    (own : state = .waiting ∨ state = .ready → (g.proc p).alt.Plain p ∧
      ((g.proc p).alt.Skipless (List.range (g.proc p).alt.nrGuards) ∨ pc'.straight = true))
    (steady : ∀ act ∈ stack'.head?, act.Steady g' stack'.tail) : Cooperating pri stack' g' := by
  have here : g'.proc p = { g.proc p with state := state } := by
    rw [proc]
    exact Function.update_self ..
  have inner : ∀ a ∈ rest, a.Cooperates pri
      (fun q => initialised (.schedule base p pc :: rest) g q = true) :=
    fun a mem => inv.acts a (List.mem_cons_of_mem _ mem)
  have life : stack'.filterMap Act.reserves = rest.filterMap Act.reserves := by
    rcases top with rfl | rfl <;> rfl
  have atop : Act.schedule base p pc' ∈ stack' := by
    rcases top with rfl | rfl <;> simp
  refine inv.step p (initialised_congr log life) (fun q ne => ?_) (fun kind => ?_) ?_ ?_ ?_ steady
  · rw [proc, Globals.setState_of_ne g state ne]
  · rw [here]
    exact kind.setState other state
  · rcases top with rfl | rfl
    · exact List.forall_mem_cons.mpr ⟨trivial, inner⟩
    · exact List.forall_mem_cons.mpr ⟨trivial, List.forall_mem_cons.mpr ⟨trivial, inner⟩⟩
  · rintro - states
    rw [here] at states ⊢
    obtain ⟨plain, cause⟩ := own states
    exact ⟨plain, cause.imp_right fun straight => ⟨base, pc', atop, straight⟩⟩
  · rintro q ne ⟨base', pc'', mem, straight⟩
    rcases List.mem_cons.mp mem with same | mem
    · cases same
      exact absurd rfl ne
    · refine ⟨base', pc'', ?_, straight⟩
      rcases top with rfl | rfl <;> simp [mem]

/-- A process that waits without skip guards finds no sender beside another guard. -/
theorem Alternation.settles_of_skipless {alt : Alternation} {waiting : ChanId → Option Addr}
    {p : Addr} {left : List Nat} (wired : Wired w p alt) (plain : alt.Plain p)
    (skipless : alt.Skipless left) (inside : ∀ j ∈ left, j < alt.nrGuards) :
    alt.Settles waiting p left none := by
  by_cases output : ∃ i < alt.nrGuards, ∃ c, Sends alt c i
  · obtain ⟨i, within, c, sends⟩ := output
    refine Or.inl ⟨rfl, fun j mem d listens => ?_⟩
    exact absurd listens (wired.no_input sends within (inside j mem))
  · refine Or.inr ⟨fun j mem active => ?_, fun some => absurd rfl some⟩
    have guard := plain j (inside j mem)
    have noSkip := skipless j mem active
    cases kind : (alt.guards j).kind with
    | chanin c dest len => rfl
    | chanout c src => exact absurd ⟨j, inside j mem, c, .of_kind kind active⟩ output
    | skip => exact absurd kind noSkip
    | timeout t =>
      have whole : alt.guards j = ⟨.timeout t, true⟩ := by rw [← kind, ← active]
      rw [whole] at guard
      cases guard
    | interrupt x dest =>
      have whole : alt.guards j = ⟨.interrupt x dest, true⟩ := by rw [← kind, ← active]
      rw [whole] at guard
      cases guard

/-- A process that has terminated gives up its record. -/
theorem Cooperating.release {base : Int} {p : Addr} {mem : Memory}
    (bottom : rest = [.main .running]) (inv : Cooperating pri (.schedule base p .finish :: rest) g) :
    Cooperating pri (.select base .top :: rest)
      ({ g.disable with mem := mem }.enable.emit (.release p)) := by
  subst bottom
  have life : ∀ q, initialised [.select base .top, .main .running]
      ({ g.disable with mem := mem }.enable.emit (.release p)) q = true →
        initialised [.schedule base p .finish, .main .running] g q = true := by
    intro q
    by_cases same : p = q <;> simp [initialised, allocated, Act.reserves, same]
  have idle : ∀ q, ¬ Straight [.schedule base p .finish, .main .running] q := by
    rintro q ⟨base', pc, mem, straight⟩
    simp only [List.mem_cons, Act.schedule.injEq, reduceCtorEq, List.not_mem_nil, or_false] at mem
    rw [mem.2.2] at straight
    cases straight
  constructor
  · exact fun q alive => inv.kinds q (life q alive)
  · exact List.forall_mem_cons.mpr ⟨trivial, List.forall_mem_cons.mpr ⟨trivial, by simp⟩⟩
  · exact fun q alive => (inv.procs q (life q alive)).imp fun straight => absurd straight (idle q)
  · rintro _ ⟨⟩
    trivial

/-- While an ALT is enabled the partner is another process. -/
theorem Rendezvous.enabled_partner {base : Int} {p : Addr} {partner : Option Addr}
    (inv : Rendezvous w (.schedule base p (.enabled false partner) :: rest) g) :
    partner ≠ some p := by
  rintro rfl
  have enabling : (g.proc p).state = .enabling := by
    simpa [Act.Fits, SchedulePc.states] using inv.phase _ List.mem_cons_self
  obtain ⟨-, waits | ready, -⟩ := inv.targets _ rfl p (by simp [Act.targets])
  · rw [enabling] at waits
    cases waits
  · rw [enabling] at ready
    cases ready

/-- `disable_alt` is called for a process whose guards are settled. -/
theorem Cooperating.callDisableAlt {base : Int} {p : Addr} {pc : SchedulePc}
    (inv : Cooperating pri (.schedule base p pc :: rest) g)
    (settles : (g.proc p).alt.Settles g.waiting p (g.proc p).alt.enabledGuards none) :
    (callDisableAlt base p g).All (Settled (Cooperating pri)) rest := by
  have acts : ∀ a ∈ rest, a.Cooperates pri
      (fun q => initialised (.schedule base p pc :: rest) g q = true) :=
    fun a mem => inv.acts a (List.mem_cons_of_mem _ mem)
  refine inv.silent rfl (initialised_congr rfl rfl) (List.forall_mem_cons.mpr
    ⟨trivial, List.forall_mem_cons.mpr ⟨trivial, acts⟩⟩) (fun q here => Or.inl ?_) ?_
  · obtain ⟨base', pc', mem, straight⟩ := here
    rcases List.mem_cons.mp mem with same | mem
    · cases same
      exact ⟨base, .disabling, by simp, rfl⟩
    · exact ⟨base', pc', by simp [mem], straight⟩
  · rintro _ ⟨⟩
    exact settles

theorem execSchedule_cooperating {base : Int} {p : Addr} {pc : SchedulePc}
    (orderly : Orderly (.schedule base p pc :: rest)) (holds : Holds (.schedule base p pc :: rest) g)
    (free : Unsignalled (.schedule base p pc :: rest))
    (exchange : Rendezvous w (.schedule base p pc :: rest) g)
    (inv : Cooperating pri (.schedule base p pc :: rest) g) :
    (execSchedule base p pc g).All (Settled (Cooperating pri)) rest := by
  have alive : initialised (.schedule base p pc :: rest) g p = true :=
    holds.held p (by simp [Act.holds])
  have fits : (g.proc p).state ∈ pc.states := exchange.phase _ List.mem_cons_self
  have steady := inv.steady _ rfl
  have bottom : rest = [.main .running] :=
    caller_of_schedule orderly.stacked rfl free inv.unscheduled
  cases pc with
  | top => exact inv.next rfl rfl rfl trivial rfl trivial
  | dispatch state =>
    cases state with
    | initial => exact inv.call rfl rfl rfl rfl trivial trivial rfl trivial
    | quiescent =>
      have state : (g.proc p).state = .quiescent := by simpa [SchedulePc.states] using fits
      refine inv.setState rfl rfl (Or.inr rfl) (Or.inl (by simp [state])) (by simp) ?_
      rintro _ ⟨⟩
      trivial
    | ready =>
      have state : (g.proc p).state = .ready := by simpa [SchedulePc.states] using fits
      have stands := (exchange.stands p alive List.not_mem_nil).ready state
      obtain ⟨plain, skipless | straight⟩ := inv.procs p alive (Or.inr state)
      · refine inv.callDisableAlt (Alternation.settles_of_skipless stands.toWired plain
          (fun j mem => skipless j (List.mem_range.mpr ?_)) fun j mem => ?_)
        · exact lt_of_mem_enabledGuards stands.inside mem
        · exact lt_of_mem_enabledGuards stands.inside mem
      · obtain ⟨base', pc', mem, straight⟩ := straight
        subst bottom
        simp only [List.mem_cons, Act.schedule.injEq, reduceCtorEq, List.not_mem_nil,
          or_false] at mem
        rw [mem.2.2] at straight
        cases straight
    | waiting => exact inv.next rfl rfl rfl trivial rfl (fun same => by cases same)
    | enabling => cases fits
    | done => cases fits
  | initial =>
    refine inv.setState rfl rfl (Or.inl rfl) (Or.inr steady) (by simp) ?_
    rintro _ ⟨⟩
    trivial
  | enabling => trivial
  | enabled found partner =>
    have state : (g.proc p).state = .enabling := by simpa [SchedulePc.states] using fits
    obtain ⟨plain, rest'⟩ := steady
    have awake : (g.proc p).state ≠ .initial := by simp [state]
    simp only [execSchedule, PState.afterEnabling, state, if_true]
    cases found with
    | true =>
      refine inv.setState rfl rfl (Or.inl rfl) (Or.inl awake) (fun _ => ⟨plain, Or.inr rfl⟩) ?_
      rintro _ ⟨⟩
      have alt : ((g.setState p .ready).proc p).alt = (g.proc p).alt := by simp
      change ((g.setState p .ready).proc p).alt.Settles g.waiting p
        ((g.setState p .ready).proc p).alt.enabledGuards none
      rw [alt]
      exact rest'
    | false =>
      refine inv.setState rfl rfl (Or.inl rfl) (Or.inl awake) (fun _ => ⟨plain, Or.inl rest'⟩) ?_
      rintro _ ⟨⟩
      exact exchange.enabled_partner
  | branch state partner =>
    simp only [execSchedule]
    split
    · rename_i ready
      subst ready
      exact inv.callDisableAlt steady
    · rename_i other
      have apart : partner ≠ some p := by
        cases state with
        | ready => exact absurd rfl other
        | _ => exact steady
      have goes : (Act.schedule base p (.branch state partner)).goesOn = none := by
        cases state with
        | ready => exact absurd rfl other
        | _ => rfl
      exact inv.next rfl rfl rfl trivial goes.symm apart
  | disabling => trivial
  | disabled partner =>
    have state : (g.proc p).state = .ready := by simpa [SchedulePc.states] using fits
    refine inv.setState rfl rfl (Or.inl rfl) (Or.inl (by simp [state])) (by simp) ?_
    rintro _ ⟨⟩
    exact (exchange.focus _ rfl).2
  | partner partner executes =>
    cases partner with
    | none => exact inv.next rfl rfl rfl trivial rfl trivial
    | some q =>
      have known := (exchange.targets _ rfl q (by simp [Act.targets])).1
      refine inv.call rfl rfl rfl rfl trivial known rfl ?_
      subst bottom
      intro mem
      simp only [Act.holds, List.filterMap_cons, List.filterMap_nil, List.mem_singleton] at mem
      exact steady (congrArg some mem)
  | readying executes => exact inv.next rfl rfl rfl trivial rfl trivial
  | execute executes =>
    cases executes with
    | false => exact inv.next rfl rfl rfl trivial rfl trivial
    | true => exact inv.call rfl rfl rfl rfl trivial trivial rfl trivial
  | executing => exact inv.next rfl rfl rfl trivial rfl trivial
  | finish =>
    simp only [execSchedule, Globals.disable_proc]
    split
    · exact inv.release bottom
    · exact inv.next rfl rfl rfl trivial rfl trivial
    · exact inv.next rfl rfl rfl trivial rfl trivial

theorem execStart_cooperating {args : StartArgs} {pc : StartPc}
    (orderly : Orderly (.start args pc :: rest))
    (fresh : ∀ index record mem, index < nalloc → g.mem.allocateMem index = some (record, mem) →
      allocated g.log record = false)
    (inv : Cooperating pri (.start args pc :: rest) g) :
    (execStart args pc g).All (Settled (Cooperating pri)) rest := by
  have sound := orderly.sound _ List.mem_cons_self
  have level : args.pri = pri := inv.acts _ List.mem_cons_self
  cases pc with
  | check =>
    simp only [execStart]
    split
    · trivial
    · split
      · exact inv.next rfl rfl rfl level rfl trivial
      · trivial
      · trivial
  | alloc index =>
    simp only [execStart]
    split
    · trivial
    · rename_i record mem allocated
      exact inv.alloc (fresh index record mem sound.1 allocated) rfl rfl rfl rfl level rfl trivial
  | fill index record =>
    simp only [execStart, Result.all_call, Settled, Globals.appendFrom, Globals.appendLink_eq]
    refine inv.fill rfl rfl (fun q other => Globals.setProc_of_ne g _ other) ?_ ?_ rfl level rfl
      trivial
    · refine Or.inl ?_
      simp [Globals.setProc, level]
    · simp [Globals.setProc]
  | appended =>
    rw [execStart, Result.all_ret, settled_of_not_queueing (orderly.caller _), returnTo_unit]
    refine inv.ret rfl rfl rfl rfl fun caller top => ?_
    rcases (orderly.stacked.1 : Admitted .start rest).caller_of_start with ⟨p, under, rfl⟩ | ⟨under, rfl⟩
    · cases top
      trivial
    · cases top
      trivial

theorem execMain_cooperating {pc : MainPc} (orderly : Orderly (.main pc :: rest))
    (fresh : ∀ index record mem, index < nalloc → g.mem.allocateMem index = some (record, mem) →
      allocated g.log record = false)
    (inv : Cooperating pri (.main pc :: rest) g) :
    (execMain pc g).All (Settled (Cooperating pri)) rest := by
  have sound := orderly.sound _ List.mem_cons_self
  cases pc with
  | memoryInit arena memlen => exact sound.elim
  | schedInit => exact sound.elim
  | idleAlloc =>
    simp only [execMain]
    split
    · rename_i index found
      split
      · trivial
      · rename_i record mem allocated
        exact inv.alloc (fresh index record mem (findMemIndex_bound found) allocated) rfl rfl rfl rfl
          trivial rfl trivial
    · trivial
    · trivial
  | idleFill index record =>
    simp only [execMain, Result.all_call, Settled, Globals.appendFrom, Globals.appendLink_eq]
    refine inv.fill rfl rfl (fun q other => Globals.setProc_of_ne g _ other) ?_ ?_ rfl trivial rfl
      trivial
    · refine Or.inr ?_
      simp [Globals.setProc]
    · simp [Globals.setProc]
  | timerInit => exact inv.next rfl rfl rfl trivial rfl trivial
  | user => trivial
  | running => trivial

/-- `readyProcessIfNecessary` is called by `schedule`. -/
theorem Unsignalled.caller_of_ready (free : Unsignalled rest) (atop : Admitted .ready rest)
    (stacked : Stacked rest) : ∃ base p executes under,
      rest = .schedule base p (.readying executes) :: under := by
  cases rest with
  | nil => simp [Admitted] at atop
  | cons caller under =>
    have first := free caller List.mem_cons_self
    have below : Unsignalled under := fun a mem => free a (List.mem_cons_of_mem _ mem)
    cases caller with
    | schedule base p pc =>
      cases pc with
      | readying executes => exact ⟨base, p, executes, under, rfl⟩
      | _ => exact False.elim atop
    | signal intr saved pc => exact absurd rfl first
    | timeoutHandler pc => exact (below.no_handler stacked.1 (Or.inl rfl)).elim
    | userHandler intrsrc => exact (below.no_handler stacked.1 (Or.inr rfl)).elim
    | _ => exact False.elim atop

theorem execReady_cooperating {q : Addr} {pc : ReadyPc} (orderly : Orderly (.ready q pc :: rest))
    (holds : Holds (.ready q pc :: rest) g) (free : Unsignalled (.ready q pc :: rest))
    (coherent : CurrentInv (.ready q pc :: rest) g)
    (exchange : Rendezvous w (.ready q pc :: rest) g)
    (inv : Cooperating pri (.ready q pc :: rest) g) :
    (execReady q pc g).All (Settled (Cooperating pri)) rest := by
  have alive := inv.acts _ List.mem_cons_self
  obtain ⟨base, p, executes, under, rfl⟩ :=
    Unsignalled.caller_of_ready (fun a mem => free a (List.mem_cons_of_mem _ mem)) orderly.stacked.1
      orderly.stacked.2
  have back : ∀ caller ∈ (Act.schedule base p (.readying executes) :: under).head?,
      caller.Steady g under := by
    rintro _ ⟨⟩
    trivial
  cases pc with
  | test =>
    obtain ⟨-, waits, -⟩ := exchange.targets _ rfl q List.mem_cons_self
    have active : (g.proc q).state ≠ .enabling := by
      rcases waits with state | state <;> simp [state]
    have awake : (g.proc q).state ≠ .initial := by
      rcases waits with state | state <;> simp [state]
    simp only [execReady, if_neg active, Result.all_call, Settled, Globals.appendFrom,
      Globals.appendLink_eq]
    have others : ∀ r, r ≠ q → ((g.setState q .waiting).setState q .ready).proc r = g.proc r :=
      fun r other => by rw [Globals.setState_of_ne _ _ other, Globals.setState_of_ne _ _ other]
    have here : ((g.setState q .waiting).setState q .ready).proc q =
        { g.proc q with state := .ready } := by
      simp [Globals.setState, Globals.setProc]
    refine inv.step q (initialised_congr rfl rfl) others (fun kind => ?_)
      (List.forall_mem_cons.mpr ⟨alive, fun a mem => inv.acts a (List.mem_cons_of_mem _ mem)⟩)
      (fun _ => ?_) (fun r _ straight => ?_) ?_
    · rw [Globals.enqueue_proc, Globals.enter_proc, here]
      exact kind.setState (Or.inl awake) .ready
    · rw [Globals.enqueue_proc, Globals.enter_proc, here]
      rintro -
      obtain ⟨plain, cause⟩ := inv.procs q alive waits
      exact ⟨plain, cause.imp_right fun straight => straight_cons.mpr
        (Or.inr ((straight_cons.mp straight).resolve_left (by simp [Act.goesOn])))⟩
    · exact straight_cons.mpr
        (Or.inr ((straight_cons.mp straight).resolve_left (by simp [Act.goesOn])))
    · rintro _ ⟨⟩
      trivial
  | appended =>
    have current : g.current = some p := coherent.1
    have held : initialised (.ready q .appended :: .schedule base p (.readying executes) :: under) g p
        = true := holds.held p (by simp [Act.holds])
    have state : (g.proc p).state ≠ .initial := by
      have fits := exchange.phase _ (List.mem_cons_of_mem _ List.mem_cons_self)
      intro initial
      cases executes <;> simp [Act.Fits, SchedulePc.states, initial] at fits
    -- both have the common priority, or the one made ready is the idle process
    have level : (g.proc q).pri ≤ (g.proc p).pri := by
      rcases inv.kinds p held with ⟨-, own⟩ | ⟨-, -, initial⟩
      · rcases inv.kinds q alive with ⟨-, same⟩ | ⟨-, idle, -⟩
        · rw [own, same]
        · rw [idle]
          exact Nat.zero_le _
      · exact absurd initial state
    simp only [execReady, current]
    split
    · omega
    · rw [Result.all_ret, settled_of_not_queueing (orderly.caller _), returnTo_unit]
      exact inv.ret rfl rfl rfl rfl back
  | scheduling prev => exact alive.elim

end Scheduler

/-! ## Alternation -/

section Alternating

variable {w : Wiring} {pri : Nat} {rest : List Act} {g g' : Globals} {p : Addr}

/-- A guard that is passed in enabling is not a skip. -/
theorem Alternation.Skipless.cons {alt : Alternation} {i : Nat} {guards : List Nat}
    (skipless : alt.Skipless guards) (other : (alt.guards i).active = true →
      (alt.guards i).kind ≠ .skip) : alt.Skipless (i :: guards) := by
  intro j mem active
  rcases List.mem_cons.mp mem with rfl | earlier
  · exact other active
  · exact skipless j earlier active

/-- An active guard is plain. -/
theorem Alternation.Plain.kind {alt : Alternation} {i : Nat} (plain : alt.Plain p)
    (inside : i < alt.nrGuards) (active : (alt.guards i).active = true) :
    (alt.guards i).kind = .skip ∨ (∃ c, Listens alt c i) ∨ ∃ c, Sends alt c i := by
  have guard := plain i inside
  cases kind : (alt.guards i).kind with
  | chanin c dest len => exact Or.inr (Or.inl ⟨c, .of_kind kind active⟩)
  | chanout c src => exact Or.inr (Or.inr ⟨c, .of_kind kind active⟩)
  | skip => exact Or.inl rfl
  | timeout t =>
    have whole : alt.guards i = ⟨.timeout t, true⟩ := by rw [← kind, ← active]
    rw [whole] at guard
    cases guard
  | interrupt x dest =>
    have whole : alt.guards i = ⟨.interrupt x dest, true⟩ := by rw [← kind, ← active]
    rw [whole] at guard
    cases guard

/-- Without a partner the index does not matter. -/
theorem Alternation.Settles.reindex {alt alt' : Alternation} {waiting : ChanId → Option Addr}
    {left : List Nat} (settles : alt.Settles waiting p left none) (same : alt'.guards = alt.guards) :
    alt'.Settles waiting p left none := by
  unfold Alternation.Settles Listens at settles ⊢
  rw [same]
  rcases settles with ⟨none, alone⟩ | ⟨inputs, -⟩
  · exact Or.inl ⟨none, alone⟩
  · exact Or.inr ⟨inputs, fun some => absurd rfl some⟩

/-- A step of `enable_alt` that leaves the processes alone. -/
theorem Cooperating.enableSilent {pc pc' : EnablePc} (inv : Cooperating pri (.enableAlt p pc :: rest) g)
    (proc : g'.proc = g.proc) (log : allocated g'.log = allocated g.log)
    (steady : (Act.enableAlt p pc').Steady g' rest) :
    Cooperating pri (.enableAlt p pc' :: rest) g' :=
  inv.next proc log rfl trivial rfl steady

theorem execEnableAlt_cooperating {pc : EnablePc} (orderly : Orderly (.enableAlt p pc :: rest))
    (current : g.current = some p) (holds : Holds (.enableAlt p pc :: rest) g)
    (plains : plainGuards .run ⟨.enableAlt p pc :: rest, g, none⟩ = true)
    (exchange : Rendezvous w (.enableAlt p pc :: rest) g)
    (inv : Cooperating pri (.enableAlt p pc :: rest) g) :
    (execEnableAlt p pc g).All (Settled (Cooperating pri)) rest := by
  obtain ⟨base, under, rfl⟩ := (orderly.stacked.1 : Admitted (.enableAlt p) rest).caller_of_enableAlt
  have steady := inv.steady _ rfl
  obtain ⟨ok, -⟩ := exchange.focus _ rfl
  cases pc with
  | enter =>
    have plain : (g.proc p).alt.Plain p := fun i inside =>
      List.all_eq_true.mp plains i (List.mem_range.mpr inside)
    have none : (g.proc p).alt.Skipless [] := fun j mem => absurd mem List.not_mem_nil
    simp only [execEnableAlt]
    split
    · trivial
    · split
      · exact inv.enableSilent rfl rfl ⟨plain, none⟩
      · split
        · trivial
        · exact inv.enableSilent rfl rfl ⟨plain, none⟩
  | loop i k partner =>
    obtain ⟨plain, skipless⟩ := steady
    obtain ⟨wired, most, first, listed, -⟩ := ok
    simp only [execEnableAlt]
    split
    · rename_i more
      have positive : 0 < (g.proc p).alt.nrGuards := Nat.zero_lt_of_lt more
      have inside := first positive
      have within : ∀ j ∈ i :: downFrom (g.proc p).alt.nrGuards
          (minus1Mod i (g.proc p).alt.nrGuards) k, j < (g.proc p).alt.nrGuards := by
        intro j mem
        rcases List.mem_cons.mp mem with rfl | earlier
        · exact inside
        · exact lt_of_mem_downFrom (minus1Mod_lt positive) earlier
      -- the guard is passed
      have pass : ∀ partner' g', g'.proc = g.proc → allocated g'.log = allocated g.log →
          ((g.proc p).alt.guards i).active = false ∨ ((g.proc p).alt.guards i).kind ≠ .skip →
          Cooperating pri (.enableAlt p (.loop (plus1Mod i (g.proc p).alt.nrGuards) (k + 1) partner') ::
            .schedule base p .enabling :: under) g' := by
        intro partner' g' proc log other
        refine inv.enableSilent proc log ?_
        simp only [Act.Steady, proc]
        refine ⟨plain, ?_⟩
        rw [downFrom_plus1Mod inside]
        refine skipless.cons fun active => other.resolve_left ?_
        rw [active]
        simp
      split
      · rename_i active
        split
        · rename_i c dest len kind
          have listens : Listens (g.proc p).alt c i := Listens.of_kind kind active
          have other : ((g.proc p).alt.guards i).kind ≠ .skip := by simp [kind]
          have enabled := (g.emit (.enabled p i)).disable.waiting_enableChannelInput current c
          rcases enabled with ⟨v, fst, -⟩ | ⟨fst, -⟩
          · simp only [fst]
            refine inv.enableSilent rfl rfl ⟨plain, ?_⟩
            exact Alternation.settles_of_skipless wired plain (skipless.cons fun _ => other) within
          · simp only [fst]
            exact pass _ _ rfl rfl (Or.inr other)
        · rename_i c src kind
          exact pass _ _ rfl rfl (Or.inr (by simp [kind]))
        · rename_i kind
          refine inv.enableSilent rfl rfl ⟨plain, Or.inl ⟨rfl, fun j mem c listens v here => ?_⟩⟩
          rcases List.mem_cons.mp mem with rfl | earlier
          · obtain ⟨dest, len, guard⟩ := listens
            cases (congrArg Guard.kind guard).symm.trans kind
          · have own := listed.here j earlier c (Or.inl listens)
            exact Option.some.inj (here.symm.trans own)
        · rename_i t kind
          rcases plain.kind inside active with skip | ⟨c, dest, len, guard⟩ | ⟨c, src, guard⟩
          · exact absurd (kind.symm.trans skip) (by simp)
          · rw [guard] at kind
            cases kind
          · rw [guard] at kind
            cases kind
        · rename_i x dest kind
          rcases plain.kind inside active with skip | ⟨c, dest, len, guard⟩ | ⟨c, src, guard⟩
          · exact absurd (kind.symm.trans skip) (by simp)
          · rw [guard] at kind
            cases kind
          · rw [guard] at kind
            cases kind
      · rename_i inactive
        exact pass _ _ rfl rfl (Or.inl (by simpa using inactive))
    · rename_i all
      split
      · trivial
      · rename_i some
        have whole : k = (g.proc p).alt.nrGuards := by omega
        refine inv.enableSilent rfl rfl ⟨plain, fun j mem => skipless j ?_⟩
        rw [whole]
        exact mem_downFrom_all (minus1Mod_lt (by omega)) (List.mem_range.mp mem)
  | insert i k t partner => exact steady.elim
  | done i k found partner =>
    obtain ⟨wired, below, inside, -⟩ := ok
    obtain ⟨plain, rest'⟩ := steady
    have index : toUint8 i = i := toUint8_of_lt wired.small inside
    have count : toUint8 k = k := toUint8_of_lt wired.small below
    have state : (g.proc p).state = .enabling := by
      simpa [Act.Fits, SchedulePc.states] using
        exchange.phase _ (List.mem_cons_of_mem _ List.mem_cons_self)
    simp only [execEnableAlt, index, count, Result.all_ret]
    let alt := { (g.proc p).alt with index := i, count := k }
    have own : (g.setAlt p alt).proc p = { g.proc p with alt := alt } := Function.update_self ..
    have acts : ∀ a ∈ Act.schedule base p (.enabled found partner) :: under, a.Cooperates pri
        (fun q => initialised (.enableAlt p (.done i k found partner) ::
          .schedule base p .enabling :: under) g q = true) := by
      refine List.forall_mem_cons.mpr ⟨trivial, fun a mem => inv.acts a ?_⟩
      exact List.mem_cons_of_mem _ (List.mem_cons_of_mem _ mem)
    refine inv.step p (initialised_congr rfl rfl) (fun q other => Function.update_of_ne other _ _)
      (fun kind => ?_) acts (fun _ states => ?_) (fun q _ straight => ?_) ?_
    · rw [own]
      exact kind
    · rw [own, state] at states
      simp at states
    · have below := (straight_cons.mp straight).resolve_left (by simp [Act.goesOn])
      have outer := (straight_cons.mp below).resolve_left (by simp [Act.goesOn, SchedulePc.straight])
      exact straight_cons.mpr (Or.inr outer)
    · rintro _ ⟨⟩
      change ((g.setAlt p alt).proc p).alt.Plain p ∧ if found
        then ((g.setAlt p alt).proc p).alt.Settles g.waiting p
          ((g.setAlt p alt).proc p).alt.enabledGuards none
        else ((g.setAlt p alt).proc p).alt.Skipless
          (List.range ((g.setAlt p alt).proc p).alt.nrGuards)
      rw [show ((g.setAlt p alt).proc p).alt = alt from Globals.setAlt_alt_self g p alt]
      refine ⟨plain, ?_⟩
      cases found with
      | true => exact Alternation.Settles.reindex rest' rfl
      | false => exact rest'

/-- A guard is visited in disabling. -/
theorem Cooperating.visit {i left index : Nat} {partner : Option Addr} {pc : DisablePc}
    (inv : Cooperating pri (.disableAlt p pc :: rest) g)
    (proc : g'.proc = (g.setAlt p { (g.proc p).alt with index := index }).proc)
    (log : allocated g'.log = allocated g.log)
    (settles : { (g.proc p).alt with index := index }.Settles g'.waiting p
      (downFrom (g.proc p).alt.nrGuards i left) partner) :
    Cooperating pri (.disableAlt p (.loop i left partner) :: rest) g' := by
  have own : g'.proc p = { g.proc p with alt := { (g.proc p).alt with index := index } } := by
    rw [proc]
    exact Function.update_self ..
  have straight : ∀ q, Straight (.disableAlt p pc :: rest) q →
      Straight (.disableAlt p (.loop i left partner) :: rest) q := fun q straight =>
    straight_cons.mpr (Or.inr ((straight_cons.mp straight).resolve_left (by simp [Act.goesOn])))
  refine inv.step p (initialised_congr log rfl) (fun q other => ?_) (fun kind => ?_)
    (List.forall_mem_cons.mpr ⟨trivial, fun a mem => inv.acts a (List.mem_cons_of_mem _ mem)⟩)
    (fun alive states => ?_) (fun q _ => straight q) ?_
  · rw [proc]
    exact Function.update_of_ne other _ _
  · rw [own]
    exact kind
  · rw [own] at states ⊢
    obtain ⟨plain, cause⟩ := inv.procs p alive states
    exact ⟨plain, cause.imp id (straight p)⟩
  · rintro _ ⟨⟩
    change (g'.proc p).alt.Settles g'.waiting p (downFrom (g'.proc p).alt.nrGuards i left) partner
    rw [own]
    exact settles

/-- A guard is passed that is not an input with a sender. -/
theorem Alternation.Settles.pass {alt : Alternation} {waiting waiting' : ChanId → Option Addr}
    {i index : Nat} {left : List Nat} {partner : Option Addr}
    (settles : alt.Settles waiting p (i :: left) partner)
    (senders : ∀ c v, waiting' c = some v → waiting c = some v)
    (same : ((alt.guards i).active = true → (alt.guards i).kind.isChanin = true) →
      index = alt.index) :
    { alt with index := index }.Settles waiting' p left partner := by
  rcases settles with ⟨none, alone⟩ | ⟨inputs, chosen⟩
  · refine Or.inl ⟨none, fun j mem c listens v here => ?_⟩
    exact alone j (List.mem_cons_of_mem _ mem) c listens v (senders c v here)
  · rw [same fun active => inputs i List.mem_cons_self active]
    exact Or.inr ⟨fun j mem => inputs j (List.mem_cons_of_mem _ mem), chosen⟩

/-- An input with a sender is selected. -/
theorem Alternation.Settles.found {alt : Alternation} {waiting : ChanId → Option Addr}
    {i : Nat} {left : List Nat} {partner : Option Addr} {c : ChanId} {v : Addr}
    (settles : alt.Settles waiting p (i :: left) partner) (listens : Listens alt c i)
    (here : waiting c = some v) (other : v ≠ p) :
    { alt with index := i }.Settles waiting p left (some v) := by
  rcases settles with ⟨-, alone⟩ | ⟨inputs, -⟩
  · exact absurd (alone i List.mem_cons_self c listens v here) other
  · refine Or.inr ⟨fun j mem => inputs j (List.mem_cons_of_mem _ mem), fun _ => ?_⟩
    exact inputs i List.mem_cons_self listens.active

theorem execDisableAlt_cooperating {pc : DisablePc} (orderly : Orderly (.disableAlt p pc :: rest))
    (current : g.current = some p) (holds : Holds (.disableAlt p pc :: rest) g)
    (exchange : Rendezvous w (.disableAlt p pc :: rest) g)
    (inv : Cooperating pri (.disableAlt p pc :: rest) g) :
    (execDisableAlt p pc g).All (Settled (Cooperating pri)) rest := by
  obtain ⟨base, under, rfl⟩ :=
    (orderly.stacked.1 : Admitted (.disableAlt p) rest).caller_of_disableAlt
  have alive : initialised (.disableAlt p pc :: .schedule base p .disabling :: under) g p = true :=
    holds.held p (by simp [Act.holds])
  have small := exchange.small p alive
  have ok := exchange.focus _ rfl
  have steady := inv.steady _ rfl
  -- a return to `schedule`
  have back : ∀ partner g', g'.proc = g.proc → allocated g'.log = allocated g.log →
      Cooperating pri (.schedule base p (.disabled partner) :: under) g' := by
    intro partner g' proc log
    refine inv.silent proc (initialised_congr log rfl) ?_ (fun q straight => Or.inl ?_) ?_
    · refine List.forall_mem_cons.mpr ⟨trivial, fun a mem => inv.acts a ?_⟩
      exact List.mem_cons_of_mem _ (List.mem_cons_of_mem _ mem)
    · have below := (straight_cons.mp straight).resolve_left (by simp [Act.goesOn])
      have parts : (Act.schedule base p .disabling).goesOn = some q ∨ Straight under q :=
        straight_cons.mp below
      exact straight_cons.mpr parts
    · rintro _ ⟨⟩
      trivial
  cases pc with
  | enter => exact inv.next rfl rfl rfl trivial rfl steady
  | loop i left partner =>
    obtain ⟨wired, index, inside, -, choice⟩ := ok
    cases left with
    | zero =>
      simp only [execDisableAlt]
      split
      · rename_i c dest len kind
        have state : (g.proc p).state = .ready := by
          simpa [Act.Fits, SchedulePc.states] using
            exchange.phase _ (List.mem_cons_of_mem _ List.mem_cons_self)
        have plain := (inv.procs p alive (Or.inr state)).1 _ index
        refine inv.next rfl rfl rfl trivial rfl ?_
        rcases choice with ⟨-, ⟨j, mem, -⟩ | ⟨j, mem, -⟩⟩ | ⟨-, harmless⟩ | ⟨d, v, listens, -⟩
        · cases mem
        · cases mem
        · rw [kind] at harmless
          cases harmless
        · obtain ⟨dest', len', guard⟩ := listens
          rw [guard] at kind plain
          cases kind
          intro ptr mem
          obtain rfl : dest = some ptr := mem
          simpa [Guard.plain] using plain
      · exact back partner _ rfl rfl
      · exact back partner _ rfl rfl
    | succ left =>
      have positive : 0 < (g.proc p).alt.nrGuards := Nat.zero_lt_of_lt inside
      have stored : toUint8 i = i := toUint8_of_lt small inside
      have settles : (g.proc p).alt.Settles g.waiting p
          (i :: downFrom (g.proc p).alt.nrGuards (minus1Mod i (g.proc p).alt.nrGuards) left)
          partner := steady
      -- a guard without an input is passed
      have passed : ∀ (ready : Bool) g', g'.proc = (g.setAlt p { (g.proc p).alt with
          index := if ready then toUint8 i else (g.proc p).alt.index }).proc →
          g'.waiting = g.waiting → allocated g'.log = allocated g.log →
          ((g.proc p).alt.guards i).active = true →
          ((g.proc p).alt.guards i).kind.isChanin = false →
          Cooperating pri (.disableAlt p (.loop (minus1Mod i (g.proc p).alt.nrGuards) left partner) ::
            .schedule base p .disabling :: under) g' := by
        intro ready g' proc waiting log active other
        refine inv.visit proc log ?_
        rw [waiting]
        refine settles.pass (fun c v here => here) fun inputs => ?_
        rw [inputs active] at other
        cases other
      simp only [execDisableAlt, if_neg positive.ne']
      split
      · rename_i active
        split
        · rename_i c dest len kind
          have listens : Listens (g.proc p).alt c i := Listens.of_kind kind active
          let visited := (g.emit (.visit p i ((g.proc p).alt.guards i).kind
            (((g.proc p).alt.guards i).active && g.branchReady p i))).disable
          have disabled := visited.waiting_disableChannelInput current c
          rw [show visited.waiting = g.waiting from rfl] at disabled
          rcases disabled with ⟨v, fst, waits, apart, snd⟩ | ⟨fst, free, snd⟩
          · simp only [Result.all_next, show ((g.emit _).disable.disableChannelInput c).1 = some v from
              fst, Option.some_or, Option.isSome_some, if_true, stored]
            refine inv.visit rfl rfl ?_
            have found := settles.found listens waits apart
            rw [← show (visited.disableChannelInput c).2.enable.waiting = g.waiting from snd] at found
            exact found
          · simp only [Result.all_next, show ((g.emit _).disable.disableChannelInput c).1 = none from
              fst, Option.none_or, Option.isSome_none]
            refine inv.visit rfl rfl (settles.pass (fun d v here => ?_) fun _ => rfl)
            have there : Function.update g.waiting c none d = some v :=
              (congrFun (show (visited.disableChannelInput c).2.enable.waiting = _ from snd) d).symm.trans
                here
            rcases eq_or_ne d c with rfl | ne
            · rw [Function.update_self] at there
              cases there
            · rw [Function.update_of_ne ne] at there
              exact there
        · rename_i c src kind
          exact passed true _ rfl rfl rfl active (by rw [kind]; rfl)
        · rename_i kind
          exact passed true _ rfl rfl rfl active (by rw [kind]; rfl)
        · rename_i t kind
          exact passed _ _ rfl rfl rfl active (by rw [kind]; rfl)
        · rename_i x dest kind
          exact passed _ _ rfl rfl rfl active (by rw [kind]; rfl)
      · rename_i inactive
        refine inv.next rfl rfl rfl trivial rfl ?_
        exact settles.pass (fun c v here => here) fun _ => rfl
  | copy c dest len partner =>
    simp only [execDisableAlt]
    split
    · trivial
    · exact inv.next rfl rfl rfl trivial rfl trivial
  | clear c partner => exact back partner _ rfl rfl

end Alternating

/-! ## Application code -/

section Application

variable {w : Wiring} {pri : Nat} {rest : List Act} {g g' : Globals} {p : Addr}

/-- The process that executes changes its own record. -/
theorem Cooperating.store (inv : Cooperating pri (.rtc p :: rest) g)
    (others : ∀ q, q ≠ p → g'.proc q = g.proc q) (log : allocated g'.log = allocated g.log)
    (kind : (g.proc p).OfKind pri → (g'.proc p).OfKind pri)
    (state : (g'.proc p).state = .initial ∨ (g'.proc p).state = .quiescent ∨
      (g'.proc p).state = .done) : Cooperating pri (.rtc p :: rest) g' := by
  refine inv.step p (initialised_congr log rfl) others kind inv.acts (fun _ states => ?_)
    (fun q _ straight => straight) ?_
  · rcases state with state | state | state <;> simp [state] at states
  · rintro _ ⟨⟩
    trivial

theorem execUser_cooperating {op : Op} {act : Act} (orderly : Orderly (act :: rest))
    (coherent : CurrentInv (act :: rest) g) (holds : Holds (act :: rest) g)
    (starts : startsFromMain pri (.user op) ⟨act :: rest, g, none⟩ = true)
    (exchange : Rendezvous w (act :: rest) g) (inv : Cooperating pri (act :: rest) g) :
    (execUser op act g).All (Settled (Cooperating pri)) rest := by
  unfold execUser
  split
  · rename_i p
    split
    · rename_i user
      obtain ⟨current, -⟩ := coherent
      have held : p ∈ rest.filterMap Act.holds := by
        obtain ⟨base, under, rfl | rfl⟩ := (orderly.stacked.1 : Admitted (.rtc p) rest).caller_of_rtc
        · exact List.mem_cons_self
        · exact List.mem_cons_self
      obtain ⟨state, -⟩ := exchange.executing orderly (holds.held p held)
      -- a silent step
      have next : ∀ g', g'.proc = g.proc → allocated g'.log = allocated g.log →
          Cooperating pri (.rtc p :: rest) g' :=
        fun g' proc log => inv.next proc log rfl trivial rfl trivial
      -- a store into the ALT record
      have alter : ∀ g' alt, g'.proc = (g.setAlt p alt).proc → allocated g'.log = allocated g.log →
          Cooperating pri (.rtc p :: rest) g' := by
        intro g' alt proc log
        have own : g'.proc p = { g.proc p with alt := alt } := by
          rw [proc]
          exact Function.update_self ..
        refine inv.store (fun q other => ?_) log (fun kind => ?_) ?_
        · rw [proc]
          exact Function.update_of_ne other _ _
        · rw [own]
          exact kind
        · rw [own]
          exact state
      cases op with
      | ret =>
        rw [userRtc, Result.all_ret, settled_of_not_queueing (orderly.caller _), returnTo_unit]
        refine inv.ret rfl rfl rfl rfl fun caller top => ?_
        obtain ⟨base, under, rfl | rfl⟩ := (orderly.stacked.1 : Admitted (.rtc p) rest).caller_of_rtc
        · cases top
          exact user
        · cases top
          trivial
      | terminate =>
        simp only [userRtc, current]
        refine inv.store (fun q other => Globals.setState_of_ne g _ other) rfl (fun kind => ?_)
          (Or.inr (Or.inr (g.setState_state_self p .done)))
        have own : (g.setState p .done).proc p = { g.proc p with state := .done } :=
          Function.update_self ..
        change ((g.setState p .done).proc p).OfKind pri
        rw [own]
        exact kind.setState (Or.inr user) .done
      | start args => cases starts
      | initAlt size =>
        simp only [userRtc, current]
        exact alter _ _ rfl rfl
      | initAltPri size =>
        simp only [userRtc, current]
        exact alter _ _ rfl rfl
      | initGuard i kind =>
        simp only [userRtc]
        split
        · trivial
        · exact alter _ _ rfl rfl
      | initTimeoutGuard i t time => exact alter _ _ rfl rfl
      | setActive i active => exact alter _ _ rfl rfl
      | assign v bytes => exact next _ rfl rfl
      | connect x intrno =>
        simp only [userRtc]
        split
        · exact next _ rfl rfl
        · trivial
      | disconnect intrno =>
        simp only [userRtc]
        split
        · exact next _ rfl rfl
        · trivial
      | error why => trivial
    · trivial
  · cases op with
    | ret => exact inv.call rfl rfl rfl rfl trivial trivial rfl trivial
    | start args =>
      have level : args.pri = pri := of_decide_eq_true starts
      exact inv.call rfl rfl rfl rfl trivial level rfl trivial
    | connect x intrno =>
      simp only [userMain]
      split
      · exact inv.next rfl rfl rfl trivial rfl trivial
      · trivial
    | _ => trivial
  · trivial

end Application

/-! ## Runs -/

section Runs

variable {w : Wiring} {pri : Nat}

/-- What the conditions say. -/
theorem cooperative_parts {label : Label} {s : State} (allowed : cooperative w pri label s = true) :
    withoutInterrupts label s = true ∧ startsFromMain pri label s = true ∧
      plainGuards label s = true ∧ pointToPoint w label s = true := by
  simp only [cooperative, Bool.and_eq_true] at allowed
  exact ⟨allowed.1.1.1, allowed.1.1.2, allowed.1.2, allowed.2⟩

/-- What is known of the rendezvous. -/
def Exchanging (w : Wiring) (stack : List Act) (g : Globals) : Prop :=
  Unsignalled stack ∧ Ranked stack g ∧ Settled (Rendezvous w) stack g

/-- The queues hold no process that is in progress. -/
def Owning (stack : List Act) (g : Globals) : Prop := ∃ s, Implements s stack g ∧ s.Owned

theorem exec_cooperating {act : Act} {rest : List Act} {g : Globals}
    (other : queueing (act :: rest) = false)
    (allowed : cooperative w pri .run ⟨act :: rest, g, none⟩ = true)
    (exchanging : Exchanging w (act :: rest) g) (inv : Cooperating pri (act :: rest) g) :
    (exec act g).All (Settled (Cooperating pri)) rest := by
  obtain ⟨free, ranked, settled⟩ := exchanging
  have ranks := ranked.ranks other
  have exchange := (settled_of_not_queueing other).mp settled
  have below : Unsignalled rest := fun a mem => free a (List.mem_cons_of_mem _ mem)
  cases act with
  | main pc => exact execMain_cooperating ranks.orderly (fun _ _ _ => ranks.fresh) inv
  | select base pc => exact execSelect_cooperating ranks.orderly free inv
  | schedule base p pc =>
    exact execSchedule_cooperating ranks.orderly ranks.holds free exchange inv
  | take level pc => cases other
  | append p pc => cases other
  | start args pc => exact execStart_cooperating ranks.orderly (fun _ _ _ => ranks.fresh) inv
  | rtc p => trivial
  | enableAlt p pc =>
    exact execEnableAlt_cooperating ranks.orderly ranks.coherent.1 ranks.holds
      (cooperative_parts allowed).2.2.1 exchange inv
  | disableAlt p pc =>
    exact execDisableAlt_cooperating ranks.orderly ranks.coherent.1 ranks.holds exchange inv
  | ready q pc => exact execReady_cooperating ranks.orderly ranks.holds free ranks.coherent exchange inv
  | signal intr saved pc => exact absurd rfl (free _ List.mem_cons_self)
  | timeoutHandler pc => exact (below.no_handler ranks.orderly.stacked.1 (Or.inl rfl)).elim
  | userHandler intrsrc => exact (below.no_handler ranks.orderly.stacked.1 (Or.inr rfl)).elim

/-- Without interrupts none disturbs a queue operation. -/
theorem undisturbed_of_withoutInterrupts {label : Label} {s : State}
    (uninterrupted : withoutInterrupts label s = true) : undisturbed label s = true := by
  cases label with
  | interrupt intr => cases uninterrupted
  | _ => rfl

/-- Cooperation is kept where the rendezvous is. -/
theorem cooperating_kept : Kept
    (fun label s => cooperative w pri label s = true ∧ Exchanging w s.stack s.g)
    (Settled (Cooperating pri)) := by
  refine Kept.settled (fun label s known => ?_) ?_ ?_ ?_ ?_
  · exact ⟨undisturbed_of_withoutInterrupts (cooperative_parts known.1).1,
      known.2.2.1.orderly.stacked⟩
  · exact fun act rest g other known inv => exec_cooperating other known.1 known.2 inv
  · rintro op act rest g ⟨allowed, free, ranked, settled⟩ inv
    have user : queueing (act :: rest) = false →
        (execUser op act g).All (Settled (Cooperating pri)) rest := by
      intro other
      have ranks := ranked.ranks other
      exact execUser_cooperating ranks.orderly ranks.coherent ranks.holds
        (cooperative_parts allowed).2.1 ((settled_of_not_queueing other).mp settled) inv
    cases act with
    | take level pc => trivial
    | append p pc => trivial
    | _ => exact user rfl
  · intro intr stack g known
    cases (cooperative_parts known.1).1
  · exact fun t stack g inv => ⟨inv.kinds, inv.acts, inv.procs, inv.steady⟩

/-- No process in progress is queued. -/
theorem owning_kept : Kept (fun label s => (cooperative w pri label s = true ∧
    Exchanging w s.stack s.g) ∧ Settled (Cooperating pri) s.stack s.g) (Settled Owning) := by
  refine Kept.scheduled Sched.Owned Sched.MayReady ?_ (fun s owned => owned.toLeveled)
    (fun s a owned possible may => owned.safe possible may)
    (fun s a owned possible may => owned.next possible may) ?_
  · rintro label s ⟨⟨allowed, -, ranked, -⟩, -⟩
    exact ⟨undisturbed_of_withoutInterrupts (cooperative_parts allowed).1, ranked.orderly,
      terminatesItself_of_coherent ranked.coherent⟩
  · rintro label stack g s ⟨-, settled⟩ - impl
    obtain ⟨queue, free, rep, rfl⟩ := impl
    unfold action
    split
    · rename_i act rest same
      obtain rfl : stack = act :: rest := same
      unfold Act.action
      split
      case h_9 q =>
        have inv : Cooperating pri (.ready q .test :: rest) g := settled
        exact ⟨live_view.mpr (inv.acts _ List.mem_cons_self),
          fun held => absurd held (inv.steady _ rfl)⟩
      all_goals first | trivial | (split <;> trivial)
    · unfold Op.action
      split <;> trivial
    · trivial

/-- Where no process in progress is queued, a released record is in no queue. -/
theorem releasesUnqueued_of_owning {label : Label} {s : State}
    (owning : Settled Owning s.stack s.g) : ReleasesUnqueued label s := by
  obtain ⟨stack, g, stopped⟩ := s
  unfold ReleasesUnqueued
  split
  · rename_i base p rest same
    obtain rfl : stack = _ := same
    obtain ⟨s, ⟨queue, free, rep, rfl⟩, owned⟩ := owning
    rintro - cells chain mem
    rw [chain.unique (rep.fifo (g.proc p).pri).chain] at mem
    exact owned.idle _ p mem List.mem_cons_self
  · trivial

/-- `disable_alt` serves the sender that it returns. -/
theorem Cooperating.serves {label : Label} {s : State}
    (settled : Settled (Cooperating pri) s.stack s.g) : servesPartner label s = true := by
  obtain ⟨stack, g, stopped⟩ := s
  unfold servesPartner
  split
  · rename_i p i v rest same
    obtain rfl : stack = _ := same
    have inv : Cooperating pri (.disableAlt p (.loop i 0 (some v)) :: rest) g := settled
    have settles : (g.proc p).alt.Settles g.waiting p [] (some v) := inv.steady _ rfl
    rcases settles with ⟨none, -⟩ | ⟨-, chosen⟩
    · cases none
    · exact chosen (by simp)
  · rfl

/-- What is known of cooperative runs. -/
structure Cooperative (w : Wiring) (pri : Nat) (stack : List Act) (g : Globals) : Prop where
  /-- The processes stand in the channels as their states say. -/
  exchanging : Exchanging w stack g
  /-- One process is in progress at a time. -/
  cooperating : Settled (Cooperating pri) stack g
  /-- It is not queued. -/
  owning : Settled Owning stack g

theorem cooperative_kept (w : Wiring) (pri : Nat) :
    Kept (fun label s => cooperative w pri label s = true) (Cooperative w pri) := by
  have left : Kept (fun label s => cooperative w pri label s = true ∧
      (Settled (Cooperating pri) s.stack s.g ∧ Settled Owning s.stack s.g)) (Exchanging w) := by
    refine (rendezvous_kept w).given fun label s known _ => ?_
    obtain ⟨uninterrupted, -, -, wired⟩ := cooperative_parts known.1
    exact ⟨uninterrupted, wired, Cooperating.serves known.2.1, releasesUnqueued_of_owning known.2.2⟩
  refine (left.mutual (cooperating_kept.and owning_kept)).iff fun stack g => ?_
  exact ⟨fun known => ⟨known.1, known.2.1, known.2.2⟩,
    fun known => ⟨known.exchanging, known.cooperating, known.owning⟩⟩

/-- After `sched_init` there is nobody. -/
theorem cooperative_start {arena memlen : Nat} {g : Globals} {handlers : Nat → Option Handler}
    (pristine : Pristine g) : Cooperative w pri [.main .idleAlloc] { g with
      mem := g.mem.memoryInit arena memlen, interruptHandler := handlers } := by
  have nobody : ∀ q, initialised [.main .idleAlloc] { g with
      mem := g.mem.memoryInit arena memlen, interruptHandler := handlers } q = true → False := by
    intro q known
    simp [initialised, pristine.log, allocated] at known
  refine ⟨⟨by simp [Unsignalled, Act.callee], ranked_start pristine, rendezvous_start w pristine⟩,
    ?_, ?_⟩
  · constructor
    · exact fun q known => (nobody q known).elim
    · exact List.forall_mem_cons.mpr ⟨trivial, fun a mem => absurd mem List.not_mem_nil⟩
    · exact fun q known => (nobody q known).elim
    · rintro _ ⟨⟩
      trivial
  · refine scheduled_init (fun s vacant => ?_) pristine
    exact (Sched.Vacant.exact vacant).toOwned

end Runs

end Microcsp
