import Microcsp.Programs
import Microcsp.Transfers

/-!
# Lagging behind the moves

A cooperative run makes the moves of its network. A process moves when its output is offered and when its
input is copied, and the execution after that comes later. What the process will be after the executions
and calls that are due is its state in the network of the moves: a step of the machine that transfers
nothing leaves it as it is. As an output is a rendezvous, a process moves only when what it has offered
before was copied.
-/

open Library

namespace Microcsp

/-! ## Phases -/

/-- Where a process is between its executions. -/
inductive Phase where
  /-- Its initial execution is due. -/
  | fresh
  /-- It is executed. -/
  | running
  /-- It has been executed. -/
  | resting
  /-- It is in an ALT and has transferred nothing. -/
  | waiting
  /-- It has made its output or input, and the execution after that is due. -/
  | passed
  deriving DecidableEq

/-- One of these guards is an active output. -/
def Alternation.outputs (alt : Alternation) (guards : List Nat) : Bool :=
  guards.any fun i => (alt.guards i).active && ((alt.guards i).kind matches .chanout ..)

/-- Where a process is in an ALT, when these guards have been enabled. -/
def Alternation.phase (alt : Alternation) (guards : List Nat) : Phase :=
  if alt.outputs guards then .passed else .waiting

/-- Where a process is that `schedule` has not come to. -/
def Process.phase (proc : Process) : Phase :=
  match proc.state with
  | .initial => .fresh
  | .waiting | .ready => proc.alt.phase (List.range proc.alt.nrGuards)
  | _ => .resting

/-- Where a process is whose ALT is being enabled. -/
def EnablePc.phase (alt : Alternation) : EnablePc → Phase
  | .enter => .resting
  | .loop i k _ => alt.phase (downFrom alt.nrGuards (minus1Mod i alt.nrGuards) k)
  | .insert _ _ _ _ => .waiting
  | .done _ _ _ _ => alt.phase (List.range alt.nrGuards)

/-- Where a process is at a point of `schedule`, if its state does not tell. -/
def SchedulePc.phase (alt : Alternation) : SchedulePc → Option Phase
  | .initial => some .resting
  | .enabled _ _ => some (alt.phase (List.range alt.nrGuards))
  | .disabled _ | .partner _ true | .readying true | .execute true => some .passed
  | _ => none

/-- Where an activation has the process. -/
def Act.phase (proc : Process) (q : Addr) : Act → Option Phase
  | .rtc p => if p = q then some .running else none
  | .enableAlt p pc => if p = q then some (pc.phase proc.alt) else none
  | .disableAlt p (.clear _ _) => if p = q then some .passed else none
  | .schedule _ p pc => if p = q then pc.phase proc.alt else none
  | _ => none

/-- Where the process is. -/
def phaseOf (stack : List Act) (proc : Process) (q : Addr) : Phase :=
  (stack.findSome? (Act.phase proc q)).getD proc.phase

/-- What a process will be when the calls that are due have been made. -/
def Program.settle (program : Program) (todo : List Op) (l : Local) : Phase → Local
  | .fresh => program.execute l none
  | .running => l.performs todo
  | .resting | .waiting => l
  | .passed => program.execute l l.only

/-! ## The relation -/

/-- The process has one active guard, an input or output of its own. -/
def Network.Regular {K : Type} [DecidableEq K] (net : Network K) (k : K) (p : Addr)
    (guards : Nat → Guard) (n : Nat) : Prop :=
  ∃ i, onlyActive guards n = some i ∧ net.communicates k p (guards i) = true

/-- `main` has called `run`, and no process is being started. -/
def Act.Later : Act → Prop
  | .main pc => pc = .running
  | .start _ _ => False
  | _ => True

/-- What is about to be copied is the input of the selected guard. -/
def Act.Copying (g : Globals) : Act → Prop
  | .disableAlt p (.copy c dest len _) =>
    (g.guard p (g.proc p).alt.index).kind = .chanin c dest len
  | _ => True

section Lags

variable {K : Type} [DecidableEq K] (net : Network K)

/-- The machine is where the network of the moves is, but for what is due. -/
structure Lags (roster : Roster K) (x : Dataflow.State K ChanId Buffer (Nat × Buffer) Local)
    (stack : List Act) (g : Globals) : Prop where
  /-- `main` has called `run`. -/
  later : ∀ act ∈ stack, act.Later
  /-- The input about to be copied. -/
  copying : ∀ act ∈ stack.head?, act.Copying g
  /-- The programs of the processes are known. -/
  known : ∀ p, initialised stack g p = true → (g.proc p).rtc = .user → ∃ k, roster.runs p = some k
  /-- Each process has its own program. -/
  single : ∀ p q k, roster.runs p = some k → roster.runs q = some k → p = q
  /-- The idle process has none. -/
  user : ∀ p k, initialised stack g p = true → roster.runs p = some k → (g.proc p).rtc = .user
  /-- The processes. -/
  own : ∀ p k, initialised stack g p = true → roster.runs p = some k →
    x.own k = (net.program k).settle roster.todo (g.own p) (phaseOf stack (g.proc p) p)
  /-- The ALTs. -/
  regular : ∀ p k, initialised stack g p = true → roster.runs p = some k →
    phaseOf stack (g.proc p) p = .waiting ∨ phaseOf stack (g.proc p) p = .passed →
      net.Regular k p (g.guard p) (g.proc p).alt.nrGuards
  /-- What was offered was put into the channels. -/
  puts : ∀ c, x.puts c = offers g.log c
  /-- What was copied was taken out of them. -/
  gets : ∀ c, x.gets c = copies g.log c

/-- The channels lead from record to record as they lead from program to program. -/
def Fits (roster : Roster K) (w : Wiring) : Prop :=
  ∀ p k, roster.runs p = some k → ∀ c,
    (net.writer c = k → w.writer c = p) ∧ (net.reader c = k → w.reader c = p)

/-- The machine lags behind the moves that were made. -/
def Simulated (roster : Roster K) (stack : List Act) (g : Globals) : Prop :=
  ∃ x, Run net.moves.step net.moves.Prompt net.initially x ∧ Lags net roster x stack g

end Lags

/-! ## Steps in general -/

section General

variable {K : Type} [DecidableEq K] {net : Network K} {roster roster' : Roster K}
  {x x' : Dataflow.State K ChanId Buffer (Nat × Buffer) Local} {stack stack' rest : List Act}
  {act act' callee : Act} {g g' : Globals}

theorem phaseOf_cons (proc : Process) (q : Addr) :
    phaseOf (act :: rest) proc q = (act.phase proc q).getD (phaseOf rest proc q) := by
  unfold phaseOf
  rw [List.findSome?_cons]
  cases act.phase proc q <;> rfl

/-- The code of the processes, and what it sees, is the same. -/
structure SameCode (g g' : Globals) (q : Addr) : Prop where
  /-- The code. -/
  rtc : (g'.proc q).rtc = (g.proc q).rtc
  /-- The guards. -/
  guards : (g'.proc q).alt.guards = (g.proc q).alt.guards
  /-- Their number. -/
  count : (g'.proc q).alt.nrGuards = (g.proc q).alt.nrGuards
  /-- The variables. -/
  vars : g'.vars q = g.vars q

theorem SameCode.guard {q : Addr} (same : SameCode g g' q) : g'.guard q = g.guard q :=
  funext fun i => congrFun same.guards i

theorem SameCode.own {q : Addr} (same : SameCode g g' q) : g'.own q = g.own q := by
  simp only [Globals.own, Globals.locals, same.guard, same.count, same.vars]

/-- Nothing that the code sees has changed. -/
theorem SameCode.of_proc {q : Addr} (proc : g'.proc q = g.proc q) (vars : g'.vars q = g.vars q) :
    SameCode g g' q := ⟨by rw [proc], by rw [proc], by rw [proc], vars⟩

/-- Where an activation has a process depends on the guards. -/
theorem Act.phase_congr {proc proc' : Process} (guards : proc'.alt.guards = proc.alt.guards)
    (count : proc'.alt.nrGuards = proc.alt.nrGuards) (q : Addr) :
    act.phase proc' q = act.phase proc q := by
  have alts : ∀ list, proc'.alt.phase list = proc.alt.phase list := fun list => by
    unfold Alternation.phase Alternation.outputs
    rw [guards]
  have enable : ∀ pc : EnablePc, pc.phase proc'.alt = pc.phase proc.alt := fun pc => by
    cases pc <;> simp only [EnablePc.phase, alts, count]
  have schedule : ∀ pc : SchedulePc, pc.phase proc'.alt = pc.phase proc.alt := fun pc => by
    unfold SchedulePc.phase
    split <;> simp only [alts, count]
  unfold Act.phase
  split <;> simp only [enable, schedule]

/-- Where a process is depends on its guards, and on its state. -/
theorem phaseOf_congr {proc proc' : Process} (guards : proc'.alt.guards = proc.alt.guards)
    (count : proc'.alt.nrGuards = proc.alt.nrGuards) (state : proc'.phase = proc.phase) (q : Addr) :
    phaseOf stack proc' q = phaseOf stack proc q := by
  unfold phaseOf
  rw [state, show Act.phase proc' q = Act.phase proc q from
    funext fun act => Act.phase_congr guards count q]

/-- A step that moves one process at most. -/
theorem Lags.move (inv : Lags net roster x stack g) (p : Addr) (later : ∀ act ∈ stack', act.Later)
    (copying : ∀ act ∈ stack'.head?, act.Copying g') (runs : roster'.runs = roster.runs)
    (life : ∀ q, initialised stack' g' q = true → initialised stack g q = true)
    (others : ∀ q, q ≠ p → initialised stack g q = true → SameCode g g' q ∧
      phaseOf stack' (g'.proc q) q = phaseOf stack (g.proc q) q ∧
        (roster'.todo = roster.todo ∨ phaseOf stack (g.proc q) q ≠ .running))
    (code : (g'.proc p).rtc = (g.proc p).rtc)
    (own : ∀ k, initialised stack' g' p = true → roster.runs p = some k →
      x'.own k = (net.program k).settle roster'.todo (g'.own p) (phaseOf stack' (g'.proc p) p))
    (apart : ∀ k, roster.runs p ≠ some k → x'.own k = x.own k)
    (regular : ∀ k, initialised stack' g' p = true → roster.runs p = some k →
      phaseOf stack' (g'.proc p) p = .waiting ∨ phaseOf stack' (g'.proc p) p = .passed →
        net.Regular k p (g'.guard p) (g'.proc p).alt.nrGuards)
    (puts : ∀ c, x'.puts c = offers g'.log c) (gets : ∀ c, x'.gets c = copies g'.log c) :
    Lags net roster' x' stack' g' where
  later := later
  copying := copying
  known q alive code' := by
    rw [runs]
    refine inv.known q (life q alive) ?_
    rcases eq_or_ne q p with rfl | other
    · rw [← code]
      exact code'
    · rw [← (others q other (life q alive)).1.rtc]
      exact code'
  single q r k here there := by
    rw [runs] at here there
    exact inv.single q r k here there
  user q k alive here := by
    rw [runs] at here
    have before := inv.user q k (life q alive) here
    rcases eq_or_ne q p with rfl | other
    · rw [code]
      exact before
    · rw [(others q other (life q alive)).1.rtc]
      exact before
  own q k alive here := by
    rw [runs] at here
    rcases eq_or_ne q p with rfl | other
    · exact own k alive here
    · obtain ⟨same, phase, todo⟩ := others q other (life q alive)
      have before := inv.own q k (life q alive) here
      rw [apart k fun there => other (inv.single q p k here there), before, same.own, phase]
      rcases todo with todo | idle
      · rw [todo]
      · cases phased : phaseOf stack (g.proc q) q with
        | running => exact absurd phased idle
        | _ => rfl
  regular q k alive here phased := by
    rw [runs] at here
    rcases eq_or_ne q p with rfl | other
    · exact regular k alive here phased
    · obtain ⟨same, phase, -⟩ := others q other (life q alive)
      rw [phase] at phased
      rw [same.guard, same.count]
      exact inv.regular q k (life q alive) here phased
  puts := puts
  gets := gets

/-- A step that moves none. -/
theorem Lags.step (inv : Lags net roster x stack g) (later : ∀ act ∈ stack', act.Later)
    (copying : ∀ act ∈ stack'.head?, act.Copying g')
    (life : ∀ q, initialised stack' g' q = true → initialised stack g q = true)
    (same : ∀ q, initialised stack g q = true → SameCode g g' q)
    (phase : ∀ q, initialised stack g q = true →
      phaseOf stack' (g'.proc q) q = phaseOf stack (g.proc q) q)
    (log : SameTransfers g.log g'.log) : Lags net roster x stack' g' where
  later := later
  copying := copying
  known q alive code := by
    rw [(same q (life q alive)).rtc] at code
    exact inv.known q (life q alive) code
  single := inv.single
  user q k alive here := by
    rw [(same q (life q alive)).rtc]
    exact inv.user q k (life q alive) here
  own q k alive here := by
    rw [(same q (life q alive)).own, phase q (life q alive)]
    exact inv.own q k (life q alive) here
  regular q k alive here phased := by
    rw [phase q (life q alive)] at phased
    rw [(same q (life q alive)).guard, (same q (life q alive)).count]
    exact inv.regular q k (life q alive) here phased
  puts c := (inv.puts c).trans (log c).1.symm
  gets c := (inv.gets c).trans (log c).2.1.symm

/-- A step that leaves the processes and their variables alone. -/
theorem Lags.silent (inv : Lags net roster x stack g) (proc : g'.proc = g.proc)
    (vars : g'.vars = g.vars) (log : SameTransfers g.log g'.log)
    (life : ∀ q, initialised stack' g' q = initialised stack g q)
    (later : ∀ act ∈ stack', act.Later) (copying : ∀ act ∈ stack'.head?, act.Copying g')
    (phase : ∀ proc q, phaseOf stack' proc q = phaseOf stack proc q) :
    Lags net roster x stack' g' := by
  refine inv.step later copying (fun q alive => (life q).symm.trans alive) (fun q _ => ?_)
    (fun q _ => ?_) log
  · exact .of_proc (congrFun proc q) (congrFun vars q)
  · rw [proc]
    exact phase _ q

/-- A silent step to another point of the same activation. -/
theorem Lags.next (inv : Lags net roster x (act :: rest) g) (proc : g'.proc = g.proc)
    (vars : g'.vars = g.vars) (log : SameTransfers g.log g'.log)
    (alive : allocated g'.log = allocated g.log) (reserves : act'.reserves = act.reserves)
    (later : act'.Later) (copying : act'.Copying g')
    (phase : ∀ proc q, act'.phase proc q = act.phase proc q) :
    Lags net roster x (act' :: rest) g' := by
  refine inv.silent proc vars log (initialised_congr alive ?_) ?_ ?_ fun proc q => ?_
  · simp only [List.filterMap_cons, reserves]
  · exact List.forall_mem_cons.mpr ⟨later, fun a mem => inv.later a (List.mem_cons_of_mem _ mem)⟩
  · rintro _ ⟨⟩
    exact copying
  · rw [phaseOf_cons, phaseOf_cons, phase]

/-- A silent call. -/
theorem Lags.call (inv : Lags net roster x (act :: rest) g) (proc : g'.proc = g.proc)
    (vars : g'.vars = g.vars) (log : SameTransfers g.log g'.log)
    (alive : allocated g'.log = allocated g.log) (reserves : act'.reserves = act.reserves)
    (none : callee.reserves = none) (later : act'.Later) (later' : callee.Later)
    (copying : callee.Copying g') (phase : ∀ proc q, act'.phase proc q = act.phase proc q)
    (phase' : ∀ proc q, callee.phase proc q = Option.none) :
    Lags net roster x (callee :: act' :: rest) g' := by
  refine inv.silent proc vars log (initialised_congr alive ?_) ?_ ?_ fun proc q => ?_
  · simp only [List.filterMap_cons, reserves, none]
  · exact List.forall_mem_cons.mpr ⟨later', List.forall_mem_cons.mpr
      ⟨later, fun a mem => inv.later a (List.mem_cons_of_mem _ mem)⟩⟩
  · rintro _ ⟨⟩
    exact copying
  · rw [phaseOf_cons, phaseOf_cons, phaseOf_cons, phase, phase']
    rfl

/-- A silent return to a caller. -/
theorem Lags.ret (inv : Lags net roster x (act :: rest) g) (proc : g'.proc = g.proc)
    (vars : g'.vars = g.vars) (log : SameTransfers g.log g'.log)
    (alive : allocated g'.log = allocated g.log) (reserves : act.reserves = none)
    (copying : ∀ caller ∈ rest.head?, caller.Copying g')
    (phase : ∀ proc q, act.phase proc q = Option.none) : Lags net roster x rest g' := by
  refine inv.silent proc vars log (initialised_congr alive ?_)
    (fun a mem => inv.later a (List.mem_cons_of_mem _ mem)) copying fun proc q => ?_
  · simp only [List.filterMap_cons, reserves]
  · rw [phaseOf_cons, phase]
    rfl

end General

/-! ## The scheduler -/

section Scheduler

variable {K : Type} [DecidableEq K] {net : Network K} {roster : Roster K}
  {x : Dataflow.State K ChanId Buffer (Nat × Buffer) Local} {w : Wiring} {pri : Nat}
  {rest : List Act} {g g' : Globals}

theorem phaseOf_main (proc : Process) (q : Addr) :
    phaseOf [.main .running] proc q = proc.phase := rfl

/-- Where `schedule` has its process, and where the others are. -/
theorem phaseOf_schedule {base : Int} {p : Addr} {pc : SchedulePc} (proc : Process) (q : Addr) :
    phaseOf [.schedule base p pc, .main .running] proc q =
      if p = q then (pc.phase proc.alt).getD proc.phase else proc.phase := by
  rw [phaseOf_cons, phaseOf_main]
  by_cases same : p = q
  · simp only [Act.phase, if_pos same]
  · simp only [Act.phase, if_neg same, Option.getD_none]

/-- The state of a process is not seen by its code. -/
theorem SameCode.of_state {q : Addr} {state : PState} (proc : g'.proc q = { g.proc q with state := state })
    (vars : g'.vars q = g.vars q) : SameCode g g' q :=
  ⟨by rw [proc], by rw [proc], by rw [proc], vars⟩

theorem execSelect_lags {base : Int} {pc : SelectPc}
    (orderly : Orderly (.select base pc :: rest)) (inv : Lags net roster x (.select base pc :: rest) g)
    (bottom : rest = [.main .running]) :
    (execSelect base pc g).All (Settled (Lags net roster x)) rest := by
  cases pc with
  | top => exact inv.next rfl rfl (.refl _) rfl rfl trivial trivial fun _ _ => rfl
  | chosen highest =>
    simp only [execSelect]
    split
    · rw [Result.all_ret, settled_of_not_queueing (orderly.caller _), returnTo_unit]
      subst bottom
      refine inv.ret rfl rfl (.refl _) rfl rfl ?_ fun _ _ => rfl
      rintro _ ⟨⟩
      trivial
    · simp only [Result.all_call, Settled, Globals.takeFrom, Globals.takeHead_eq]
      cases head : (g.readyQ highest).head with
      | none =>
        simp only [Globals.enter_readyQ, head]
        exact inv.next rfl rfl (.refl _) rfl rfl trivial trivial fun _ _ => rfl
      | some p =>
        simp only [Globals.enter_readyQ, head]
        exact inv.next rfl rfl (fun _ => ⟨rfl, rfl, rfl⟩) rfl rfl trivial trivial fun _ _ => rfl
  | taking => trivial
  | took r =>
    cases r with
    | none => trivial
    | some p =>
      subst bottom
      refine inv.silent rfl rfl (.refl _) (initialised_congr rfl rfl) ?_ ?_ fun proc q => ?_
      · exact List.forall_mem_cons.mpr ⟨trivial, fun a mem => inv.later a (List.mem_cons_of_mem _ mem)⟩
      · rintro _ ⟨⟩
        trivial
      · rw [phaseOf_schedule, phaseOf_cons]
        exact ite_self _

/-- The state of the process of `schedule` changes. -/
theorem Lags.setState {base : Int} {p : Addr} {pc pc' : SchedulePc} {state : PState}
    (inv : Lags net roster x (.schedule base p pc :: rest) g) (bottom : rest = [.main .running])
    (proc : g'.proc = (g.setState p state).proc) (vars : g'.vars = g.vars)
    (log : SameTransfers g.log g'.log) (alive : allocated g'.log = allocated g.log)
    (phase : (pc'.phase (g.proc p).alt).getD { g.proc p with state := state : Process }.phase =
      (pc.phase (g.proc p).alt).getD (g.proc p).phase) :
    Lags net roster x (.schedule base p pc' :: rest) g' := by
  subst bottom
  have here : g'.proc p = { g.proc p with state := state } := by
    rw [proc]
    exact Function.update_self ..
  have there : ∀ q, q ≠ p → g'.proc q = g.proc q := fun q other => by
    rw [proc]
    exact Function.update_of_ne other _ _
  refine inv.step ?_ ?_ (fun q known => ?_) (fun q _ => ?_) (fun q _ => ?_) log
  · exact List.forall_mem_cons.mpr ⟨trivial, fun a mem => inv.later a (List.mem_cons_of_mem _ mem)⟩
  · rintro _ ⟨⟩
    trivial
  · rw [← known]
    exact initialised_congr alive.symm rfl q
  · rcases eq_or_ne q p with rfl | other
    · exact .of_state here (congrFun vars q)
    · exact .of_proc (there q other) (congrFun vars q)
  · rw [phaseOf_schedule, phaseOf_schedule]
    rcases eq_or_ne q p with rfl | other
    · rw [if_pos rfl, if_pos rfl, here]
      exact phase
    · rw [if_neg other.symm, if_neg other.symm, there q other]

/-- Where the executing process is, and where the others are. -/
theorem phaseOf_rtc {base : Int} {p : Addr} {pc : SchedulePc} (proc : Process) (q : Addr) :
    phaseOf [.rtc p, .schedule base p pc, .main .running] proc q =
      if p = q then .running else proc.phase := by
  rw [phaseOf_cons, phaseOf_schedule]
  by_cases same : p = q
  · simp only [Act.phase, if_pos same, Option.getD_some]
  · simp only [Act.phase, if_neg same, Option.getD_none]

/-- No process is executed without `schedule`. -/
theorem Process.phase_ne_running (proc : Process) : proc.phase ≠ .running := by
  unfold Process.phase Alternation.phase
  repeat' split
  all_goals simp

/-- An execution begins. -/
theorem Lags.begin {base : Int} {p : Addr} {pc pc' : SchedulePc} {selected : Option Nat} {e : Event}
    (inv : Lags net roster x [.schedule base p pc, .main .running] g)
    (alive : initialised [.schedule base p pc, .main .running] g p = true)
    (due : ∀ k, roster.runs p = some k → (net.program k).settle roster.todo (g.own p)
      ((pc.phase (g.proc p).alt).getD (g.proc p).phase) = (net.program k).execute (g.own p) selected)
    (offered : ∀ c, offers (e :: g.log) c = offers g.log c)
    (copied : ∀ c, copies (e :: g.log) c = copies g.log c)
    (same : allocated (e :: g.log) = allocated g.log) : Lags net { roster with todo := net.execution roster g p selected } x
      [.rtc p, .schedule base p pc', .main .running] (g.emit e) := by
  refine inv.move p ?_ ?_ rfl (fun q known => ?_) (fun q other _ => ?_) rfl (fun k _ here => ?_)
    (fun _ _ => rfl) (fun k _ _ phased => ?_) (fun c => (inv.puts c).trans (offered c).symm)
    (fun c => (inv.gets c).trans (copied c).symm)
  · exact List.forall_mem_cons.mpr ⟨trivial, List.forall_mem_cons.mpr
      ⟨trivial, fun a mem => inv.later a (List.mem_cons_of_mem _ mem)⟩⟩
  · rintro _ ⟨⟩
    trivial
  · rw [← known]
    exact initialised_congr same.symm rfl q
  · refine ⟨.of_proc rfl rfl, ?_, Or.inr ?_⟩
    · rw [phaseOf_rtc, phaseOf_schedule, if_neg other.symm, if_neg other.symm]
      rfl
    · rw [phaseOf_schedule, if_neg other.symm]
      exact Process.phase_ne_running _
  · have before := inv.own p k alive here
    rw [phaseOf_schedule, if_pos rfl, due k here] at before
    rw [before, phaseOf_rtc, if_pos rfl]
    simp only [Program.settle, Network.execution, here]
    rfl
  · rw [phaseOf_rtc, if_pos rfl] at phased
    simp at phased

/-- The only active guard is the active one. -/
theorem onlyActive_eq {guards : Nat → Guard} {n i j : Nat} (only : onlyActive guards n = some i)
    (inside : j < n) (active : (guards j).active = true) : j = i := by
  unfold onlyActive at only
  split at only
  · rename_i found list
    have mem : j ∈ (List.range n).filter fun i => (guards i).active :=
      List.mem_filter.mpr ⟨List.mem_range.mpr inside, active⟩
    rw [list, List.mem_singleton] at mem
    rw [mem, Option.some.inj only]
  · cases only

/-- It is active, and one of the guards. -/
theorem onlyActive_spec {guards : Nat → Guard} {n i : Nat} (only : onlyActive guards n = some i) :
    i < n ∧ (guards i).active = true := by
  unfold onlyActive at only
  split at only
  · rename_i found list
    obtain rfl := Option.some.inj only
    have mem : found ∈ (List.range n).filter fun i => (guards i).active := by
      rw [list]
      exact List.mem_singleton_self _
    exact ⟨List.mem_range.mp (List.mem_of_mem_filter mem), (List.mem_filter.mp mem).2⟩
  · cases only

/-- What a process sees of its guards does not change which of them is active. -/
theorem Globals.own_only (g : Globals) (p : Addr) :
    (g.own p).only = onlyActive (g.guard p) (g.proc p).alt.nrGuards := rfl

/-- `enable_alt` is called. -/
theorem Lags.enter {base : Int} {p : Addr}
    (inv : Lags net roster x [.schedule base p .enabling, .main .running] g)
    (state : (g.proc p).state = .enabling) :
    Lags net roster x [.enableAlt p .enter, .schedule base p .enabling, .main .running] g := by
  refine inv.step ?_ ?_ (fun q known => known) (fun q _ => .of_proc rfl rfl) (fun q _ => ?_) (.refl _)
  · exact List.forall_mem_cons.mpr ⟨trivial, inv.later⟩
  · rintro _ ⟨⟩
    trivial
  · rw [phaseOf_cons]
    by_cases same : p = q
    · subst same
      rw [phaseOf_schedule, if_pos rfl]
      simp only [Act.phase, if_true, EnablePc.phase, Option.getD_some, SchedulePc.phase,
        Option.getD_none, Process.phase, state]
    · simp only [Act.phase, if_neg same, Option.getD_none]

/-- A process that has terminated gives up its record. -/
theorem Lags.release {base : Int} {p : Addr} {mem : Memory}
    (inv : Lags net roster x [.schedule base p .finish, .main .running] g) :
    Lags net roster x [.select base .top, .main .running]
      ({ g.disable with mem := mem }.enable.emit (.release p)) := by
  refine inv.step ?_ ?_ (fun q known => ?_) (fun q _ => .of_proc rfl rfl) (fun q _ => ?_)
    (fun _ => ⟨rfl, rfl, rfl⟩)
  · exact List.forall_mem_cons.mpr ⟨trivial, fun a mem => inv.later a (List.mem_cons_of_mem _ mem)⟩
  · rintro _ ⟨⟩
    trivial
  · by_cases same : p = q
    · simp [initialised, allocated, same] at known
    · simpa [initialised, allocated, same, Act.reserves] using known
  · rw [phaseOf_schedule, phaseOf_cons]
    exact (ite_self _).symm

/-- `schedule` makes no move. -/
theorem execSchedule_lags {base : Int} {p : Addr} {pc : SchedulePc}
    (holds : Holds (.schedule base p pc :: rest) g) (bottom : rest = [.main .running])
    (exchange : Rendezvous w (.schedule base p pc :: rest) g)
    (picked : (Act.schedule base p pc).Picked w g)
    (inv : Lags net roster x (.schedule base p pc :: rest) g) :
    (execSchedule base p pc g).All
      (Settled (Lags net (net.note ⟨.schedule base p pc :: rest, g, none⟩ roster) x)) rest := by
  have alive : initialised (.schedule base p pc :: rest) g p = true :=
    holds.held p (by simp [Act.holds])
  have fits : (g.proc p).state ∈ pc.states := exchange.phase _ List.mem_cons_self
  subst bottom
  cases pc with
  | top => exact inv.next rfl rfl (.refl _) rfl rfl trivial trivial fun _ _ => rfl
  | dispatch state =>
    cases state with
    | initial =>
      have state : (g.proc p).state = .initial := by simpa [SchedulePc.states] using fits
      refine inv.begin alive (fun k _ => ?_) (fun _ => rfl) (fun _ => rfl) rfl
      simp only [SchedulePc.phase, Option.getD_none, Process.phase, state, Program.settle]
    | quiescent =>
      have state : (g.proc p).state = .quiescent := by simpa [SchedulePc.states] using fits
      have entered : Lags net roster x [.schedule base p .enabling, .main .running]
          ((g.setState p .enabling).emit (.enable p)) := by
        refine inv.setState rfl rfl rfl (fun _ => ⟨rfl, rfl, rfl⟩) rfl ?_
        simp only [SchedulePc.phase, Option.getD_none, Process.phase, state]
      exact entered.enter (g.setState_state_self p .enabling)
    | ready =>
      exact inv.call rfl rfl (fun _ => ⟨rfl, rfl, rfl⟩) rfl rfl rfl trivial trivial trivial
        (fun _ _ => rfl) fun _ _ => rfl
    | waiting => exact inv.next rfl rfl (.refl _) rfl rfl trivial trivial fun _ _ => rfl
    | enabling => cases fits
    | done => cases fits
  | initial =>
    have state : (g.proc p).state = .initial ∨ (g.proc p).state = .done := by
      simpa [SchedulePc.states] using fits
    exact inv.setState rfl rfl rfl (.refl _) rfl rfl
  | enabling => trivial
  | enabled found partner =>
    have state : (g.proc p).state = .enabling := by simpa [SchedulePc.states] using fits
    simp only [execSchedule, PState.afterEnabling, state, if_true]
    refine inv.setState rfl rfl rfl (.refl _) rfl ?_
    cases found <;> rfl
  | branch state partner =>
    simp only [execSchedule]
    split
    · exact inv.call rfl rfl (fun _ => ⟨rfl, rfl, rfl⟩) rfl rfl rfl trivial trivial trivial
        (fun _ _ => rfl) fun _ _ => rfl
    · exact inv.next rfl rfl (.refl _) rfl rfl trivial trivial fun _ _ => rfl
  | disabling => trivial
  | disabled partner => exact inv.setState rfl rfl rfl (.refl _) rfl rfl
  | partner partner executes =>
    cases partner with
    | none =>
      refine inv.next rfl rfl (.refl _) rfl rfl trivial trivial fun _ _ => ?_
      cases executes <;> rfl
    | some q =>
      refine inv.call rfl rfl (fun _ => ⟨rfl, rfl, rfl⟩) rfl rfl rfl trivial trivial trivial
        (fun _ _ => ?_) fun _ _ => rfl
      cases executes <;> rfl
  | readying executes =>
    refine inv.next rfl rfl (.refl _) rfl rfl trivial trivial fun _ _ => ?_
    cases executes <;> rfl
  | execute executes =>
    cases executes with
    | false => exact inv.next rfl rfl (.refl _) rfl rfl trivial trivial fun _ _ => rfl
    | true =>
      have picks : Picks w p (g.proc p).alt := picked
      refine inv.begin alive (fun k here => ?_) (fun _ => rfl) (fun _ => rfl) rfl
      obtain ⟨i, only, -⟩ := inv.regular p k alive here (Or.inr (by
        rw [phaseOf_schedule, if_pos rfl]
        rfl))
      simp only [SchedulePc.phase, Option.getD_some, Program.settle, Globals.own_only, only,
        onlyActive_eq only picks.inside picks.active]
  | executing => exact inv.next rfl rfl (.refl _) rfl rfl trivial trivial fun _ _ => rfl
  | finish =>
    simp only [execSchedule, Globals.disable_proc]
    split
    · exact inv.release
    · exact inv.next rfl rfl (.refl _) rfl rfl trivial trivial fun _ _ => (ite_self _).symm
    · exact inv.next rfl rfl (.refl _) rfl rfl trivial trivial fun _ _ => rfl

/-- A process that waits is made ready. -/
theorem execReady_lags {q : Addr} {pc : ReadyPc} (orderly : Orderly (.ready q pc :: rest))
    (exchange : Rendezvous w (.ready q pc :: rest) g)
    (copying : ∀ caller ∈ rest.head?, ∀ g, caller.Copying g)
    (unscheduled : ∀ prev, pc ≠ .scheduling prev)
    (inv : Lags net roster x (.ready q pc :: rest) g) :
    (execReady q pc g).All (Settled (Lags net roster x)) rest := by
  cases pc with
  | test =>
    obtain ⟨-, waits, -⟩ := exchange.targets _ rfl q List.mem_cons_self
    have active : (g.proc q).state ≠ .enabling := by
      rcases waits with state | state <;> simp [state]
    simp only [execReady, if_neg active, Result.all_call, Settled, Globals.appendFrom,
      Globals.appendLink_eq]
    let after := ((((g.setState q .waiting).setState q .ready).enter .append).enqueue q)
    have others : ∀ r, r ≠ q → after.proc r = g.proc r := fun r other =>
      (Globals.setState_of_ne _ _ other).trans (Globals.setState_of_ne _ _ other)
    have here : after.proc q = { g.proc q with state := .ready } := by
      simp [after, Globals.setState, Globals.setProc]
    refine inv.step ?_ ?_ (fun r known => known) (fun r _ => ?_) (fun r _ => ?_)
      fun _ => ⟨rfl, rfl, rfl⟩
    · exact List.forall_mem_cons.mpr ⟨trivial, fun a mem => inv.later a (List.mem_cons_of_mem _ mem)⟩
    · rintro _ ⟨⟩
      trivial
    · rcases eq_or_ne r q with rfl | other
      · exact .of_state here rfl
      · exact .of_proc (others r other) rfl
    · rw [phaseOf_cons, phaseOf_cons]
      rcases eq_or_ne r q with rfl | other
      · change phaseOf rest (after.proc r) r = phaseOf rest (g.proc r) r
        have same : Process.phase { g.proc r with state := .ready } = (g.proc r).phase := by
          rcases waits with state | state <;> simp only [Process.phase, state]
        rw [here]
        refine phaseOf_congr ?_ ?_ same r
        · rfl
        · rfl
      · change phaseOf rest (after.proc r) r = phaseOf rest (g.proc r) r
        rw [others r other]
  | appended =>
    simp only [execReady]
    split
    · trivial
    · split
      · exact inv.call rfl rfl (fun _ => ⟨rfl, rfl, rfl⟩) rfl rfl rfl trivial trivial trivial
          (fun _ _ => rfl) fun _ _ => rfl
      · rw [Result.all_ret, settled_of_not_queueing (orderly.caller _), returnTo_unit]
        exact inv.ret rfl rfl (.refl _) rfl rfl (fun caller top => copying caller top _)
          fun _ _ => rfl
  | scheduling prev => exact absurd rfl (unscheduled prev)

end Scheduler

/-! ## Alternation -/

section Alternating

variable {K : Type} [DecidableEq K] {net : Network K} {roster : Roster K}
  {x : Dataflow.State K ChanId Buffer (Nat × Buffer) Local} {w : Wiring} {pri : Nat}
  {rest : List Act} {g g' : Globals} {p : Addr}

/-- Where `enable_alt` has its process, and where the others are. -/
theorem phaseOf_enableAlt {base : Int} {pc : EnablePc} (proc : Process) (q : Addr) :
    phaseOf [.enableAlt p pc, .schedule base p .enabling, .main .running] proc q =
      if p = q then pc.phase proc.alt else proc.phase := by
  rw [phaseOf_cons, phaseOf_schedule]
  by_cases same : p = q
  · simp only [Act.phase, if_pos same, Option.getD_some]
  · simp only [Act.phase, if_neg same, Option.getD_none]

/-- A step of `enable_alt` that moves nothing. -/
theorem Lags.enable {base : Int} {pc pc' : EnablePc}
    (inv : Lags net roster x [.enableAlt p pc, .schedule base p .enabling, .main .running] g)
    (proc : g'.proc = g.proc) (vars : g'.vars = g.vars) (log : SameTransfers g.log g'.log)
    (alive : allocated g'.log = allocated g.log)
    (phase : pc'.phase (g.proc p).alt = pc.phase (g.proc p).alt) :
    Lags net roster x [.enableAlt p pc', .schedule base p .enabling, .main .running] g' := by
  refine inv.step ?_ ?_ (fun q known => ?_) (fun q _ => ?_) (fun q _ => ?_) log
  · exact List.forall_mem_cons.mpr ⟨trivial, fun a mem => inv.later a (List.mem_cons_of_mem _ mem)⟩
  · rintro _ ⟨⟩
    trivial
  · rw [← known]
    exact initialised_congr alive.symm rfl q
  · exact .of_proc (congrFun proc q) (congrFun vars q)
  · rw [proc, phaseOf_enableAlt, phaseOf_enableAlt]
    by_cases same : p = q
    · subst same
      rw [if_pos rfl, if_pos rfl, phase]
    · rw [if_neg same, if_neg same]

/-- An ALT with one active guard begins. -/
theorem Lags.check {base : Int} {pc : EnablePc}
    (inv : Lags net roster x [.enableAlt p .enter, .schedule base p .enabling, .main .running] g)
    (alive : initialised [.enableAlt p .enter, .schedule base p .enabling, .main .running] g p = true)
    (regular : ∀ k, roster.runs p = some k → net.Regular k p (g.guard p) (g.proc p).alt.nrGuards)
    (phase : pc.phase (g.proc p).alt = .waiting) :
    Lags net roster x [.enableAlt p pc, .schedule base p .enabling, .main .running] g := by
  refine inv.move p ?_ ?_ rfl (fun q known => known) (fun q other _ => ?_) rfl (fun k _ here => ?_)
    (fun _ _ => rfl) (fun k _ here _ => regular k here) inv.puts inv.gets
  · exact List.forall_mem_cons.mpr ⟨trivial, fun a mem => inv.later a (List.mem_cons_of_mem _ mem)⟩
  · rintro _ ⟨⟩
    trivial
  · refine ⟨.of_proc rfl rfl, ?_, Or.inl rfl⟩
    rw [phaseOf_enableAlt, phaseOf_enableAlt, if_neg other.symm, if_neg other.symm]
  · rw [inv.own p k alive here, phaseOf_enableAlt, phaseOf_enableAlt, if_pos rfl, if_pos rfl, phase]
    rfl

/-- A guard with pointers to the variables of its process is known from what the process sees. -/
theorem communicates_cases {k : K} {guard : Guard} (regular : net.communicates k p guard = true)
    (active : guard.active = true) :
    (∃ c dest len, guard = ⟨.chanin c dest len, true⟩ ∧ net.reader c = k ∧
      ∀ ptr ∈ dest, ptr.proc = p) ∨
    ∃ c src, guard = ⟨.chanout c src, true⟩ ∧ net.writer c = k ∧ ∀ ptr ∈ src, ptr.proc = p := by
  obtain ⟨kind, _⟩ := guard
  cases active
  cases kind with
  | chanin c dest len =>
    simp only [Network.communicates, Guard.plain, Bool.and_eq_true, decide_eq_true_eq] at regular
    refine Or.inl ⟨c, dest, len, rfl, regular.2, fun ptr mem => ?_⟩
    obtain rfl : dest = some ptr := mem
    simpa using regular.1
  | chanout c src =>
    simp only [Network.communicates, Guard.plain, Bool.and_eq_true, decide_eq_true_eq] at regular
    refine Or.inr ⟨c, src, rfl, regular.2, fun ptr mem => ?_⟩
    obtain rfl : src = some ptr := mem
    simpa using regular.1
  | _ => simp [Network.communicates] at regular

/-- None of these guards is an active output. -/
theorem Alternation.phase_waiting {alt : Alternation} {guards : List Nat}
    (none : ∀ j ∈ guards, ∀ c, ¬ Sends alt c j) : alt.phase guards = .waiting := by
  have silent : alt.outputs guards = false := by
    unfold outputs
    rw [List.any_eq_false]
    intro j mem output
    rw [Bool.and_eq_true] at output
    obtain ⟨active, kind⟩ := output
    split at kind
    · rename_i c src same
      exact none j mem c (.of_kind same active)
    · cases kind
  simp only [phase, silent, Bool.false_eq_true, if_false]

/-- One of them is. -/
theorem Alternation.phase_passed {alt : Alternation} {guards : List Nat} {j : Nat} {c : ChanId}
    (mem : j ∈ guards) (sends : Sends alt c j) : alt.phase guards = .passed := by
  obtain ⟨src, guard⟩ := sends
  have output : alt.outputs guards = true := by
    unfold outputs
    exact List.any_eq_true.mpr ⟨j, mem, by simp [guard]⟩
  simp only [phase, output, if_true]

/-- The guards that count are the active outputs. -/
theorem Alternation.phase_congr {alt : Alternation} {guards guards' : List Nat}
    (same : ∀ j c, Sends alt c j → (j ∈ guards' ↔ j ∈ guards)) :
    alt.phase guards' = alt.phase guards := by
  by_cases some : ∃ j ∈ guards, ∃ c, Sends alt c j
  · obtain ⟨j, mem, c, sends⟩ := some
    rw [phase_passed mem sends, phase_passed ((same j c sends).mpr mem) sends]
  · rw [phase_waiting fun j mem c sends => some ⟨j, mem, c, sends⟩,
      phase_waiting fun j mem c sends => some ⟨j, (same j c sends).mp mem, c, sends⟩]

/-- What a process sees at a pointer into its variables. -/
theorem Globals.own_read {src : Option Ptr} (own : ∀ ptr ∈ src, ptr.proc = p) :
    (g.own p).read (src.map (Ptr.localise 0)) = g.read src := by
  cases src with
  | none => rfl
  | some ptr =>
    change g.vars p ptr.var = g.vars ptr.proc ptr.var
    rw [own ptr rfl]

/-- What a process has offered was copied when it has no output under way. -/
theorem Lags.prompt {stack : List Act} {k : K} (inv : Lags net roster x stack g)
    (transfers : Transfers w stack g) (fits : Fits net roster w) (here : roster.runs p = some k)
    (silent : ∀ c, ¬ Sending stack g p c) : net.moves.Prompt k x := by
  intro c writes
  have writer : w.writer c = p := (fits p k here c).1 writes
  obtain ⟨values, cut, -, free⟩ := transfers.delivers c
  have empty : ¬ Held w stack g c := by
    intro held
    have sending := transfers.held c held
    rw [writer] at sending
    exact silent c sending
  rw [inv.puts, inv.gets, free empty, cut.length_eq]

/-- An output is offered: its process makes its move. -/
theorem Lags.offer {base : Int} {pc pc' : EnablePc} {i : Nat} {c : ChanId} {src : Option Ptr} {k : K}
    (inv : Lags net roster x [.enableAlt p pc, .schedule base p .enabling, .main .running] g)
    (alive : initialised [.enableAlt p pc, .schedule base p .enabling, .main .running] g p = true)
    (here : roster.runs p = some k)
    (only : onlyActive (g.guard p) (g.proc p).alt.nrGuards = some i)
    (guard : g.guard p i = ⟨.chanout c src, true⟩) (writes : net.writer c = k)
    (own : ∀ ptr ∈ src, ptr.proc = p) (before : pc.phase (g.proc p).alt = .waiting)
    (after : pc'.phase (g.proc p).alt = .passed) (proc : g'.proc = g.proc) (vars : g'.vars = g.vars)
    (log : g'.log = .offer c (g.read src) :: .enabled p i :: g.log) (prompt : net.moves.Prompt k x)
    (reached : Run net.moves.step net.moves.Prompt net.initially x) :
    Simulated net roster [.enableAlt p pc', .schedule base p .enabling, .main .running] g' := by
  have resting : x.own k = g.own p := by
    rw [inv.own p k alive here, phaseOf_enableAlt, if_pos rfl, before]
    rfl
  have kind : ((g.own p).guards i).kind = .chanout c (src.map (Ptr.localise 0)) := by
    change (g.guard p i).relative.kind = _
    rw [guard]
    rfl
  have move : (net.program k).move (x.own k) =
      some (.put c (g.read src) ((net.program k).execute (g.own p) (some i))) := by
    simp only [Program.move, resting, Globals.own_only, only, kind, Globals.own_read own]
  refine ⟨x.put k c (g.read src) ((net.program k).execute (g.own p) (some i)),
    reached.tail prompt (Dataflow.step_eq_some.mpr (Or.inl ⟨c, _, _, move, writes, rfl⟩)), ?_⟩
  have same : ∀ q, SameCode g g' q := fun q => .of_proc (congrFun proc q) (congrFun vars q)
  refine inv.move p ?_ ?_ rfl (fun q known => ?_) (fun q other _ => ?_) (by rw [proc])
    (fun k' _ there => ?_) (fun k' other => ?_) (fun k' _ there _ => ?_) (fun d => ?_) (fun d => ?_)
  · exact List.forall_mem_cons.mpr ⟨trivial, fun a mem => inv.later a (List.mem_cons_of_mem _ mem)⟩
  · rintro _ ⟨⟩
    trivial
  · rw [← known]
    exact initialised_congr (by rw [log]; rfl) rfl q
  · refine ⟨same q, ?_, Or.inl rfl⟩
    rw [proc, phaseOf_enableAlt, phaseOf_enableAlt, if_neg other.symm, if_neg other.symm]
  · obtain rfl := Option.some.inj (here.symm.trans there)
    rw [phaseOf_enableAlt, if_pos rfl, (same p).own, proc, after]
    simp only [Dataflow.State.put, Function.update_self, Program.settle, Globals.own_only, only]
  · refine Function.update_of_ne ?_ _ _
    rintro rfl
    exact other here
  · obtain rfl := Option.some.inj (here.symm.trans there)
    rw [(same p).guard, (same p).count]
    refine inv.regular p k alive here ?_
    rw [phaseOf_enableAlt, if_pos rfl]
    exact Or.inl before
  · rw [log]
    simp only [Dataflow.State.put, offers]
    rcases eq_or_ne d c with rfl | other
    · rw [Function.update_self, if_pos rfl, inv.puts]
    · rw [Function.update_of_ne other, if_neg other.symm, inv.puts]
  · rw [log]
    exact inv.gets d

/-- The condition on ALTs. -/
theorem regular_of_withoutChoice {s : State}
    (allowed : net.withoutChoice .machine (s, roster) = true)
    (top : s.stack = .enableAlt p .enter :: rest) :
    ∀ k, roster.runs p = some k → net.Regular k p (s.g.guard p) (s.g.proc p).alt.nrGuards := by
  intro k here
  simp only [Network.withoutChoice, top, here] at allowed
  cases only : onlyActive (s.g.guard p) (s.g.proc p).alt.nrGuards with
  | none =>
    rw [only] at allowed
    cases allowed
  | some i =>
    rw [only] at allowed
    exact ⟨i, only, allowed⟩

/-- `enable_alt` makes the move of an output. -/
theorem execEnableAlt_lags {base : Int} {pc : EnablePc}
    (alive : initialised [.enableAlt p pc, .schedule base p .enabling, .main .running] g p = true)
    (user : (g.proc p).rtc = .user)
    (allowed : net.withoutChoice .machine
      (⟨[.enableAlt p pc, .schedule base p .enabling, .main .running], g, none⟩, roster) = true)
    (exchange : Rendezvous w [.enableAlt p pc, .schedule base p .enabling, .main .running] g)
    (steady : (Act.enableAlt p pc).Steady g [.schedule base p .enabling, .main .running])
    (transfers : Transfers w [.enableAlt p pc, .schedule base p .enabling, .main .running] g)
    (fits : Fits net roster w)
    (reached : Run net.moves.step net.moves.Prompt net.initially x)
    (inv : Lags net roster x [.enableAlt p pc, .schedule base p .enabling, .main .running] g) :
    (execEnableAlt p pc g).All (Settled (Simulated net roster))
      [.schedule base p .enabling, .main .running] := by
  obtain ⟨ok, -⟩ := exchange.focus _ rfl
  obtain ⟨k, here⟩ := inv.known p alive user
  have state : (g.proc p).state = .enabling := by
    simpa [Act.Fits, SchedulePc.states] using
      exchange.phase _ (List.mem_cons_of_mem _ List.mem_cons_self)
  -- a step that moves nothing
  have silent : ∀ {pc'} g', g'.proc = g.proc → g'.vars = g.vars → SameTransfers g.log g'.log →
      allocated g'.log = allocated g.log →
      pc'.phase (g.proc p).alt = pc.phase (g.proc p).alt →
      Simulated net roster [.enableAlt p pc', .schedule base p .enabling, .main .running] g' := by
    intro pc' g' proc vars log same phase
    exact ⟨x, reached, inv.enable proc vars log same phase⟩
  cases pc with
  | enter =>
    have checked := regular_of_withoutChoice allowed rfl
    have began : ∀ i, Simulated net roster [.enableAlt p (.loop i 0 none),
        .schedule base p .enabling, .main .running] g := fun i =>
      ⟨x, reached, inv.check alive checked rfl⟩
    simp only [execEnableAlt]
    split
    · trivial
    · split
      · exact began _
      · split
        · trivial
        · exact began _
  | loop i n partner =>
    obtain ⟨wired, most, first, -, -⟩ := ok
    obtain ⟨found, only, communicates⟩ := inv.regular p k alive here (by
      rw [phaseOf_enableAlt, if_pos rfl]
      change Alternation.phase _ _ = _ ∨ Alternation.phase _ _ = _
      unfold Alternation.phase
      split <;> simp)
    obtain ⟨inside, awake⟩ := onlyActive_spec only
    have positive : 0 < (g.proc p).alt.nrGuards := Nat.zero_lt_of_lt inside
    have sole : ∀ j < (g.proc p).alt.nrGuards, ((g.proc p).alt.guards j).active = true → j = found :=
      fun j small active => onlyActive_eq only small active
    simp only [execEnableAlt]
    split
    · rename_i more
      have small := first positive
      have within : ∀ j ∈ downFrom (g.proc p).alt.nrGuards
          (minus1Mod i (g.proc p).alt.nrGuards) n, j < (g.proc p).alt.nrGuards :=
        fun j mem => lt_of_mem_downFrom (minus1Mod_lt positive) mem
      -- a guard that is no output
      have pass : (∀ c, ¬ Sends (g.proc p).alt c i) → ∀ partner',
          (EnablePc.loop (plus1Mod i (g.proc p).alt.nrGuards) (n + 1) partner').phase
            (g.proc p).alt = (EnablePc.loop i n partner).phase (g.proc p).alt := by
        intro none partner'
        simp only [EnablePc.phase, downFrom_plus1Mod small]
        refine Alternation.phase_congr fun j c sends => ?_
        rw [List.mem_cons]
        refine or_iff_right ?_
        rintro rfl
        exact none c sends
      split
      · rename_i active
        obtain rfl := sole i small active
        split
        · rename_i c dest len kind
          have listens : Listens (g.proc p).alt c i := .of_kind kind active
          have none : ∀ j < (g.proc p).alt.nrGuards, ∀ d, ¬ Sends (g.proc p).alt d j := by
            intro j inside d sends
            obtain rfl := sole j inside sends.active
            exact listens.not_sends sends
          split
          · refine silent _ rfl rfl (fun _ => ⟨rfl, rfl, rfl⟩) rfl ?_
            simp only [EnablePc.phase]
            rw [Alternation.phase_waiting fun j mem => none j (List.mem_range.mp mem),
              Alternation.phase_waiting fun j mem => none j (within j mem)]
          · exact silent _ rfl rfl (fun _ => ⟨rfl, rfl, rfl⟩) rfl
              (pass (fun d => listens.not_sends) _)
        · rename_i c src kind
          have sends : Sends (g.proc p).alt c i := .of_kind kind active
          have guard : g.guard p i = ⟨.chanout c src, true⟩ := by
            rw [← kind, ← active]
            rfl
          rcases communicates_cases communicates awake with
            ⟨d, dest, len, input, -⟩ | ⟨d, src', output, writes, own⟩
          · rw [guard] at input
            cases input
          · rw [guard] at output
            cases output
            have before : (EnablePc.loop i n partner).phase (g.proc p).alt = .waiting := by
              refine Alternation.phase_waiting fun j mem d sends => ?_
              obtain rfl := sole j (within j mem) sends.active
              exact not_mem_downFrom small more mem
            have after : ∀ partner',
                (EnablePc.loop (plus1Mod i (g.proc p).alt.nrGuards) (n + 1) partner').phase
                  (g.proc p).alt = .passed := by
              intro partner'
              simp only [EnablePc.phase, downFrom_plus1Mod small]
              exact Alternation.phase_passed List.mem_cons_self sends
            have prompt : net.moves.Prompt k x := by
              refine inv.prompt transfers fits here ?_
              rintro d ⟨-, ⟨wakes, -⟩ | ⟨a, mem, sent⟩⟩
              · simp [state] at wakes
              · rcases List.mem_cons.mp mem with rfl | mem
                · obtain ⟨-, j, mem, sent⟩ := sent
                  obtain rfl := sole j (within j mem) sent.active
                  exact not_mem_downFrom small more mem
                · simp only [List.mem_cons, List.not_mem_nil, or_false] at mem
                  rcases mem with rfl | rfl
                  · exact sent
                  · exact sent
            exact inv.offer alive here only guard writes own before (after _) rfl rfl rfl prompt reached
        · rename_i kind
          rcases communicates_cases communicates awake with ⟨c, dest, len, guard, -⟩ |
            ⟨c, src, guard, -⟩
          · cases (congrArg Guard.kind guard).symm.trans kind
          · cases (congrArg Guard.kind guard).symm.trans kind
        · rename_i t kind
          rcases communicates_cases communicates awake with ⟨c, dest, len, guard, -⟩ |
            ⟨c, src, guard, -⟩
          · cases (congrArg Guard.kind guard).symm.trans kind
          · cases (congrArg Guard.kind guard).symm.trans kind
        · rename_i y dest kind
          rcases communicates_cases communicates awake with ⟨c, dest, len, guard, -⟩ |
            ⟨c, src, guard, -⟩
          · cases (congrArg Guard.kind guard).symm.trans kind
          · cases (congrArg Guard.kind guard).symm.trans kind
      · rename_i inactive
        exact silent _ rfl rfl (fun _ => ⟨rfl, rfl, rfl⟩) rfl
          (pass (fun c sends => inactive sends.active) _)
    · rename_i all
      split
      · trivial
      · refine silent _ rfl rfl (.refl _) rfl ?_
        have whole : n = (g.proc p).alt.nrGuards := by omega
        simp only [EnablePc.phase]
        rw [whole]
        refine Alternation.phase_congr fun j c _ => ?_
        rw [List.mem_range]
        exact ⟨mem_downFrom_all (minus1Mod_lt positive),
          lt_of_mem_downFrom (minus1Mod_lt positive)⟩
  | insert i n t partner => exact steady.elim
  | done i n found partner =>
    let alt := { (g.proc p).alt with index := toUint8 i, count := toUint8 n }
    have own : (g.setAlt p alt).proc p = { g.proc p with alt := alt } := Function.update_self ..
    have others : ∀ q, q ≠ p → (g.setAlt p alt).proc q = g.proc q := fun q other =>
      Function.update_of_ne other _ _
    refine ⟨x, reached, inv.step ?_ ?_ (fun q known => known) (fun q _ => ?_) (fun q _ => ?_)
      (.refl _)⟩
    · exact List.forall_mem_cons.mpr ⟨trivial, fun a mem =>
        inv.later a (List.mem_cons_of_mem _ (List.mem_cons_of_mem _ mem))⟩
    · rintro _ ⟨⟩
      trivial
    · rcases eq_or_ne q p with rfl | other
      · exact ⟨by rw [own], by rw [own], by rw [own], rfl⟩
      · exact .of_proc (others q other) rfl
    · change phaseOf [.schedule base p (.enabled found partner), .main .running] _ q = _
      rw [phaseOf_enableAlt, phaseOf_schedule]
      by_cases same : p = q
      · subst same
        rw [if_pos rfl, if_pos rfl, own]
        rfl
      · rw [if_neg same, if_neg same, others q (Ne.symm same)]

/-- Where `disable_alt` has its process, and where the others are. -/
theorem phaseOf_disableAlt {base : Int} {pc : DisablePc} (proc : Process) (q : Addr) :
    phaseOf [.disableAlt p pc, .schedule base p .disabling, .main .running] proc q =
      ((Act.disableAlt p pc).phase proc q).getD proc.phase := by
  rw [phaseOf_cons, phaseOf_schedule]
  congr 1
  exact ite_self _

/-- A guard is visited in disabling. -/
theorem Lags.visit {base : Int} {pc pc' : DisablePc} {index : Nat}
    (inv : Lags net roster x [.disableAlt p pc, .schedule base p .disabling, .main .running] g)
    (proc : g'.proc = (g.setAlt p { (g.proc p).alt with index := index }).proc)
    (vars : g'.vars = g.vars) (log : SameTransfers g.log g'.log)
    (alive : allocated g'.log = allocated g.log) (copying : (Act.disableAlt p pc').Copying g')
    (phase : ∀ proc q, (Act.disableAlt p pc').phase proc q = (Act.disableAlt p pc).phase proc q) :
    Lags net roster x [.disableAlt p pc', .schedule base p .disabling, .main .running] g' := by
  have own : g'.proc p = { g.proc p with alt := { (g.proc p).alt with index := index } } := by
    rw [proc]
    exact Function.update_self ..
  have others : ∀ q, q ≠ p → g'.proc q = g.proc q := fun q other => by
    rw [proc]
    exact Function.update_of_ne other _ _
  refine inv.step ?_ ?_ (fun q known => ?_) (fun q _ => ?_) (fun q _ => ?_) log
  · exact List.forall_mem_cons.mpr ⟨trivial, fun a mem => inv.later a (List.mem_cons_of_mem _ mem)⟩
  · rintro _ ⟨⟩
    exact copying
  · rw [← known]
    exact initialised_congr alive.symm rfl q
  · rcases eq_or_ne q p with rfl | other
    · exact ⟨by rw [own], by rw [own], by rw [own], congrFun vars q⟩
    · exact .of_proc (others q other) (congrFun vars q)
  · rw [phaseOf_cons, phase, ← phaseOf_cons]
    rcases eq_or_ne q p with rfl | other
    · rw [own]
      refine phaseOf_congr ?_ ?_ ?_ q
      · rfl
      · rfl
      · rfl
    · rw [others q other]

/-- `disable_alt` returns to `schedule`. -/
theorem Lags.disabled {base : Int} {pc : DisablePc} {partner : Option Addr}
    (inv : Lags net roster x [.disableAlt p pc, .schedule base p .disabling, .main .running] g)
    (proc : g'.proc = g.proc) (vars : g'.vars = g.vars) (log : SameTransfers g.log g'.log)
    (alive : allocated g'.log = allocated g.log)
    (passed : ((Act.disableAlt p pc).phase (g.proc p) p).getD (g.proc p).phase = .passed) :
    Lags net roster x [.schedule base p (.disabled partner), .main .running] g' := by
  refine inv.step ?_ ?_ (fun q known => ?_) (fun q _ => ?_) (fun q _ => ?_) log
  · exact List.forall_mem_cons.mpr ⟨trivial, fun a mem =>
      inv.later a (List.mem_cons_of_mem _ (List.mem_cons_of_mem _ mem))⟩
  · rintro _ ⟨⟩
    trivial
  · rw [← known]
    exact initialised_congr alive.symm rfl q
  · exact .of_proc (congrFun proc q) (congrFun vars q)
  · rw [proc, phaseOf_schedule, phaseOf_disableAlt]
    by_cases same : p = q
    · subst same
      rw [if_pos rfl, passed]
      rfl
    · rw [if_neg same]
      cases pc with
      | clear c partner => simp only [Act.phase, if_neg same, Option.getD_none]
      | _ => rfl

/-- What a copy leaves in the variables of the reader. -/
theorem own_memcpy {dest src : Option Ptr} {len : Nat} {vars : Addr → Var → Buffer} {e : Event}
    (copied : g.memcpy dest src len = some vars) (own : ∀ ptr ∈ dest, ptr.proc = p) :
    ({ g with vars := vars }.emit e).own p =
      (g.own p).receive (dest.map (Ptr.localise 0)) len (g.read src) := by
  unfold Globals.memcpy at copied
  unfold Local.receive
  split at copied
  · rename_i none
    obtain rfl := Option.some.inj copied
    rw [if_pos none]
    rfl
  · rename_i some
    rw [if_neg some]
    split at copied
    · rename_i d s
      obtain rfl := Option.some.inj copied
      obtain rfl : d.proc = p := own d rfl
      have stored : ∀ bytes, (g.write d bytes).vars d.proc =
          Function.update (g.vars d.proc) d.var bytes := fun bytes => Function.update_self ..
      change (⟨⟨(g.write d _).vars d.proc, _⟩, _⟩ : Local) = _
      rw [stored]
      rfl
    · cases copied

/-- An input is copied: its process makes its move. -/
theorem Lags.copy {base : Int} {c : ChanId} {dest : Option Ptr} {len i : Nat}
    {partner : Option Addr} {vars : Addr → Var → Buffer} {k : K}
    (inv : Lags net roster x
      [.disableAlt p (.copy c dest len partner), .schedule base p .disabling, .main .running] g)
    (alive : initialised
      [.disableAlt p (.copy c dest len partner), .schedule base p .disabling, .main .running] g p = true)
    (here : roster.runs p = some k)
    (only : onlyActive (g.guard p) (g.proc p).alt.nrGuards = some i)
    (guard : g.guard p i = ⟨.chanin c dest len, true⟩) (reads : net.reader c = k)
    (own : ∀ ptr ∈ dest, ptr.proc = p) (before : (g.proc p).phase = .waiting)
    (there : (offers g.log c)[(copies g.log c).length]? = some (g.read (g.chan c).src))
    (copied : g.memcpy dest (g.chan c).src len = some vars) (prompt : net.moves.Prompt k x)
    (reached : Run net.moves.step net.moves.Prompt net.initially x) :
    Simulated net roster [.disableAlt p (.clear c partner), .schedule base p .disabling, .main .running]
      ({ g with vars := vars }.emit (.copy p c len ((g.read (g.chan c).src).take len))) := by
  let value := g.read (g.chan c).src
  let g' := { g with vars := vars }.emit (.copy p c len (value.take len))
  have resting : x.own k = g.own p := by
    rw [inv.own p k alive here, phaseOf_disableAlt]
    simp only [Act.phase, Option.getD_none, before]
    rfl
  have kind : ((g.own p).guards i).kind = .chanin c (dest.map (Ptr.localise 0)) len := by
    change (g.guard p i).relative.kind = _
    rw [guard]
    rfl
  have after : g'.own p = (g.own p).receive (dest.map (Ptr.localise 0)) len value :=
    own_memcpy copied own
  have move : (net.program k).move (x.own k) = some (.get c fun value => ((len, value.take len),
      (net.program k).execute ((g.own p).receive (dest.map (Ptr.localise 0)) len value) (some i))) := by
    simp only [Program.move, resting, Globals.own_only, only, kind]
  have next : (x.puts c)[(x.gets c).length]? = some value := by
    rw [inv.puts, inv.gets]
    exact there
  refine ⟨x.get k c (len, value.take len) ((net.program k).execute (g'.own p) (some i)),
    reached.tail prompt (Dataflow.step_eq_some.mpr (Or.inr ⟨c, _, value, move, reads, next, ?_⟩)), ?_⟩
  · rw [after]
  refine inv.move p ?_ ?_ rfl (fun q known => known) (fun q other _ => ?_) rfl
    (fun k' _ there => ?_) (fun k' other => ?_) (fun k' _ there _ => ?_) (fun d => ?_) (fun d => ?_)
  · exact List.forall_mem_cons.mpr ⟨trivial, fun a mem => inv.later a (List.mem_cons_of_mem _ mem)⟩
  · rintro _ ⟨⟩
    trivial
  · refine ⟨.of_proc rfl (memcpy_vars copied own other), ?_, Or.inl rfl⟩
    rw [phaseOf_disableAlt, phaseOf_disableAlt]
    simp only [Act.phase, if_neg other.symm]
    rfl
  · obtain rfl := Option.some.inj (here.symm.trans there)
    rw [phaseOf_disableAlt]
    simp only [Act.phase, if_true, Option.getD_some, Dataflow.State.get, Function.update_self,
      Program.settle, Globals.own_only]
    change (net.program k).execute (g'.own p) (some i) = (net.program k).execute (g'.own p)
      (onlyActive (g.guard p) (g.proc p).alt.nrGuards)
    rw [only]
  · refine Function.update_of_ne ?_ _ _
    rintro rfl
    exact other here
  · obtain rfl := Option.some.inj (here.symm.trans there)
    refine inv.regular p k alive here (Or.inl ?_)
    rw [phaseOf_disableAlt]
    exact before
  · exact inv.puts d
  · simp only [Dataflow.State.get, Globals.emit_log, copies]
    rcases eq_or_ne d c with rfl | other
    · rw [Function.update_self, if_pos rfl, inv.gets]
    · rw [Function.update_of_ne other, if_neg other.symm, inv.gets]

/-- `disable_alt` makes the move of an input. -/
theorem execDisableAlt_lags {base : Int} {pc : DisablePc}
    (alive : initialised [.disableAlt p pc, .schedule base p .disabling, .main .running] g p = true)
    (user : (g.proc p).rtc = .user)
    (exchange : Rendezvous w [.disableAlt p pc, .schedule base p .disabling, .main .running] g)
    (transfers : Transfers w [.disableAlt p pc, .schedule base p .disabling, .main .running] g)
    (fits : Fits net roster w)
    (reached : Run net.moves.step net.moves.Prompt net.initially x)
    (inv : Lags net roster x [.disableAlt p pc, .schedule base p .disabling, .main .running] g) :
    (execDisableAlt p pc g).All (Settled (Simulated net roster))
      [.schedule base p .disabling, .main .running] := by
  have ok := exchange.focus _ rfl
  have picked := transfers.picked _ List.mem_cons_self
  have state : (g.proc p).state = .ready := by
    simpa [Act.Fits, SchedulePc.states] using
      exchange.phase _ (List.mem_cons_of_mem _ List.mem_cons_self)
  have phase : (g.proc p).phase = (g.proc p).alt.phase (List.range (g.proc p).alt.nrGuards) := by
    simp only [Process.phase, state]
  obtain ⟨k, here⟩ := inv.known p alive user
  have regular : net.Regular k p (g.guard p) (g.proc p).alt.nrGuards := by
    refine inv.regular p k alive here ?_
    rw [phaseOf_disableAlt]
    have either : (g.proc p).phase = .waiting ∨ (g.proc p).phase = .passed := by
      rw [phase]
      unfold Alternation.phase
      split <;> simp
    cases pc with
    | clear c partner => exact Or.inr (by simp [Act.phase])
    | _ => exact either
  obtain ⟨found, only, communicates⟩ := regular
  obtain ⟨inside, awake⟩ := onlyActive_spec only
  cases pc with
  | enter =>
    exact ⟨x, reached, inv.next rfl rfl (.refl _) rfl rfl trivial trivial fun _ _ => rfl⟩
  | loop i left partner =>
    cases left with
    | zero =>
      have picks : Picks w p (g.proc p).alt := picks_of_visited ok
      obtain rfl := onlyActive_eq only picks.inside picks.active
      simp only [execDisableAlt]
      split
      · rename_i c dest len kind
        exact ⟨x, reached, inv.next rfl rfl (.refl _) rfl rfl trivial kind fun _ _ => rfl⟩
      · rename_i y dest kind
        rcases communicates_cases communicates awake with ⟨c, dest, len, guard, -⟩ |
          ⟨c, src, guard, -⟩
        · cases (congrArg Guard.kind guard).symm.trans kind
        · cases (congrArg Guard.kind guard).symm.trans kind
      · rename_i noInput _
        refine ⟨x, reached, inv.disabled rfl rfl (.refl _) rfl ?_⟩
        rcases communicates_cases communicates awake with ⟨c, dest, len, guard, -⟩ |
          ⟨c, src, guard, -⟩
        · exact absurd (congrArg Guard.kind guard) (noInput c dest len)
        · change (g.proc p).phase = .passed
          rw [phase]
          exact Alternation.phase_passed (List.mem_range.mpr inside) ⟨src, guard⟩
    | succ left =>
      have positive : 0 < (g.proc p).alt.nrGuards := Nat.zero_lt_of_lt inside
      simp only [execDisableAlt, if_neg positive.ne']
      split
      · split
        · exact ⟨x, reached, inv.visit rfl rfl (.visit rfl) rfl trivial fun _ _ => rfl⟩
        · exact ⟨x, reached, inv.visit rfl rfl (.visit rfl) rfl trivial fun _ _ => rfl⟩
        · exact ⟨x, reached, inv.visit rfl rfl (.visit rfl) rfl trivial fun _ _ => rfl⟩
        · exact ⟨x, reached, inv.visit rfl rfl (.visit rfl) rfl trivial fun _ _ => rfl⟩
        · exact ⟨x, reached, inv.visit rfl rfl (.visit rfl) rfl trivial fun _ _ => rfl⟩
      · exact ⟨x, reached, inv.next rfl rfl (.visit rfl) rfl rfl trivial trivial fun _ _ => rfl⟩
  | copy c dest len partner =>
    have picks : Picks w p (g.proc p).alt := picked
    obtain rfl := onlyActive_eq only picks.inside picks.active
    have kind : (g.guard p (g.proc p).alt.index).kind = .chanin c dest len := inv.copying _ rfl
    obtain ⟨absent, reads, v, rfl, waits, other⟩ := ok
    have known := exchange.known c v waits
    have stands := exchange.stands v known (by simpa [exempt, Act.inAlt, Act.targets] using other)
    obtain rfl := stands.writes waits reads other
    simp only [execDisableAlt]
    split
    · trivial
    · rename_i vars copied
      rcases communicates_cases communicates awake with ⟨d, dest', len', guard, wired, own⟩ |
        ⟨d, src, guard, -⟩
      · rw [guard] at kind
        cases kind
        have prompt : net.moves.Prompt k x := by
          refine inv.prompt transfers fits here fun d sent => ?_
          obtain ⟨-, -, j, small, sends⟩ := sending_disabling.mp sent
          obtain rfl := onlyActive_eq only small sends.active
          exact Listens.not_sends ⟨dest, len, guard⟩ sends
        refine inv.copy alive here only guard wired own ?_ ?_ copied prompt reached
        · rw [phase]
          refine Alternation.phase_waiting fun j mem d sends => ?_
          obtain rfl := onlyActive_eq only (List.mem_range.mp mem) sends.active
          exact Listens.not_sends ⟨dest, len, guard⟩ sends
        · obtain ⟨values, cut, full, -⟩ := transfers.delivers c
          obtain ⟨offered, -⟩ := full ⟨waits, by simp [cleared]⟩
          rw [offered, cut.length_eq, List.getElem?_append_right (Nat.le_refl _), Nat.sub_self]
          rfl
      · cases (congrArg Guard.kind guard).symm.trans kind
  | clear c partner =>
    refine ⟨x, reached, inv.disabled rfl rfl (.refl _) rfl ?_⟩
    simp only [Act.phase, if_true, Option.getD_some]

end Alternating

/-! ## Application code -/

section Application

variable {K : Type} [DecidableEq K] {net : Network K} {roster : Roster K}
  {x : Dataflow.State K ChanId Buffer (Nat × Buffer) Local} {w : Wiring} {g g' : Globals} {p : Addr}
  {base : Int} {pc : SchedulePc} {op : Op} {ops : List Op}

/-- A call of an execution. -/
theorem Lags.perform (inv : Lags net roster x [.rtc p, .schedule base p pc, .main .running] g)
    (alive : initialised [.rtc p, .schedule base p pc, .main .running] g p = true)
    (todo : roster.todo = op :: ops)
    (goesOn : (g.own p).performs (op :: ops) = ((g.own p).perform op).performs ops)
    (own : g'.own p = (g.own p).perform op) (code : (g'.proc p).rtc = (g.proc p).rtc)
    (others : ∀ q, q ≠ p → g'.proc q = g.proc q) (vars : ∀ q, q ≠ p → g'.vars q = g.vars q)
    (log : SameTransfers g.log g'.log) (same : allocated g'.log = allocated g.log) :
    Lags net { roster with todo := ops } x [.rtc p, .schedule base p pc, .main .running] g' := by
  refine inv.move p inv.later ?_ rfl (fun q known => ?_) (fun q other _ => ?_) code
    (fun k _ here => ?_) (fun _ _ => rfl) (fun k _ _ phased => ?_)
    (fun c => (inv.puts c).trans (log c).1.symm) (fun c => (inv.gets c).trans (log c).2.1.symm)
  · rintro _ ⟨⟩
    trivial
  · rw [← known]
    exact initialised_congr same.symm rfl q
  · refine ⟨.of_proc (others q other) (vars q other), ?_, Or.inr ?_⟩
    · rw [others q other]
    · rw [phaseOf_rtc, if_neg other.symm]
      exact Process.phase_ne_running _
  · have before := inv.own p k alive here
    rw [phaseOf_rtc, if_pos rfl] at before ⊢
    rw [before, own]
    simp only [Program.settle, todo]
    exact goesOn
  · rw [phaseOf_rtc, if_pos rfl] at phased
    simp at phased

/-- An execution returns. -/
theorem Lags.returned (inv : Lags net roster x [.rtc p, .schedule base p pc, .main .running] g)
    (alive : initialised [.rtc p, .schedule base p pc, .main .running] g p = true)
    (todo : (g.own p).performs roster.todo = g.own p)
    (phase : (pc.phase (g.proc p).alt).getD (g.proc p).phase = .resting) :
    Lags net { roster with todo := ops } x [.schedule base p pc, .main .running] g := by
  refine inv.move p ?_ ?_ rfl (fun q known => known) (fun q other _ => ?_) rfl
    (fun k _ here => ?_) (fun _ _ => rfl) (fun k _ _ phased => ?_) inv.puts inv.gets
  · exact fun a mem => inv.later a (List.mem_cons_of_mem _ mem)
  · rintro _ ⟨⟩
    trivial
  · refine ⟨.of_proc rfl rfl, ?_, Or.inr ?_⟩
    · rw [phaseOf_rtc, phaseOf_schedule, if_neg other.symm, if_neg other.symm]
    · rw [phaseOf_rtc, if_neg other.symm]
      exact Process.phase_ne_running _
  · rw [inv.own p k alive here, phaseOf_rtc, phaseOf_schedule, if_pos rfl, if_pos rfl, phase]
    exact todo
  · rw [phaseOf_schedule, if_pos rfl, phase] at phased
    simp at phased

/-- Pointers into a process are the same for the process at any record. -/
theorem GuardKind.localise_localise (q : Addr) (kind : GuardKind) :
    (kind.localise p).localise q = kind.localise q := by
  have pointer : ∀ ptr : Option Ptr,
      (ptr.map (Ptr.localise p)).map (Ptr.localise q) = ptr.map (Ptr.localise q) := by
    intro ptr
    cases ptr <;> rfl
  cases kind <;> simp only [localise, pointer]

/-- What a process sees after a store into its ALT record. -/
theorem Globals.own_setAlt (alt : Alternation) : (g.setAlt p alt).own p =
    ⟨⟨g.vars p, fun i => (alt.guards i).relative⟩, alt.nrGuards⟩ := by
  have stored : (g.setAlt p alt).proc p = { g.proc p with alt := alt } := Function.update_self ..
  simp only [own, locals, guard, stored]
  rfl

/-- What it sees after a store of a guard. -/
theorem Globals.own_setGuard (i : Nat) (guard : Guard) :
    (g.setAlt p ((g.proc p).alt.setGuard i guard)).own p = (g.own p).setGuard i guard.relative := by
  rw [own_setAlt]
  simp only [Alternation.setGuard, Local.setGuard, own, locals]
  congr 2
  funext j
  rcases eq_or_ne j i with rfl | other
  · rw [Function.update_self, Function.update_self]
  · rw [Function.update_of_ne other, Function.update_of_ne other]
    rfl

/-- The calls of an execution, as its process sees them. -/
theorem execUser_lags (current : g.current = some p) (user : (g.proc p).rtc = .user)
    (alive : initialised [.rtc p, .schedule base p pc, .main .running] g p = true)
    (phase : (pc.phase (g.proc p).alt).getD (g.proc p).phase = .resting)
    (allowed : net.withoutChoice .machine
      (⟨[.rtc p, .schedule base p pc, .main .running], g, none⟩, roster) = true)
    (inv : Lags net roster x [.rtc p, .schedule base p pc, .main .running] g) :
    ∃ op, net.next ⟨[.rtc p, .schedule base p pc, .main .running], g, none⟩ roster = .user op ∧
      (execUser op (.rtc p) g).All (Settled (Lags net { roster with todo := roster.todo.tail } x))
        [.schedule base p pc, .main .running] := by
  cases todo : roster.todo with
  | nil =>
    refine ⟨.ret, by simp only [Network.next, todo], ?_⟩
    simp only [execUser, user, if_true, userRtc]
    rw [Result.all_ret, returnTo_unit]
    exact inv.returned alive (by rw [todo]; rfl) phase
  | cons op ops =>
    refine ⟨op.localise p, by simp only [Network.next, todo], ?_⟩
    -- a call after which the execution goes on
    have next : ∀ g', g'.own p = (g.own p).perform op →
        (g.own p).performs (op :: ops) = ((g.own p).perform op).performs ops →
        (g'.proc p).rtc = (g.proc p).rtc → (∀ q, q ≠ p → g'.proc q = g.proc q) →
        (∀ q, q ≠ p → g'.vars q = g.vars q) → SameTransfers g.log g'.log →
        allocated g'.log = allocated g.log →
        Lags net { roster with todo := ops } x [.rtc p, .schedule base p pc, .main .running] g' :=
      fun g' own goesOn code others vars log same =>
        inv.perform alive todo goesOn own code others vars log same
    -- a store into the ALT record
    have alter : ∀ g' alt, g'.proc = (g.setAlt p alt).proc → g'.vars = g.vars → g'.log = g.log →
        (g.setAlt p alt).own p = (g.own p).perform op →
        (g.own p).performs (op :: ops) = ((g.own p).perform op).performs ops →
        Lags net { roster with todo := ops } x [.rtc p, .schedule base p pc, .main .running] g' := by
      intro g' alt proc vars log own goesOn
      refine next g' ?_ goesOn ?_ (fun q other => ?_) (fun q _ => by rw [vars])
        (by rw [log]; exact .refl _) (by rw [log])
      · rw [← own]
        unfold Globals.own Globals.locals Globals.guard
        rw [proc, vars]
        rfl
      · rw [proc]
        simp [Globals.setAlt, Globals.setProc]
      · rw [proc]
        exact Function.update_of_ne other _ _
    simp only [execUser, user, if_true]
    cases op with
    | ret =>
      simp only [Op.localise, userRtc]
      rw [Result.all_ret, returnTo_unit]
      exact inv.returned alive (by rw [todo]; rfl) phase
    | terminate =>
      simp only [Op.localise, userRtc, current]
      have same : SameCode g ((g.setState p .done).emit (.terminate p)) p :=
        .of_state (Function.update_self ..) rfl
      exact next _ same.own rfl same.rtc (fun q other => Globals.setState_of_ne g _ other)
        (fun q _ => rfl) (fun _ => ⟨rfl, rfl, rfl⟩) rfl
    | start args =>
      simp [Network.withoutChoice, todo] at allowed
    | initAlt size =>
      simp only [Op.localise, userRtc, current]
      exact alter _ _ rfl rfl rfl (Globals.own_setAlt _) rfl
    | initAltPri size =>
      simp only [Op.localise, userRtc, current]
      exact alter _ _ rfl rfl rfl (Globals.own_setAlt _) rfl
    | initGuard i kind =>
      simp only [Op.localise, userRtc]
      split
      · trivial
      · refine alter _ _ rfl rfl rfl ?_ rfl
        rw [Globals.own_setGuard]
        simp only [Local.perform, Guard.relative, Guard.localise, GuardKind.localise_localise]
        rfl
    | initTimeoutGuard i t time =>
      refine alter _ _ rfl rfl rfl ?_ rfl
      rw [Globals.own_setGuard]
      rfl
    | setActive i active =>
      refine alter _ _ rfl rfl rfl ?_ rfl
      rw [Globals.own_setGuard]
      rfl
    | assign v bytes =>
      refine next _ ?_ rfl rfl (fun q _ => rfl) (fun q other => Function.update_of_ne other _ _)
        (.refl _) rfl
      have stored : (g.write ⟨p, v⟩ bytes).vars p = Function.update (g.vars p) v bytes :=
        Function.update_self ..
      change (⟨⟨(g.write ⟨p, v⟩ bytes).vars p, _⟩, _⟩ : Local) = _
      rw [stored]
      rfl
    | connect y intrno =>
      simp only [Op.localise, userRtc]
      split
      · exact next _ rfl rfl rfl (fun _ _ => rfl) (fun _ _ => rfl) (.refl _) rfl
      · trivial
    | disconnect intrno =>
      simp only [Op.localise, userRtc]
      split
      · exact next _ rfl rfl rfl (fun _ _ => rfl) (fun _ _ => rfl) (.refl _) rfl
      · trivial
    | error why => trivial

end Application

/-! ## Steps of the network -/

section Steps

variable {K : Type} [DecidableEq K] {net : Network K} {roster : Roster K} {w : Wiring} {pri : Nat}

/-- A process in an ALT is not the idle process. -/
theorem Cooperating.user_of_state {stack : List Act} {g : Globals} {p : Addr}
    (cooperates : Cooperating pri stack g) (alive : initialised stack g p = true)
    (state : (g.proc p).state ≠ .initial) : (g.proc p).rtc = .user := by
  rcases cooperates.kinds p alive with ⟨user, -⟩ | ⟨-, -, idle⟩
  · exact user
  · exact absurd idle state

theorem exec_simulated {act : Act} {rest : List Act} {g : Globals}
    (other : queueing (act :: rest) = false)
    (allowed : net.withoutChoice .machine (⟨act :: rest, g, none⟩, roster) = true)
    (cooperative : Cooperative w pri (act :: rest) g) (transfers : Transfers w (act :: rest) g)
    (fits : Fits net roster w) (simulated : Simulated net roster (act :: rest) g) :
    (exec act g).All (Settled (Simulated net (net.note ⟨act :: rest, g, none⟩ roster))) rest := by
  obtain ⟨x, reached, inv⟩ := simulated
  obtain ⟨⟨free, ranked, settled⟩, cooperating, -⟩ := cooperative
  have ranks := ranked.ranks other
  have exchange := (settled_of_not_queueing other).mp settled
  have cooperates := (settled_of_not_queueing other).mp cooperating
  have below : Unsignalled rest := fun a mem => free a (List.mem_cons_of_mem _ mem)
  have calls : Unscheduled rest := fun q prev mem =>
    cooperates.unscheduled q prev (List.mem_cons_of_mem _ mem)
  have stacked := ranks.orderly.stacked
  have given : ∀ {r : Result} {roster' : Roster K}, r.All (Settled (Lags net roster' x)) rest →
      r.All (Settled (Simulated net roster')) rest := fun all =>
    all.imp fun stack g settled => settled.imp fun stack g lags => ⟨x, reached, lags⟩
  cases act with
  | main pc =>
    obtain rfl : pc = .running := inv.later _ List.mem_cons_self
    trivial
  | select base pc =>
    exact given (execSelect_lags ranks.orderly inv
      (caller_of_schedule stacked rfl free cooperates.unscheduled))
  | schedule base p pc =>
    exact given (execSchedule_lags ranks.holds
      (caller_of_schedule stacked rfl free cooperates.unscheduled) exchange
      (transfers.picked _ List.mem_cons_self) inv)
  | take level pc => cases other
  | append p pc => cases other
  | start args pc => exact (inv.later _ List.mem_cons_self).elim
  | rtc p => trivial
  | enableAlt p pc =>
    obtain ⟨base, under, rfl⟩ := (stacked.1 : Admitted (.enableAlt p) rest).caller_of_enableAlt
    obtain rfl := caller_of_schedule stacked.2 rfl below calls
    have alive := ranks.holds.held p (by simp [Act.holds])
    have state : (g.proc p).state = .enabling := by
      simpa [Act.Fits, SchedulePc.states] using
        exchange.phase _ (List.mem_cons_of_mem _ List.mem_cons_self)
    exact execEnableAlt_lags alive (cooperates.user_of_state alive (by simp [state])) allowed exchange
      (cooperates.steady _ rfl) transfers fits reached inv
  | disableAlt p pc =>
    obtain ⟨base, under, rfl⟩ := (stacked.1 : Admitted (.disableAlt p) rest).caller_of_disableAlt
    obtain rfl := caller_of_schedule stacked.2 rfl below calls
    have alive := ranks.holds.held p (by simp [Act.holds])
    have state : (g.proc p).state = .ready := by
      simpa [Act.Fits, SchedulePc.states] using
        exchange.phase _ (List.mem_cons_of_mem _ List.mem_cons_self)
    exact execDisableAlt_lags alive (cooperates.user_of_state alive (by simp [state])) exchange
      transfers fits reached inv
  | ready q pc =>
    obtain ⟨base, p, executes, under, rfl⟩ := below.caller_of_ready stacked.1 stacked.2
    refine given (execReady_lags ranks.orderly exchange ?_ ?_ inv)
    · rintro _ ⟨⟩
      exact fun _ => trivial
    · rintro prev rfl
      exact cooperates.unscheduled q prev List.mem_cons_self
  | signal intr saved pc => exact absurd rfl (free _ List.mem_cons_self)
  | timeoutHandler pc => exact (below.no_handler stacked.1 (Or.inl rfl)).elim
  | userHandler intrsrc => exact (below.no_handler stacked.1 (Or.inr rfl)).elim

/-- What holds after every outcome holds of the next state, if the program has not stopped. -/
theorem Result.All.goesOn {P : List Act → Globals → Prop} {rest : List Act} {r : Result}
    {before after : State} (all : r.All P rest) (applied : r.apply before rest = some after) :
    (after.stopped = none → P after.stack after.g) ∧ (after.stopped ≠ none → after.g = before.g) := by
  cases r with
  | next act g =>
    obtain rfl := Option.some.inj applied
    exact ⟨fun _ => all, fun stopped => absurd rfl stopped⟩
  | call act callee g =>
    obtain rfl := Option.some.inj applied
    exact ⟨fun _ => all, fun stopped => absurd rfl stopped⟩
  | ret v g =>
    obtain rfl := Option.some.inj applied
    exact ⟨fun _ => all, fun stopped => absurd rfl stopped⟩
  | stop why =>
    obtain rfl := Option.some.inj applied
    exact ⟨fun running => (by cases running), fun _ => rfl⟩
  | stuck => cases applied

end Steps

end Microcsp
