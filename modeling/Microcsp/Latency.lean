import Mathlib.Tactic.Ring
import Microcsp.Library.Descent
import Microcsp.Expiry
import Microcsp.Cooperation
import Microcsp.Stages

/-!
# How long the scheduler takes

A process that `schedule` takes from a ready queue is executed next, after its ALT is disabled, so
what the runtime does between two pieces of application code is bounded: each call in progress has a
cost, an upper bound for the steps that remain until it returns, and a nested `schedule` costs less
than the one it is nested in, because it takes only processes of higher priority. The loop of
`handle_timeout_interrupt` costs a fixed amount for each timeout that is queued or will be by the
processes it interrupted.
-/

open Library

namespace Microcsp

/-! ## Costs -/

/-- The number of steps that `schedule` with this base takes at most until it executes a process or
returns. -/
def selectCost (base : Int) : Nat := 284 * ((priMax : Int) - base).toNat + 2

/-- The cost of `schedule` that interrupts no process. -/
def worstCost : Nat := selectCost (-1)

/-- The cost of one timeout that is due. -/
def timeoutCost : Nat := worstCost + 13

/-- The cost for each timeout that is queued. -/
def Act.queues : Act → Nat
  | .timeoutHandler _ => 1
  | .signal _ _ .enter => 1
  | _ => 0

/-- The handlers in progress that come to the timeout queue. -/
def handlers (stack : List Act) : Nat := (stack.map Act.queues).sum

/-- What remains of `take`. -/
def TakePc.cost : TakePc → Nat
  | .head => 5
  | .next _ => 4
  | .test _ => 3
  | .tail _ => 2
  | .mask _ => 1

/-- What remains of `append`. -/
def AppendPc.cost : AppendPc → Nat
  | .link => 6
  | .tail => 5
  | .next => 4
  | .test => 3
  | .head => 2
  | .mask => 1

/-- What remains of `start`. -/
def StartPc.cost : StartPc → Nat
  | .check => 11
  | .alloc _ => 10
  | .fill _ _ => 9
  | .appended => 1

/-- What remains of `initialize`. -/
def MainPc.cost : MainPc → Nat
  | .memoryInit _ _ => 13
  | .schedInit => 12
  | .idleAlloc => 11
  | .idleFill _ _ => 10
  | .timerInit => 1
  | .user => 0
  | .running => 0

/-- What remains of `schedule` while it selects a process. -/
def SelectPc.cost (base : Int) : SelectPc → Nat
  | .top => selectCost base
  | .chosen highest => if (highest : Int) ≤ base then 1 else selectCost (base + 1) + 283
  | .taking => selectCost (base + 1) + 277
  | .took _ => selectCost (base + 1) + 277

/-- What remains of `schedule` for a process of this priority and in this state. Each of its guards
may queue a timeout, which costs `queued`. -/
def SchedulePc.cost (base : Int) (pri : Nat) (state : PState) (queued : Nat) : SchedulePc → Nat
  | .top => if state = .quiescent then selectCost pri + selectCost base + 255 * queued + 792
    else selectCost pri + 276
  | .dispatch .initial => 1
  | .dispatch .quiescent => selectCost pri + selectCost base + 255 * queued + 791
  | .dispatch _ => selectCost pri + 275
  | .initial => selectCost pri + selectCost base + 255 * queued + 795
  | .enabling => selectCost pri + selectCost base + 276
  | .enabled _ _ => selectCost pri + selectCost base + 276
  | .branch .ready _ => selectCost pri + 275
  | .branch _ _ => selectCost pri + selectCost base + 15
  | .disabling => selectCost pri + 14
  | .disabled _ => selectCost pri + 14
  | .partner (some _) true => selectCost pri + 13
  | .partner none true => 2
  | .partner (some _) false => selectCost pri + selectCost base + 14
  | .partner none false => selectCost base + 3
  | .readying true => 2
  | .readying false => selectCost base + 3
  | .execute true => 1
  | .execute false => selectCost base + 2
  | .executing => selectCost pri + selectCost base + 255 * queued + 794
  | .finish => if state = .waiting then selectCost base + 1
    else selectCost pri + selectCost base + 255 * queued + 793

/-- What remains of `enable_alt`. -/
def EnablePc.cost (queued : Nat) : EnablePc → Nat
  | .enter => 255 * (queued + 2) + 4
  | .loop _ k _ => (255 - k) * (queued + 2) + 3
  | .insert _ k _ _ => (255 - k) * (queued + 2) + 2
  | .done _ _ _ _ => 1

/-- What remains of `disable_alt`. -/
def DisablePc.cost : DisablePc → Nat
  | .enter => 260
  | .loop _ left _ => left + 3
  | .copy _ _ _ _ => 2
  | .clear _ _ => 1

/-- What remains of `readyProcessIfNecessary` over a process of this level. -/
def ReadyPc.cost (level : Int) : ReadyPc → Nat
  | .test => selectCost level + 10
  | .appended => selectCost level + 2
  | .scheduling _ => 1

/-- What remains of `handle_signal`. -/
def SignalPc.cost (length : Nat) : SignalPc → Nat
  | .enter => length * timeoutCost + 2 * worstCost + 18
  | .handled _ => worstCost + 3
  | .scheduled _ => 2
  | .leave => 1

/-- What remains of `handle_timeout_interrupt`. -/
def TimeoutPc.cost (length : Nat) : TimeoutPc → Nat
  | .enter => length * timeoutCost + 3
  | .test _ _ => length * timeoutCost + 2
  | .remove _ _ => length * timeoutCost + 1
  | .resume _ => length * timeoutCost + 3

/-- What remains of an activation over others. -/
def Act.cost (g : Globals) (rest : List Act) : Act → Nat
  | .main pc => pc.cost
  | .select base pc => pc.cost base
  | .schedule base p pc =>
    pc.cost base (g.proc p).pri (g.proc p).state (timeoutCost * handlers rest)
  | .take _ pc => pc.cost
  | .append _ pc => pc.cost
  | .start _ pc => pc.cost
  | .rtc _ => 0
  | .enableAlt _ pc => pc.cost (timeoutCost * handlers rest)
  | .disableAlt _ pc => pc.cost
  | .ready _ pc => pc.cost (level g.pri rest)
  | .signal _ _ pc => pc.cost g.timer.queue.length
  | .timeoutHandler pc => pc.cost g.timer.queue.length
  | .userHandler _ => worstCost + 11

/-- An upper bound for the steps of the runtime until application code goes on. -/
def latency (g : Globals) : List Act → Nat
  | [] => 0
  | act :: rest => act.cost g rest + latency g rest

/-! ## Application code -/

/-- Application code goes on here. -/
def Act.applies : Act → Bool
  | .rtc _ | .main .user => true
  | _ => false

/-- Application code is on top of the stack. -/
def inApplication : List Act → Bool
  | act :: _ => act.applies
  | [] => false

/-- The number of guards and the count fit the eight bits they have. -/
def Process.EightBits (proc : Process) : Prop := proc.alt.nrGuards ≤ 255 ∧ proc.alt.count ≤ 255

/-- The timeout that `enable_alt` inserts is that of a guard, and `disable_alt` has no more guards
left. -/
def Act.Counts : Act → Prop
  | .enableAlt _ (.insert _ k _ _) => k < 255
  | .disableAlt _ (.loop _ left _) => left ≤ 256
  | _ => True

/-- The numbers fit, and the guards are within them. -/
structure InBytes (stack : List Act) (g : Globals) : Prop where
  /-- The records. -/
  bytes : ∀ p, (g.proc p).EightBits
  /-- The guards that are counted. -/
  counts : ∀ act ∈ stack, act.Counts

section Bytes

variable {act : Act} {rest : List Act} {g : Globals}

/-- A record whose numbers fit is stored. -/
theorem bytes_setProc (bytes : ∀ p, (g.proc p).EightBits) {q : Addr} {proc : Process}
    (own : proc.EightBits) (p : Addr) : ((g.setProc q proc).proc p).EightBits := by
  by_cases same : p = q
  · subst same
    simpa using own
  · rw [Globals.setProc_of_ne g _ same]
    exact bytes p

/-- A state is stored. -/
theorem bytes_setState (bytes : ∀ p, (g.proc p).EightBits) (q : Addr) (state : PState) (p : Addr) :
    ((g.setState q state).proc p).EightBits := by
  exact bytes_setProc bytes (show Process.EightBits { g.proc q with state := state } from bytes q) p

/-- A step stores no number that does not fit. -/
theorem exec_bytes (bytes : ∀ p, (g.proc p).EightBits) :
    (exec act g).All (fun _ g' => ∀ p, (g'.proc p).EightBits) rest := by
  cases act with
  | main pc =>
    cases pc with
    | idleFill index record => exact bytes_setProc bytes ⟨Nat.zero_le _, (bytes record).2⟩
    | _ =>
      simp only [exec, execMain]
      (repeat' split) <;> trivial
  | select base pc => cases pc <;> simp only [exec, execSelect] <;> (repeat' split) <;> trivial
  | schedule base p pc =>
    cases pc <;> simp only [exec, execSchedule, callDisableAlt] <;> (repeat' split) <;>
      first | trivial | exact bytes_setState bytes _ _
  | take pri pc => cases pc <;> simp only [exec, execTake] <;> (repeat' split) <;> exact bytes
  | append p pc => cases pc <;> simp only [exec, execAppend] <;> (repeat' split) <;> exact bytes
  | start args pc =>
    cases pc with
    | fill index record => exact bytes_setProc bytes ⟨Nat.zero_le _, (bytes record).2⟩
    | _ =>
      simp only [exec, execStart]
      (repeat' split) <;> trivial
  | rtc p => trivial
  | enableAlt p pc =>
    cases pc with
    | done i k ready partner => exact bytes_setProc bytes ⟨(bytes p).1, toUint8_le k⟩
    | _ =>
      simp only [exec, execEnableAlt]
      (repeat' split) <;> trivial
  | disableAlt p pc =>
    cases pc <;> simp only [exec, execDisableAlt] <;> (repeat' split) <;>
      first | trivial | exact bytes_setProc bytes (bytes p)
  | ready q pc =>
    cases pc <;> simp only [exec, execReady, callSchedule] <;> (repeat' split) <;>
      first
        | trivial
        | exact bytes_setState bytes _ _
        | exact bytes_setState (bytes_setState bytes _ _) _ _
  | signal intr saved pc =>
    cases pc <;> simp only [exec, execSignal, callScheduleAtCurrent, callSchedule] <;>
      (repeat' split) <;> trivial
  | timeoutHandler pc =>
    cases pc <;> simp only [exec, execTimeoutHandler, readyOrFault] <;> (repeat' split) <;> trivial
  | userHandler intrsrc =>
    simp only [exec, execUserHandler]
    (repeat' split) <;> trivial

/-- Nor does application code. -/
theorem execUser_bytes {op : Op} (bytes : ∀ p, (g.proc p).EightBits) :
    (execUser op act g).All (fun _ g' => ∀ p, (g'.proc p).EightBits) rest := by
  unfold execUser
  split
  · split
    · cases op <;> simp only [userRtc] <;> (repeat' split) <;>
        first
          | trivial
          | exact bytes_setState bytes _ _
          | exact bytes_setProc bytes (bytes _)
          | exact bytes_setProc bytes ⟨toUint8_le _, (bytes _).2⟩
    · trivial
  · cases op <;> simp only [userMain, callSchedule] <;> (repeat' split) <;> trivial
  · trivial

/-- What holds of the activations that a step puts on the stack, and of the others, holds of all. -/
theorem Result.All.onStack {P : Act → Prop} {r : Result}
    (resume : ∀ act v, P act → P (act.resume v))
    (below : ∀ act ∈ rest, P act) (alone : r.All (fun stack _ => ∀ act ∈ stack, P act) []) :
    r.All (fun stack _ => ∀ act ∈ stack, P act) rest := by
  cases r with
  | next act' g' => exact List.forall_mem_cons.mpr ⟨alone act' List.mem_cons_self, below⟩
  | call caller callee g' =>
    obtain ⟨first, second⟩ := List.forall_mem_cons.mp alone
    exact List.forall_mem_cons.mpr
      ⟨first, List.forall_mem_cons.mpr ⟨second caller List.mem_cons_self, below⟩⟩
  | ret v g' =>
    cases rest with
    | nil => exact below
    | cons caller under =>
      obtain ⟨first, others⟩ := List.forall_mem_cons.mp below
      exact List.forall_mem_cons.mpr ⟨resume caller v first, others⟩
  | stop why => trivial
  | stuck => trivial

theorem Act.Counts.resume (counts : act.Counts) (v : Value) : (act.resume v).Counts := by
  unfold Act.resume
  split
  · trivial
  · trivial
  · trivial
  · exact counts

/-- `enable_alt` and `disable_alt` count guards. -/
theorem exec_counting (bytes : ∀ p, (g.proc p).EightBits) (counts : act.Counts) :
    (exec act g).All (fun stack _ => ∀ act ∈ stack, act.Counts) [] := by
  cases act with
  | enableAlt p pc =>
    have small := (bytes p).1
    cases pc <;> simp only [exec, execEnableAlt] <;> (repeat' split) <;>
      simp only [Result.All, List.mem_singleton, forall_eq, Act.Counts, returnTo, List.not_mem_nil,
        IsEmpty.forall_iff, implies_true]
    omega
  | schedule base p pc =>
    cases pc <;> simp only [exec, execSchedule, callDisableAlt] <;> (repeat' split) <;>
      simp [Result.All, Act.Counts]
  | rtc p => trivial
  | main pc =>
    cases pc <;> simp only [exec, execMain] <;> (repeat' split) <;> simp [Result.All, Act.Counts]
  | select base pc =>
    cases pc <;> simp only [exec, execSelect] <;> (repeat' split) <;> simp [Result.All, Act.Counts]
  | take pri pc =>
    cases pc <;> simp only [exec, execTake] <;> (repeat' split) <;>
      simp [Result.All, Act.Counts, returnTo]
  | append p pc =>
    cases pc <;> simp only [exec, execAppend] <;> (repeat' split) <;> simp [Result.All, Act.Counts]
  | start args pc =>
    cases pc <;> simp only [exec, execStart] <;> (repeat' split) <;> simp [Result.All, Act.Counts]
  | disableAlt p pc =>
    have small := (bytes p).2
    cases pc with
    | enter =>
      simp only [exec, execDisableAlt, Result.All, List.mem_singleton, forall_eq, Act.Counts]
      omega
    | loop i left partner =>
      have bound : left ≤ 256 := counts
      cases left <;> simp only [exec, execDisableAlt] <;> (repeat' split) <;>
        simp [Result.All, Act.Counts, returnTo] <;> omega
    | copy c dest len partner =>
      simp only [exec, execDisableAlt]
      split <;> simp [Result.All, Act.Counts]
    | clear c partner => simp [exec, execDisableAlt, Result.All, returnTo]
  | ready q pc =>
    cases pc <;> simp only [exec, execReady, callSchedule] <;> (repeat' split) <;>
      simp [Result.All, Act.Counts]
  | signal intr saved pc =>
    cases pc <;> simp only [exec, execSignal, callScheduleAtCurrent, callSchedule] <;>
      (repeat' split) <;> simp [Result.All, Act.Counts]
  | timeoutHandler pc =>
    cases pc <;> simp only [exec, execTimeoutHandler, readyOrFault] <;> (repeat' split) <;>
      simp [Result.All, Act.Counts]
  | userHandler intrsrc =>
    simp only [exec, execUserHandler]
    (repeat' split) <;> simp [Result.All, Act.Counts]

/-- Application code does not. -/
theorem execUser_counting {op : Op} :
    (execUser op act g).All (fun stack _ => ∀ act ∈ stack, act.Counts) [] := by
  unfold execUser
  split
  · split
    · cases op <;> simp only [userRtc] <;> (repeat' split) <;> simp [Result.All, Act.Counts]
    · trivial
  · cases op <;> simp only [userMain, callSchedule] <;> (repeat' split) <;>
      simp [Result.All, Act.Counts]
  · trivial

/-- Every step keeps the numbers within their bytes. -/
theorem inBytes_kept : Kept Always InBytes where
  run act rest g _ inv := by
    obtain ⟨here, below⟩ := List.forall_mem_cons.mp inv.counts
    have all : (exec act g).All (fun stack _ => ∀ act ∈ stack, act.Counts) rest :=
      Result.All.onStack (fun _ v counts => counts.resume v) below (exec_counting inv.bytes here)
    exact ((exec_bytes inv.bytes).and all).imp fun stack g' both => ⟨both.1, both.2⟩
  user op act rest g _ inv := by
    obtain ⟨here, below⟩ := List.forall_mem_cons.mp inv.counts
    have all : (execUser op act g).All (fun stack _ => ∀ act ∈ stack, act.Counts) rest :=
      Result.All.onStack (fun _ v counts => counts.resume v) below execUser_counting
    exact ((execUser_bytes inv.bytes).and all).imp fun stack g' both => ⟨both.1, both.2⟩
  interrupt intr stack g _ _ _ inv :=
    ⟨inv.bytes, List.forall_mem_cons.mpr ⟨trivial, inv.counts⟩⟩
  clock t stack g _ inv := ⟨inv.bytes, inv.counts⟩

end Bytes

/-! ## What the others cost -/

/-- A level higher costs less. -/
theorem selectCost_succ {base : Int} (below : base < priMax) :
    selectCost base = selectCost (base + 1) + 284 := by
  simp only [selectCost, priMax] at below ⊢
  omega

theorem selectCost_anti {base base' : Int} (le : base ≤ base') :
    selectCost base' ≤ selectCost base := by
  simp only [selectCost, priMax]
  omega

theorem two_le_selectCost (base : Int) : 2 ≤ selectCost base := Nat.le_add_left _ _

section Frame

variable {stack rest : List Act} {g g' : Globals}

theorem handlers_cons (act : Act) (rest : List Act) :
    handlers (act :: rest) = act.queues + handlers rest := by
  simp [handlers]

/-- A return leaves the costs as they are. -/
theorem latency_returnTo (v : Value) (rest : List Act) :
    latency g (returnTo v rest) = latency g rest := by
  cases rest with
  | nil => rfl
  | cons caller under =>
    simp only [returnTo, latency, Act.resume]
    split <;> rfl

/-- The state matters at two points of `schedule`, where the process is not enabling. -/
theorem SchedulePc.cost_ready {pc : SchedulePc} (enabling : .enabling ∈ pc.stages) (base : Int)
    (pri queued : Nat) : pc.cost base pri .ready queued = pc.cost base pri .enabling queued := by
  cases pc with
  | finish => simp [stages] at enabling
  | top => rfl
  | dispatch state => cases state <;> rfl
  | _ => rfl

/-- A longer timeout queue costs more. -/
theorem length_cost {length length' more : Nat} (le : length' ≤ length + more) :
    length' * timeoutCost ≤ length * timeoutCost + timeoutCost * more := by
  calc
    length' * timeoutCost ≤ (length + more) * timeoutCost := Nat.mul_le_mul_right _ le
    _ = length * timeoutCost + timeoutCost * more := by rw [Nat.add_mul, Nat.mul_comm more]

/-- Where the states of the processes in progress stay, and the timeout queue grows by so much at
most, the costs grow by that of the timeouts only. -/
theorem latency_le (staged : Staged stack g) (stays : ∀ p ∈ stack.filterMap Act.holds, Stays g g' p)
    (pri : ∀ p ∈ stack.filterMap Act.holds, g'.pri p = g.pri p) {more : Nat}
    (queue : g'.timer.queue.length ≤ g.timer.queue.length + more) :
    latency g' stack ≤ latency g stack + timeoutCost * handlers stack * more := by
  induction stack with
  | nil => exact Nat.zero_le _
  | cons act rest ih =>
    have inner : ∀ p ∈ rest.filterMap Act.holds, p ∈ (act :: rest).filterMap Act.holds := by
      intro p mem
      obtain ⟨a, below, holds⟩ := List.mem_filterMap.mp mem
      exact List.mem_filterMap.mpr ⟨a, List.mem_cons_of_mem _ below, holds⟩
    have others := ih staged.below (fun p mem => stays p (inner p mem))
      fun p mem => pri p (inner p mem)
    have levels : level g'.pri rest = level g.pri rest :=
      level_congr fun p mem => pri p (inner p mem)
    have own : act.cost g' rest ≤ act.cost g rest + timeoutCost * act.queues * more := by
      cases act with
      | schedule base p pc =>
        have known : (g.proc p).state ∈ pc.stages := staged _ List.mem_cons_self
        have level : (g'.proc p).pri = (g.proc p).pri := pri p List.mem_cons_self
        simp only [Act.cost, Act.queues, level]
        rcases stays p List.mem_cons_self with same | ⟨was, now⟩
        · rw [same]
          omega
        · rw [was] at known
          rw [was, now, SchedulePc.cost_ready known]
          omega
      | ready q pc =>
        simp only [Act.cost, levels]
        omega
      | signal intr saved pc =>
        have longer := length_cost queue
        cases pc <;> simp only [Act.cost, SignalPc.cost, Act.queues, Nat.mul_one] <;> omega
      | timeoutHandler pc =>
        have longer := length_cost queue
        cases pc <;> simp only [Act.cost, TimeoutPc.cost, Act.queues, Nat.mul_one] <;> omega
      | _ => exact Nat.le_add_right _ _
    rw [handlers_cons, Nat.mul_add, Nat.add_mul]
    simp only [latency]
    omega

end Frame

/-! ## What a step costs -/

/-- The timeouts that a step queues. -/
def Act.inserting : Act → Nat
  | .enableAlt _ (.insert _ _ _ _) => 1
  | _ => 0

/-- A step comes to application code, or costs less than what the activation had left, whatever the
others cost. -/
def Lowers (act : Act) (rest : List Act) (g : Globals) (stack : List Act) (g' : Globals) : Prop :=
  inApplication stack = true ∨
    latency g' stack + timeoutCost * handlers rest * act.inserting < act.cost g rest + latency g' rest

section Steps

variable {rest : List Act} {g : Globals}

/-- A return is a step less. -/
theorem Lowers.ret {act : Act} {g' : Globals} (v : Value) (none : act.inserting = 0)
    (positive : 0 < act.cost g rest) : Lowers act rest g (returnTo v rest) g' := by
  refine Or.inr ?_
  rw [latency_returnTo, none]
  omega

theorem execTake_lowers {pri : Nat} {pc : TakePc} :
    (execTake pri pc g).All (Lowers (.take pri pc) rest g) rest := by
  cases pc <;> simp only [execTake] <;> (repeat' split) <;>
    first
      | exact .ret _ rfl (by simp [Act.cost, TakePc.cost])
      | exact Or.inr (by simp only [latency, Act.cost, TakePc.cost, Act.inserting]; omega)

theorem execAppend_lowers {p : Addr} {pc : AppendPc} :
    (execAppend p pc g).All (Lowers (.append p pc) rest g) rest := by
  cases pc <;> simp only [execAppend] <;> (repeat' split) <;>
    first
      | exact .ret _ rfl (by simp [Act.cost, AppendPc.cost])
      | exact Or.inr (by simp only [latency, Act.cost, AppendPc.cost, Act.inserting]; omega)

theorem execStart_lowers {args : StartArgs} {pc : StartPc} :
    (execStart args pc g).All (Lowers (.start args pc) rest g) rest := by
  cases pc <;> simp only [execStart] <;> (repeat' split) <;>
    first
      | trivial
      | exact .ret _ rfl (by simp [Act.cost, StartPc.cost])
      | exact Or.inr (by
          simp only [latency, Act.cost, StartPc.cost, AppendPc.cost, Act.inserting]; omega)

theorem execMain_lowers {pc : MainPc} : (execMain pc g).All (Lowers (.main pc) rest g) rest := by
  cases pc <;> simp only [execMain] <;> (repeat' split) <;>
    first
      | trivial
      | exact Or.inl rfl
      | exact Or.inr (by
          simp only [latency, Act.cost, MainPc.cost, AppendPc.cost, Act.inserting]; omega)

/-- `highest_ready` finds a level. -/
theorem highestReady_le_priMax (mask : BitVec 8) : highestReady mask ≤ priMax :=
  highestReady_le fun i above => BitVec.getLsbD_of_ge _ _ (by simp only [priMax] at above; omega)

theorem execSelect_lowers {base : Int} {pc : SelectPc}
    (taken : ∀ p, pc = .took (some p) → base < (g.proc p).pri ∧ (g.proc p).state ≠ .quiescent) :
    (execSelect base pc g).All (Lowers (.select base pc) rest g) rest := by
  cases pc with
  | top =>
    refine Or.inr ?_
    have high := highestReady_le_priMax g.priorityMask
    simp only [latency, Act.cost, SelectPc.cost, Act.inserting]
    split
    · have least := two_le_selectCost base
      omega
    · have below : base < priMax := by omega
      rw [selectCost_succ below]
      omega
  | chosen highest =>
    simp only [execSelect]
    split
    · rename_i low
      exact .ret _ rfl (by simp [Act.cost, SelectPc.cost, low])
    · rename_i above
      refine Or.inr ?_
      simp only [latency, Act.cost, SelectPc.cost, TakePc.cost, Act.inserting, if_neg above]
      omega
  | taking => trivial
  | took r =>
    cases r with
    | none => trivial
    | some p =>
      obtain ⟨above, other⟩ := taken p rfl
      refine Or.inr ?_
      have next : base + 1 ≤ ((g.proc p).pri : Int) := by omega
      have less := selectCost_anti next
      simp only [latency, Act.cost, SelectPc.cost, SchedulePc.cost, Act.inserting, if_neg other]
      omega

theorem execSchedule_lowers {base : Int} {p : Addr} {pc : SchedulePc}
    (staged : (Act.schedule base p pc).Staged g) :
    (execSchedule base p pc g).All (Lowers (.schedule base p pc) rest g) rest := by
  have staged : (g.proc p).state ∈ pc.stages := staged
  have least := two_le_selectCost base
  cases pc with
  | top =>
    refine Or.inr ?_
    simp only [latency, Act.cost, SchedulePc.cost, Act.inserting]
    rcases state : (g.proc p).state with _ | _ | _ | _ | _ | _ <;>
      simp [SchedulePc.stages, state] at staged ⊢
  | dispatch state =>
    cases state with
    | initial => exact Or.inl rfl
    | quiescent =>
      refine Or.inr ?_
      simp only [latency, Act.cost, SchedulePc.cost, EnablePc.cost, Act.inserting, Globals.emit,
        Globals.setState_pri, handlers_cons, Act.queues, Nat.zero_add]
      omega
    | ready =>
      refine Or.inr ?_
      simp only [latency, Act.cost, SchedulePc.cost, DisablePc.cost, Act.inserting, Globals.emit]
      omega
    | _ => simp [SchedulePc.stages] at staged
  | initial =>
    refine Or.inr ?_
    simp only [latency, Act.cost, SchedulePc.cost, Act.inserting, Globals.setState_pri,
      Globals.setState_state_self, reduceCtorEq, if_false]
    omega
  | enabling => trivial
  | enabled found partner =>
    refine Or.inr ?_
    simp only [latency, Act.cost, Act.inserting, Globals.enable_proc, Globals.setState_pri]
    have states : (g.proc p).state = .enabling ∨ (g.proc p).state = .ready := by
      simpa [SchedulePc.stages] using staged
    rcases states with state | state <;> cases found <;>
      simp only [state, PState.afterEnabling, SchedulePc.cost, reduceCtorEq, if_false, if_true,
        Bool.false_eq_true] <;> omega
  | branch state partner =>
    cases state with
    | waiting =>
      refine Or.inr ?_
      cases partner <;>
        simp only [latency, Act.cost, SchedulePc.cost, Act.inserting] <;> omega
    | ready =>
      refine Or.inr ?_
      simp only [latency, Act.cost, SchedulePc.cost, DisablePc.cost, Act.inserting, Globals.emit]
      omega
    | _ => simp [SchedulePc.stages] at staged
  | disabling => trivial
  | disabled partner =>
    refine Or.inr ?_
    cases partner <;>
      simp only [latency, Act.cost, SchedulePc.cost, Act.inserting, Globals.setState_pri] <;> omega
  | partner partner executes =>
    cases partner <;> cases executes <;> refine Or.inr ?_ <;>
      simp only [latency, Act.cost, SchedulePc.cost, ReadyPc.cost, level, Act.inserting, enterReady,
        Globals.emit, Globals.enter_proc, Globals.disable_proc, Globals.pri] <;> omega
  | readying executes =>
    cases executes <;> refine Or.inr ?_ <;>
      simp only [latency, Act.cost, SchedulePc.cost, Act.inserting] <;> omega
  | execute executes =>
    cases executes with
    | false =>
      refine Or.inr ?_
      have waiting : (g.proc p).state = .waiting := List.mem_singleton.mp staged
      simp only [latency, Act.cost, SchedulePc.cost, Act.inserting, waiting, if_true]
      omega
    | true => exact Or.inl rfl
  | executing =>
    refine Or.inr ?_
    simp only [latency, Act.cost, SchedulePc.cost, Act.inserting]
    split <;> omega
  | finish =>
    simp only [execSchedule, Globals.disable_proc]
    have states : (g.proc p).state = .quiescent ∨ (g.proc p).state = .waiting ∨
        (g.proc p).state = .done := by simpa [SchedulePc.stages] using staged
    rcases states with state | state | state <;> simp only [state] <;> refine Or.inr ?_ <;>
      simp only [latency, Act.cost, SchedulePc.cost, SelectPc.cost, Act.inserting,
        Globals.disable_proc, state, if_true, reduceCtorEq, if_false] <;> omega

/-- One guard less is left. -/
theorem guard_cost {k : Nat} (guard : k < 255) (queued : Nat) :
    (255 - k) * (queued + 2) = (255 - (k + 1)) * (queued + 2) + (queued + 2) := by
  have fewer : 255 - k = 255 - (k + 1) + 1 := by omega
  rw [fewer, Nat.succ_mul]

theorem execEnableAlt_lowers {p : Addr} {pc : EnablePc} (bytes : (g.proc p).EightBits)
    (counts : (Act.enableAlt p pc).Counts) :
    (execEnableAlt p pc g).All (Lowers (.enableAlt p pc) rest g) rest := by
  cases pc with
  | enter =>
    simp only [execEnableAlt]
    (repeat' split) <;>
      first
        | trivial
        | exact Or.inr (by simp only [latency, Act.cost, EnablePc.cost, Act.inserting]; omega)
  | loop i k partner =>
    simp only [execEnableAlt]
    split
    · rename_i more
      have guard : k < 255 := Nat.lt_of_lt_of_le more bytes.1
      have fewer := guard_cost guard (timeoutCost * handlers rest)
      (repeat' split) <;>
        exact Or.inr (by simp only [latency, Act.cost, EnablePc.cost, Act.inserting]; omega)
    · split
      · trivial
      · exact Or.inr (by simp only [latency, Act.cost, EnablePc.cost, Act.inserting]; omega)
  | insert i k t partner =>
    have fewer := guard_cost counts (timeoutCost * handlers rest)
    simp only [execEnableAlt]
    split
    · trivial
    · exact Or.inr (by simp only [latency, Act.cost, EnablePc.cost, Act.inserting]; omega)
  | done i k ready partner => exact .ret _ rfl (by simp [Act.cost, EnablePc.cost])

theorem execDisableAlt_lowers {p : Addr} {pc : DisablePc} (bytes : (g.proc p).EightBits) :
    (execDisableAlt p pc g).All (Lowers (.disableAlt p pc) rest g) rest := by
  have small := bytes.2
  cases pc with
  | loop i left partner =>
    cases left <;> simp only [execDisableAlt] <;> (repeat' split) <;>
      first
        | trivial
        | exact .ret _ rfl (by simp [Act.cost, DisablePc.cost])
        | exact Or.inr (by simp only [latency, Act.cost, DisablePc.cost, Act.inserting]; omega)
  | _ =>
    simp only [execDisableAlt]
    (repeat' split) <;>
      first
        | trivial
        | exact .ret _ rfl (by simp [Act.cost, DisablePc.cost])
        | exact Or.inr (by simp only [latency, Act.cost, DisablePc.cost, Act.inserting]; omega)

theorem execReady_lowers {q : Addr} {pc : ReadyPc}
    (current : ∀ c, g.current = some c → pc = .appended → level g.pri rest ≤ (g.proc c).pri) :
    (execReady q pc g).All (Lowers (.ready q pc) rest g) rest := by
  cases pc with
  | test =>
    simp only [execReady]
    split
    · exact .ret _ rfl (by simp [Act.cost, ReadyPc.cost])
    · refine Or.inr ?_
      simp only [latency, Act.cost, ReadyPc.cost, AppendPc.cost, Act.inserting, Globals.pri_enter,
        Globals.pri_setState]
      omega
  | appended =>
    simp only [execReady, callSchedule]
    split
    · trivial
    · rename_i c here
      split
      · have less := selectCost_anti (current c here rfl)
        refine Or.inr ?_
        simp only [latency, Act.cost, ReadyPc.cost, SelectPc.cost, Act.inserting]
        omega
      · exact .ret _ rfl (by simp [Act.cost, ReadyPc.cost])
  | scheduling prev => exact .ret _ rfl (by simp [Act.cost, ReadyPc.cost])

/-- No `schedule` costs more than the one that `main` calls. -/
theorem selectCost_le (base : Nat) : selectCost base ≤ worstCost := selectCost_anti (by omega)

theorem execSignal_lowers {intr : Nat} {saved : SigSet} {pc : SignalPc} :
    (execSignal intr saved pc g).All (Lowers (.signal intr saved pc) rest g) rest := by
  cases pc with
  | enter =>
    simp only [execSignal]
    (repeat' split) <;> refine Or.inr ?_ <;>
      simp only [latency, Act.cost, SignalPc.cost, TimeoutPc.cost, Act.inserting] <;> omega
  | handled previously =>
    simp only [execSignal, callScheduleAtCurrent, callSchedule]
    split
    · split
      · trivial
      · rename_i c here
        have less := selectCost_le (g.proc c).pri
        refine Or.inr ?_
        simp only [latency, Act.cost, SignalPc.cost, SelectPc.cost, Act.inserting,
          Globals.disable_proc]
        omega
    · refine Or.inr ?_
      simp only [latency, Act.cost, SignalPc.cost, Act.inserting]
      omega
  | scheduled previously =>
    refine Or.inr ?_
    simp only [latency, Act.cost, SignalPc.cost, Act.inserting]
    omega
  | leave => exact .ret _ rfl (by simp [Act.cost, SignalPc.cost])

/-- A level is no lower than that of `main`. -/
theorem neg_one_le_level (pri : Addr → Nat) (stack : List Act) : -1 ≤ level pri stack := by
  induction stack with
  | nil => simp [level]
  | cons act rest ih =>
    cases act with
    | main pc => simp [level]
    | schedule base p pc =>
      simp only [level]
      omega
    | _ => exact ih

/-- One timeout less is left. -/
theorem tail_cost {queue : List TimeoutId} (some : 0 < queue.length) :
    queue.length * timeoutCost = queue.tail.length * timeoutCost + timeoutCost := by
  have fewer : queue.length = queue.tail.length + 1 := by
    rw [List.length_tail, Nat.sub_add_cancel some]
  rw [fewer, Nat.succ_mul]

theorem execTimeoutHandler_lowers {pc : TimeoutPc} :
    (execTimeoutHandler pc g).All (Lowers (.timeoutHandler pc) rest g) rest := by
  cases pc with
  | enter =>
    refine Or.inr ?_
    simp only [latency, Act.cost, TimeoutPc.cost, Act.inserting]
    omega
  | test now head =>
    simp only [execTimeoutHandler]
    (repeat' split) <;>
      first
        | exact .ret _ rfl (by simp [Act.cost, TimeoutPc.cost])
        | exact Or.inr (by simp only [latency, Act.cost, TimeoutPc.cost, Act.inserting]; omega)
  | remove now t =>
    simp only [execTimeoutHandler, readyOrFault]
    split
    · trivial
    · rename_i some
      split
      · trivial
      · have level := selectCost_anti (neg_one_le_level g.pri rest)
        have left := tail_cost (List.length_pos_iff.mpr some)
        refine Or.inr ?_
        simp only [latency, Act.cost, TimeoutPc.cost, ReadyPc.cost, Act.inserting, left]
        change selectCost (Microcsp.level g.pri rest) + 10 +
          (g.timer.queue.tail.length * timeoutCost + 3 + _) + _ < _
        have each : timeoutCost = selectCost (-1) + 13 := rfl
        omega
  | resume now =>
    refine Or.inr ?_
    simp only [latency, Act.cost, TimeoutPc.cost, Act.inserting]
    omega

theorem execUserHandler_lowers {intrsrc : Nat} :
    (execUserHandler intrsrc g).All (Lowers (.userHandler intrsrc) rest g) rest := by
  have level := selectCost_anti (neg_one_le_level g.pri rest)
  simp only [execUserHandler]
  (repeat' split) <;>
    first
      | trivial
      | exact .ret _ rfl (by simp [Act.cost])
      | exact Or.inr (by
          simp only [latency, Act.cost, ReadyPc.cost, Act.inserting, worstCost]
          change selectCost (Microcsp.level g.pri rest) + 10 + _ + _ < _
          omega)

end Steps

/-! ## What it costs the others -/

section Steps

variable {act : Act} {rest : List Act} {g : Globals}

/-- An insertion adds one entry. -/
theorem length_insertInQueue (s : TimerState) (t : TimeoutId) (now : Time) :
    (s.insertInQueue t now).queue.length = s.queue.length + 1 := by
  rw [TimerState.insertInQueue_orderedInsert, List.orderedInsert_length]

/-- Only `enable_alt` queues a timeout. -/
theorem exec_queue : (exec act g).All
    (fun _ g' => g'.timer.queue.length ≤ g.timer.queue.length + act.inserting) rest := by
  cases act with
  | enableAlt p pc =>
    cases pc with
    | insert i k t partner =>
      simp only [exec, execEnableAlt]
      split
      · trivial
      · exact Nat.le_of_eq (length_insertInQueue _ _ _)
    | _ =>
      simp only [exec, execEnableAlt]
      (repeat' split) <;> first | trivial | exact Nat.le_refl _
  | disableAlt p pc =>
    cases pc <;> simp only [exec, execDisableAlt] <;> (repeat' split) <;>
      first | trivial | exact Nat.le_refl _ | exact (g.timer.removeFromQueue_sublist _ _).length_le
  | timeoutHandler pc =>
    cases pc <;> simp only [exec, execTimeoutHandler, readyOrFault] <;> (repeat' split) <;>
      first
        | trivial
        | exact Nat.le_refl _
        | exact (List.tail_sublist g.timer.queue).length_le
        | exact (congrArg List.length (Expiry.restart_queue _ _)).le.trans (Nat.le_add_right _ _)
  | main pc =>
    cases pc <;> simp only [exec, execMain] <;> (repeat' split) <;>
      first | trivial | exact Nat.le_refl _
  | select base pc =>
    cases pc <;> simp only [exec, execSelect] <;> (repeat' split) <;>
      first | trivial | exact Nat.le_refl _
  | schedule base p pc =>
    cases pc <;> simp only [exec, execSchedule, callDisableAlt] <;> (repeat' split) <;>
      first | trivial | exact Nat.le_refl _
  | take pri pc =>
    cases pc <;> simp only [exec, execTake] <;> (repeat' split) <;> exact Nat.le_refl _
  | append p pc =>
    cases pc <;> simp only [exec, execAppend] <;> (repeat' split) <;> exact Nat.le_refl _
  | start args pc =>
    cases pc <;> simp only [exec, execStart] <;> (repeat' split) <;>
      first | trivial | exact Nat.le_refl _
  | rtc p => trivial
  | ready q pc =>
    cases pc <;> simp only [exec, execReady, callSchedule] <;> (repeat' split) <;>
      first | trivial | exact Nat.le_refl _
  | signal intr saved pc =>
    cases pc <;> simp only [exec, execSignal, callScheduleAtCurrent, callSchedule] <;>
      (repeat' split) <;> first | trivial | exact Nat.le_refl _
  | userHandler intrsrc =>
    simp only [exec, execUserHandler]
    (repeat' split) <;> first | trivial | exact Nat.le_refl _

/-- Where nothing in progress is filled, the priorities of the processes in progress stay. -/
theorem exec_pri (filled : ∀ p ∈ rest.filterMap Act.holds, act.reserves ≠ some p) :
    (exec act g).All (fun _ g' => ∀ p ∈ rest.filterMap Act.holds, g'.pri p = g.pri p) rest := by
  have each : ∀ p : { p // p ∈ rest.filterMap Act.holds },
      (exec act g).All (fun _ g' => g'.pri p = g.pri p) rest := by
    rintro ⟨p, held⟩
    exact (exec_kind (filled p held)).imp fun _ g' same => same.2
  exact (Result.All.forall each).imp fun _ _ all p held => all ⟨p, held⟩

/-- The costs of the others grow by those of the timeouts that are queued. -/
theorem exec_below (staged : Staged rest g) (apart : Apart act rest g) :
    (exec act g).All (fun _ g' => latency g' rest ≤
      latency g rest + timeoutCost * handlers rest * act.inserting) rest :=
  (((exec_stays apart).and (exec_pri apart.filled)).and exec_queue).imp
    fun _ _ all => latency_le staged all.1.1 all.1.2 all.2

/-- The costs depend on the records and on the timeout queue only. -/
theorem latency_congr {stack : List Act} {g' : Globals} (proc : g'.proc = g.proc)
    (timer : g'.timer = g.timer) : latency g' stack = latency g stack := by
  have pri : g'.pri = g.pri := funext fun p => congrArg Process.pri (congrFun proc p)
  induction stack with
  | nil => rfl
  | cons act rest ih =>
    have own : act.cost g' rest = act.cost g rest := by
      cases act <;> simp only [Act.cost, proc, timer, pri]
    rw [latency, latency, own, ih]

/-- Queue operations cost the others nothing. -/
theorem exec_queueing (queueing : queueing (act :: rest) = true) :
    (exec act g).All (fun _ g' => latency g' rest ≤
      latency g rest + timeoutCost * handlers rest * act.inserting) rest := by
  have same : ∀ {g' : Globals}, g'.proc = g.proc → g'.timer = g.timer → latency g' rest ≤
      latency g rest + timeoutCost * handlers rest * act.inserting := fun proc timer =>
    (latency_congr proc timer).le.trans (Nat.le_add_right _ _)
  cases act with
  | take pri pc =>
    cases pc <;> simp only [exec, execTake] <;> (repeat' split) <;> exact same rfl rfl
  | append p pc =>
    cases pc <;> simp only [exec, execAppend] <;> (repeat' split) <;> exact same rfl rfl
  | _ => cases queueing

end Steps

/-! ## The runtime is never stuck -/

/-- The base of an activation of `schedule`. -/
def Act.base : Act → Option Int
  | .select base _ => some base
  | .schedule base _ _ => some base
  | _ => none

/-- The activation waits for what it has called. -/
def Act.waits : Act → Bool
  | .main .running | .select _ .taking | .schedule _ _ .enabling | .schedule _ _ .disabling => true
  | _ => false

/-- The innermost activation waits for nothing. -/
def Wakeful : List Act → Prop
  | act :: _ => act.waits = false
  | [] => False

/-- What was interrupted waits for nothing. -/
def Interrupted : List Act → Prop
  | .signal _ _ _ :: rest => Wakeful rest ∧ Interrupted rest
  | _ :: rest => Interrupted rest
  | [] => True

/-- `schedule` over `main` has a base below every level. -/
def Rooted : List Act → Prop
  | act :: caller :: rest =>
    (caller = .main .running → ∀ base, act.base = some base → base = -1) ∧ Rooted (caller :: rest)
  | _ => True

/-- The innermost activation can go on, and will again when it has been interrupted. -/
structure Awake (stack : List Act) : Prop where
  /-- The innermost activation. -/
  top : Wakeful stack
  /-- Those that were interrupted. -/
  interrupted : Interrupted stack
  /-- The outermost `schedule`. -/
  rooted : Rooted stack

section Awake

variable {act : Act} {rest : List Act} {g : Globals}

theorem interrupted_signal {intr : Nat} {saved : SigSet} {pc : SignalPc} :
    Interrupted (.signal intr saved pc :: rest) ↔ Wakeful rest ∧ Interrupted rest := Iff.rfl

theorem Interrupted.tail (inv : Interrupted (act :: rest)) : Interrupted rest := by
  cases act with
  | signal intr saved pc => exact (interrupted_signal.mp inv).2
  | _ => exact inv

theorem Interrupted.cons (inv : Interrupted rest) (other : act.callee ≠ .signal) :
    Interrupted (act :: rest) := by
  cases act with
  | signal intr saved pc => exact absurd rfl other
  | _ => exact inv

/-- The same function goes on. -/
theorem Interrupted.replace {act' : Act} (inv : Interrupted (act :: rest))
    (same : act'.callee = .signal → act.callee = .signal) : Interrupted (act' :: rest) := by
  by_cases signal : act'.callee = .signal
  · have was := same signal
    cases act with
    | signal intr saved pc =>
      cases act' with
      | signal intr' saved' pc' => exact inv
      | _ => cases signal
    | _ => cases was
  · exact inv.tail.cons signal

theorem Rooted.tail (inv : Rooted (act :: rest)) : Rooted rest := by
  cases rest with
  | nil => trivial
  | cons caller under => exact inv.2

theorem Rooted.replace {act' : Act} (inv : Rooted (act :: rest))
    (base : act'.base = act.base ∨ act'.base = none) : Rooted (act' :: rest) := by
  cases rest with
  | nil => trivial
  | cons caller under =>
    refine ⟨fun main b own => ?_, inv.2⟩
    rcases base with same | none
    · exact inv.1 main b (same ▸ own)
    · rw [none] at own
      cases own

/-- A return leaves the bases as they are. -/
theorem Rooted.returnTo (inv : Rooted rest) (v : Value) : Rooted (returnTo v rest) := by
  cases rest with
  | nil => trivial
  | cons caller under =>
    refine inv.replace ?_
    unfold Act.resume
    split <;> exact Or.inl rfl

theorem Interrupted.returnTo (inv : Interrupted rest) (v : Value) :
    Interrupted (returnTo v rest) := by
  cases rest with
  | nil => trivial
  | cons caller under => exact inv.replace fun signal => by rwa [Act.resume_callee] at signal

/-- The callers of these wait for no value. -/
theorem Act.admits.wakes {caller : Act} {callee : Callee} (calls : caller.admits callee)
    (none : (∃ p, callee = .append p) ∨ callee = .start ∨ callee = .ready ∨
      callee = .timeoutHandler ∨ callee = .userHandler) : caller.waits = false := by
  rcases none with ⟨p, rfl⟩ | rfl | rfl | rfl | rfl
  all_goals
    cases caller with
    | main pc => cases pc <;> first | rfl | exact calls.elim
    | select base pc => exact calls.elim
    | schedule base p pc => cases pc <;> first | rfl | exact calls.elim
    | _ => rfl

/-- They go on where these return. -/
theorem Admitted.wakes {callee : Callee} (atop : Admitted callee rest)
    (none : (∃ p, callee = .append p) ∨ callee = .start ∨ callee = .ready ∨
      callee = .timeoutHandler ∨ callee = .userHandler) :
    Wakeful (Microcsp.returnTo .unit rest) := by
  rw [returnTo_unit]
  cases rest with
  | nil => rcases none with ⟨p, rfl⟩ | rfl | rfl | rfl | rfl <;> simp [Admitted] at atop
  | cons caller under => exact Act.admits.wakes atop none

/-- What a step leaves on top of the stack waits for nothing. -/
theorem exec_wakeful (stacked : Stacked (act :: rest)) (awake : Awake (act :: rest)) :
    (exec act g).All (fun stack _ => Wakeful stack) rest := by
  have atop := stacked.1
  cases act with
  | main pc => cases pc <;> simp only [exec, execMain] <;> (repeat' split) <;> trivial
  | select base pc =>
    cases pc with
    | chosen highest =>
      simp only [exec, execSelect]
      split
      · rename_i low
        rw [Result.all_ret, returnTo_unit]
        cases rest with
        | nil => simp [Act.callee, Admitted] at atop
        | cons caller under =>
          have calls : caller.admits .schedule := atop
          cases caller with
          | main pc =>
            cases pc with
            | running =>
              have least := awake.rooted.1 rfl base rfl
              omega
            | _ => exact calls.elim
          | select b pc => exact calls.elim
          | schedule b p pc => exact calls.elim
          | _ => rfl
      · rfl
    | took r => cases r <;> trivial
    | _ => trivial
  | schedule base p pc =>
    cases pc <;> simp only [exec, execSchedule, callDisableAlt] <;> (repeat' split) <;>
      trivial
  | take pri pc =>
    obtain ⟨base, under, rfl⟩ := atop.caller_of_take
    cases pc <;> simp only [exec, execTake] <;> (repeat' split) <;> rfl
  | append p pc =>
    have back := atop.wakes (Or.inl ⟨p, rfl⟩)
    cases pc <;> simp only [exec, execAppend] <;> (repeat' split) <;> trivial
  | start args pc =>
    have back := atop.wakes (Or.inr (Or.inl rfl))
    cases pc <;> simp only [exec, execStart] <;> (repeat' split) <;>
      trivial
  | rtc p => trivial
  | enableAlt p pc =>
    obtain ⟨base, under, rfl⟩ := atop.caller_of_enableAlt
    cases pc <;> simp only [exec, execEnableAlt] <;> (repeat' split) <;> trivial
  | disableAlt p pc =>
    obtain ⟨base, under, rfl⟩ := atop.caller_of_disableAlt
    cases pc <;> simp only [exec, execDisableAlt] <;> (repeat' split) <;> trivial
  | ready q pc =>
    have back := atop.wakes (Or.inr (Or.inr (Or.inl rfl)))
    cases pc <;> simp only [exec, execReady, callSchedule] <;> (repeat' split) <;>
      trivial
  | signal intr saved pc =>
    have back := awake.interrupted.1
    cases pc <;> simp only [exec, execSignal, callScheduleAtCurrent, callSchedule] <;>
      (repeat' split) <;> first | trivial | (rw [Result.all_ret, returnTo_unit]; exact back)
  | timeoutHandler pc =>
    have back := atop.wakes (Or.inr (Or.inr (Or.inr (Or.inl rfl))))
    cases pc <;> simp only [exec, execTimeoutHandler, readyOrFault] <;> (repeat' split) <;>
      trivial
  | userHandler intrsrc =>
    have back := atop.wakes (Or.inr (Or.inr (Or.inr (Or.inr rfl))))
    simp only [exec, execUserHandler]
    (repeat' split) <;> trivial

/-- Nor does what a call of application code leaves there. -/
theorem execUser_wakeful {op : Op} (stacked : Stacked (act :: rest)) :
    (execUser op act g).All (fun stack _ => Wakeful stack) rest := by
  unfold execUser
  split
  · rename_i p
    split
    · cases op with
      | ret =>
        have atop : Admitted (.rtc p) rest := stacked.1
        obtain ⟨base, under, rfl | rfl⟩ := atop.caller_of_rtc <;> rfl
      | _ =>
        simp only [userRtc]
        (repeat' split) <;> trivial
    · trivial
  · cases op <;> simp only [userMain, callSchedule] <;> (repeat' split) <;> trivial
  · trivial

/-- What a step may do to the bases: `schedule` keeps its own, and only `main` calls it below every
level. -/
def KeepsBase (act : Act) : List Act → Prop
  | [] => True
  | [act'] => act'.base = act.base ∨ act'.base = none
  | callee :: caller :: _ => (caller.base = act.base ∨ caller.base = none) ∧
    (caller = .main .running → ∀ base, callee.base = some base → base = -1)

theorem exec_keepsBase (act : Act) (g : Globals) :
    (exec act g).All (fun stack _ => KeepsBase act stack) [] := by
  cases act with
  | main pc =>
    cases pc <;> simp only [exec, execMain] <;> (repeat' split) <;>
      simp [Result.All, KeepsBase, Act.base]
  | select base pc =>
    cases pc <;> simp only [exec, execSelect] <;> (repeat' split) <;>
      simp [Result.All, KeepsBase, Act.base, returnTo]
  | schedule base p pc =>
    cases pc <;> simp only [exec, execSchedule, callDisableAlt] <;> (repeat' split) <;>
      simp [Result.All, KeepsBase, Act.base]
  | take pri pc =>
    cases pc <;> simp only [exec, execTake] <;> (repeat' split) <;>
      simp [Result.All, KeepsBase, Act.base, returnTo]
  | append p pc =>
    cases pc <;> simp only [exec, execAppend] <;> (repeat' split) <;>
      simp [Result.All, KeepsBase, Act.base, returnTo]
  | start args pc =>
    cases pc <;> simp only [exec, execStart] <;> (repeat' split) <;>
      simp [Result.All, KeepsBase, Act.base, returnTo]
  | rtc p => trivial
  | enableAlt p pc =>
    cases pc <;> simp only [exec, execEnableAlt] <;> (repeat' split) <;>
      simp [Result.All, KeepsBase, Act.base, returnTo]
  | disableAlt p pc =>
    cases pc <;> simp only [exec, execDisableAlt] <;> (repeat' split) <;>
      simp [Result.All, KeepsBase, Act.base, returnTo]
  | ready q pc =>
    cases pc <;> simp only [exec, execReady, callSchedule] <;> (repeat' split) <;>
      simp [Result.All, KeepsBase, Act.base, returnTo]
  | signal intr saved pc =>
    cases pc <;> simp only [exec, execSignal, callScheduleAtCurrent, callSchedule] <;>
      (repeat' split) <;> simp [Result.All, KeepsBase, Act.base, returnTo]
  | timeoutHandler pc =>
    cases pc <;> simp only [exec, execTimeoutHandler, readyOrFault] <;> (repeat' split) <;>
      simp [Result.All, KeepsBase, Act.base, returnTo]
  | userHandler intrsrc =>
    simp only [exec, execUserHandler]
    (repeat' split) <;> simp [Result.All, KeepsBase, Act.base, returnTo]

theorem execUser_keepsBase {op : Op} :
    (execUser op act g).All (fun stack _ => KeepsBase act stack) [] := by
  unfold execUser
  split
  · split
    · cases op <;> simp only [userRtc] <;> (repeat' split) <;>
        simp [Result.All, KeepsBase, Act.base, returnTo]
    · trivial
  · cases op <;> simp only [userMain, callSchedule] <;> (repeat' split) <;>
      simp [Result.All, KeepsBase, Act.base, priMin]
  · trivial

/-- A step keeps the bases right. -/
theorem rooted_all {r : Result} (inv : Rooted (act :: rest))
    (keeps : r.All (fun stack _ => KeepsBase act stack) []) :
    r.All (fun stack _ => Rooted stack) rest := by
  cases r with
  | next act' g' => exact inv.replace keeps
  | call caller callee g' => exact ⟨keeps.2, inv.replace keeps.1⟩
  | ret v g' => exact inv.tail.returnTo v
  | stop why => trivial
  | stuck => trivial

/-- A step leaves what was interrupted as it is. -/
theorem interrupted_all {r : Result} (inv : Interrupted (act :: rest))
    (follows : r.All (fun stack _ => Follows act stack) []) :
    r.All (fun stack _ => Interrupted stack) rest := by
  cases r with
  | next act' g' =>
    refine inv.replace fun signal => ?_
    rcases follows with same | ⟨-, ready⟩
    · exact same.symm.trans signal
    · exact absurd (ready.symm.trans signal) (by simp)
  | call caller callee g' =>
    obtain ⟨same, -, other⟩ := follows
    exact (inv.replace fun signal => same.symm.trans signal).cons other
  | ret v g' => exact inv.tail.returnTo v
  | stop why => trivial
  | stuck => trivial

/-- Every step keeps the innermost activation going. -/
theorem awake_kept : Kept Always (fun stack _ => Stacked stack ∧ Awake stack) := by
  refine (stacked_kept.mono fun _ _ _ => trivial).and ?_
  exact {
    run := fun act rest g given awake => (exec_wakeful given.2 awake).and
      ((interrupted_all awake.interrupted (exec_follows act g)).and
        (rooted_all awake.rooted (exec_keepsBase act g))) |>.imp
          fun _ _ all => ⟨all.1, all.2.1, all.2.2⟩
    user := fun op act rest g given awake => (execUser_wakeful given.2).and
      ((interrupted_all awake.interrupted (execUser_follows op act g)).and
        (rooted_all awake.rooted execUser_keepsBase)) |>.imp
          fun _ _ all => ⟨all.1, all.2.1, all.2.2⟩
    interrupt := fun intr stack g _ _ _ awake => by
      refine ⟨rfl, interrupted_signal.mpr ⟨awake.top, awake.interrupted⟩, ?_⟩
      cases stack with
      | nil => trivial
      | cons act rest =>
        refine ⟨fun _ base none => ?_, awake.rooted⟩
        cases none
    clock := fun t stack g _ awake => awake }

/-- An activation that waits for nothing and is not application code can go on. -/
theorem exec_ne_stuck (wakes : act.waits = false) (other : act.applies = false) :
    exec act g ≠ .stuck := by
  cases act with
  | main pc =>
    cases pc with
    | user => cases other
    | running => cases wakes
    | _ =>
      simp only [exec, execMain]
      (repeat' split) <;> simp
  | select base pc =>
    cases pc with
    | taking => cases wakes
    | took r => cases r <;> simp [exec, execSelect]
    | _ =>
      simp only [exec, execSelect]
      (repeat' split) <;> simp
  | schedule base p pc =>
    cases pc with
    | enabling => cases wakes
    | disabling => cases wakes
    | partner q executes => cases q <;> simp [exec, execSchedule]
    | execute executes => cases executes <;> simp [exec, execSchedule]
    | _ =>
      simp only [exec, execSchedule, callDisableAlt]
      (repeat' split) <;> simp
  | take pri pc => cases pc <;> simp only [exec, execTake] <;> (repeat' split) <;> simp
  | append p pc => cases pc <;> simp only [exec, execAppend] <;> (repeat' split) <;> simp
  | start args pc => cases pc <;> simp only [exec, execStart] <;> (repeat' split) <;> simp
  | rtc p => cases other
  | enableAlt p pc => cases pc <;> simp only [exec, execEnableAlt] <;> (repeat' split) <;> simp
  | disableAlt p pc => cases pc <;> simp only [exec, execDisableAlt] <;> (repeat' split) <;> simp
  | ready q pc =>
    cases pc <;> simp only [exec, execReady, callSchedule] <;> (repeat' split) <;> simp
  | signal intr saved pc =>
    cases pc <;> simp only [exec, execSignal, callScheduleAtCurrent, callSchedule] <;>
      (repeat' split) <;> simp
  | timeoutHandler pc =>
    cases pc <;> simp only [exec, execTimeoutHandler, readyOrFault] <;> (repeat' split) <;> simp
  | userHandler intrsrc =>
    simp only [exec, execUserHandler]
    (repeat' split) <;> simp

end Awake

/-! ## Stretches without application code -/

/-- The conditions: interrupts come where they should, `handle_signal` finds nothing above the
process it interrupts, and the queues are kept. -/
def keepsPace (label : Label) (s : State) : Bool :=
  guarded label s && preemptsNothing label s && keepsQueues label s

/-- What the costs rest on. -/
structure Paced (stack : List Act) (g : Globals) : Prop where
  /-- The order of preemption. -/
  ranked : Ranked stack g
  /-- The queues hold what they should. -/
  own : Settled (fun stack g => ∃ s, Implements s stack g ∧ s.Exact) stack g
  /-- The states go with the stages. -/
  staged : Settled Staged stack g

/-- The conditions are those of the order of preemption where the queues hold what they should. -/
theorem keepsPace_regular {label : Label} {s : State} (keeps : keepsPace label s = true)
    (own : Settled (fun stack g => ∃ s, Implements s stack g ∧ s.Exact) s.stack s.g) :
    Regular label s := by
  simp only [keepsPace, keepsQueues, Bool.and_eq_true] at keeps
  obtain ⟨⟨guarded, preempts⟩, -, rightly⟩ := keeps
  refine ⟨guarded, preempts, ?_, releasesUnqueued_of_owning (own.imp fun _ _ owns =>
    owns.imp fun _ owns => ⟨owns.1, owns.2.toOwned⟩)⟩
  unfold readiesRightly at rightly
  unfold readiesLive
  split
  · rename_i q rest same
    rw [same] at rightly
    simp only [Bool.and_eq_true] at rightly
    rw [same]
    exact rightly.1
  · rfl

/-- Every step under the conditions keeps all this. -/
theorem paced_kept : Kept (fun label s => keepsPace label s = true) Paced := by
  have queues : ∀ {label s}, keepsPace label s = true → keepsQueues label s = true := by
    intro label s keeps
    simp only [keepsPace, Bool.and_eq_true] at keeps
    exact keeps.2
  have orderly := orderly_kept.mono fun label s (keeps : keepsPace label s = true) => by
    have keeps := queues keeps
    simp only [keepsQueues, Bool.and_eq_true] at keeps
    exact keeps.1.1
  have owns := orderly.and (exact_kept.mono fun label s given => ⟨queues given.1, given.2⟩)
  have staged := owns.and (staged_kept.mono fun label s given =>
    ⟨⟨queues given.1, given.2.1⟩, given.2.2⟩)
  have ranked := staged.and (ranked_kept.mono fun label s given =>
    keepsPace_regular given.1 given.2.1.2)
  exact ranked.iff fun stack g => ⟨fun all => ⟨all.2, all.1.1.2, all.1.2⟩,
    fun paced => ⟨⟨⟨paced.ranked.orderly, paced.own⟩, paced.staged⟩, paced.ranked⟩⟩

section Steps

variable {act : Act} {rest : List Act} {g : Globals}

/-- What `schedule` has taken is above its base, and `readyProcessIfNecessary` calls it for a
process at its level. -/
theorem exec_lowers (ranks : Ranks (act :: rest) g) (staged : act.Staged g)
    (bytes : InBytes (act :: rest) g) : (exec act g).All (Lowers act rest g) rest := by
  cases act with
  | main pc => exact execMain_lowers
  | select base pc =>
    refine execSelect_lowers fun p took => ?_
    subst took
    have taken : (g.proc p).state = .initial ∨ (g.proc p).state = .ready := staged
    refine ⟨ranks.bases.2.1, fun quiescent => ?_⟩
    rw [quiescent] at taken
    rcases taken with wrong | wrong <;> cases wrong
  | schedule base p pc => exact execSchedule_lowers staged
  | take pri pc => exact execTake_lowers
  | append p pc => exact execAppend_lowers
  | start args pc => exact execStart_lowers
  | rtc p => trivial
  | enableAlt p pc => exact execEnableAlt_lowers (bytes.bytes p) (bytes.counts _ List.mem_cons_self)
  | disableAlt p pc => exact execDisableAlt_lowers (bytes.bytes p)
  | ready q pc =>
    refine execReady_lowers fun c here appended => ?_
    subst appended
    have coherent : Coherent rest g.current := ranks.coherent
    rw [here] at coherent
    exact (coherent.baseOver ranks.orderly.stacked.2 ranks.uncut.tail
      (Admitted.interruptible_of_ready ranks.orderly.stacked.1)).1
  | signal intr saved pc => exact execSignal_lowers
  | timeoutHandler pc => exact execTimeoutHandler_lowers
  | userHandler intrsrc => exact execUserHandler_lowers

/-- Every step of the running code comes to application code or lowers the costs. -/
theorem Paced.step (paced : Paced (act :: rest) g) (bytes : InBytes (act :: rest) g)
    (keeps : keepsPace .run ⟨act :: rest, g, none⟩ = true) :
    (exec act g).All (fun stack g' => inApplication stack = true ∨
      latency g' stack < latency g (act :: rest)) rest := by
  suffices both : (exec act g).All (fun stack g' => Lowers act rest g stack g' ∧ latency g' rest ≤
      latency g rest + timeoutCost * handlers rest * act.inserting) rest by
    refine both.imp fun stack g' ⟨lowers, below⟩ => lowers.imp_right fun less => ?_
    rw [latency]
    omega
  by_cases other : queueing (act :: rest) = false
  · obtain ⟨s, impl, own⟩ := (settled_of_not_queueing other).mp paced.own
    have staged := (settled_of_not_queueing other).mp paced.staged
    simp only [keepsPace, keepsQueues, Bool.and_eq_true] at keeps
    exact (exec_lowers (paced.ranked.ranks other) (staged act List.mem_cons_self) bytes).and
      (exec_below staged.below (impl.apart own keeps.2.2))
  · have queues : queueing (act :: rest) = true := (Bool.not_eq_false _).mp other
    refine Result.All.and ?_ (exec_queueing queues)
    cases act with
    | take pri pc => exact execTake_lowers
    | append p pc => exact execAppend_lowers
    | _ => cases queues

end Steps

/-- The state is one of a run under the conditions. -/
def Reached (s : State) : Prop := ∃ first, Booted first ∧ (∀ p, (first.g.proc p).EightBits) ∧
  Run step (fun label s => keepsPace label s = true) first s

/-- What the costs rest on holds from `sched_init` on. -/
theorem Reached.paced {s : State} (reached : Reached s) :
    (Starting s.stack s.g ∨ Paced s.stack s.g) ∧ InBytes s.stack s.g := by
  obtain ⟨first, booted, bytes, run⟩ := reached
  constructor
  · refine paced_kept.from_sched_init (fun arena memlen g handlers pristine => ?_) booted run
    exact ⟨ranked_start pristine, scheduled_init (fun s => Sched.Vacant.exact) pristine,
      List.forall_mem_singleton.mpr trivial⟩
  · refine (inBytes_kept.mono fun _ _ _ => trivial).invariant ⟨bytes, ?_⟩ run
    obtain ⟨arena, memlen, same, -⟩ := booted.uninitialised
    rw [same]
    exact List.forall_mem_singleton.mpr trivial

/-- The innermost activation can go on. -/
theorem Reached.awake {s : State} (reached : Reached s) : Awake s.stack := by
  obtain ⟨first, booted, -, run⟩ := reached
  have start : Stacked first.stack ∧ Awake first.stack := by
    obtain ⟨arena, memlen, same, -⟩ := booted.uninitialised
    rw [same]
    exact ⟨⟨Or.inl rfl, trivial⟩, rfl, trivial, trivial⟩
  exact ((awake_kept.mono fun _ _ _ => trivial).invariant start run).2

/-- A step of the running code. -/
def Label.isRun : Label → Bool
  | .run => true
  | _ => false

/-- It is such a step, or the clock moves. -/
def Label.internal : Label → Bool
  | .run | .clock _ => true
  | _ => false

/-- The steps that are left at most until application code goes on or the program stops. -/
def remaining (s : State) : Nat :=
  if s.stopped.isSome || inApplication s.stack then 0 else latency s.g s.stack + 1

/-- Application code does not run by itself. -/
theorem step_in_application {s : State} (app : inApplication s.stack = true) :
    step .run s = none := by
  obtain ⟨stack, g, stopped⟩ := s
  cases stack with
  | nil => cases app
  | cons act rest =>
    have applies : act.applies = true := app
    have stuck : exec act g = .stuck := by
      cases act with
      | rtc p => rfl
      | main pc =>
        cases pc with
        | user => rfl
        | _ => cases applies
      | _ => cases applies
    cases stopped <;> simp [step, stuck, Result.apply]

/-- The steps that are left descend. -/
theorem remaining_descends : Descends step (fun label s => keepsPace label s && label.internal)
    Reached Label.isRun remaining where
  keeps label before after reached keeps stepped := by
    obtain ⟨first, booted, bytes, run⟩ := reached
    exact ⟨first, booted, bytes, run.tail (Bool.and_eq_true_iff.mp keeps).1 stepped⟩
  falls label before after reached keeps counted stepped := by
    obtain ⟨paced, bytes⟩ := reached.paced
    have keeps := (Bool.and_eq_true_iff.mp keeps).1
    cases label with
    | run =>
      obtain ⟨stack, g, stopped⟩ := before
      cases stopped with
      | some why => simp [step] at stepped
      | none =>
        cases stack with
        | nil => cases stepped
        | cons act rest =>
          have outside : inApplication (act :: rest) = false := by
            by_contra app
            rw [step_in_application ((Bool.not_eq_false _).mp app)] at stepped
            cases stepped
          have lowers : (exec act g).All (fun stack g' => inApplication stack = true ∨
              latency g' stack < latency g (act :: rest)) rest := by
            rcases paced with starting | paced
            · obtain ⟨pc, alone⟩ := starting.alone
              obtain ⟨rfl, rfl⟩ := List.cons.inj alone
              exact execMain_lowers.imp fun stack g' lowers => lowers.imp_right fun less =>
                Nat.lt_of_le_of_lt (Nat.le_add_right _ _) less
            · exact paced.step bytes keeps
          have before : remaining ⟨act :: rest, g, none⟩ = latency g (act :: rest) + 1 := by
            simp [remaining, outside]
          rw [before]
          have left : ∀ {stack : List Act} {g' : Globals}, (inApplication stack = true ∨
              latency g' stack < latency g (act :: rest)) → remaining ⟨stack, g', none⟩ <
                latency g (act :: rest) + 1 := by
            rintro stack g' either
            unfold remaining
            split
            · exact Nat.succ_pos _
            · rename_i goesOn
              have less := either.resolve_left fun app => goesOn (by simp [app])
              exact Nat.succ_lt_succ less
          change (exec act g).apply _ rest = some after at stepped
          cases result : exec act g with
          | next act' g' =>
            rw [result] at stepped lowers
            obtain rfl := Option.some.inj stepped
            exact left lowers
          | call caller callee g' =>
            rw [result] at stepped lowers
            obtain rfl := Option.some.inj stepped
            exact left lowers
          | ret v g' =>
            rw [result] at stepped lowers
            obtain rfl := Option.some.inj stepped
            exact left lowers
          | stop why =>
            rw [result] at stepped
            obtain rfl := Option.some.inj stepped
            exact Nat.succ_pos _
          | stuck =>
            rw [result] at stepped
            cases stepped
    | _ => cases counted
  stays label before after reached keeps counted stepped := by
    cases label with
    | clock t =>
      obtain ⟨stack, g, stopped⟩ := before
      cases stopped with
      | some why => simp [step] at stepped
      | none =>
        obtain rfl := Option.some.inj stepped
        simp only [remaining]
        have same : latency { g with now := t } stack = latency g stack := latency_congr rfl rfl
        rw [same]
    | run => cases counted
    | _ => simp [Label.internal] at keeps

/-! ## The bound -/

/-- No base is below that of `main`. -/
theorem Based.base_ge {pri : Addr → Nat} {stack : List Act} (based : Based pri stack) :
    ∀ act ∈ stack, ∀ base, act.base = some base → -1 ≤ base := by
  induction stack with
  | nil => simp
  | cons act rest ih =>
    refine List.forall_mem_cons.mpr ⟨fun base own => ?_, ih based.tail⟩
    have least := neg_one_le_level pri rest
    cases act with
    | select b pc =>
      obtain rfl := Option.some.inj own
      have atop : BaseOver pri rest b := by
        cases pc with
        | took r => cases r <;> exact based.1
        | _ => exact based.1
      exact least.trans atop.1
    | schedule b p pc =>
      obtain rfl := Option.some.inj own
      exact least.trans based.1.1
    | _ => cases own

/-- The bases are right also during queue operations. -/
theorem Ranked.based {stack : List Act} {g : Globals} (ranked : Ranked stack g) :
    Based g.pri stack := by
  by_cases other : queueing stack = false
  · exact (settled_of_not_queueing other).mp ranked.bases
  · cases stack with
    | nil => trivial
    | cons act rest =>
      have bases := ranked.bases
      cases act with
      | take pri pc =>
        obtain ⟨base, under, rfl⟩ := ranked.orderly.stacked.1.caller_of_take
        have same := takeFrom_store (g := g) pri pc
        simp only [Prod.mk.injEq] at same
        have after : Based (g.takeFrom pri pc).2.pri
            (.select base (.took (g.takeFrom pri pc).1) :: under) := bases
        have pri' : (g.takeFrom pri pc).2.pri = g.pri := by
          funext p
          simp only [Globals.pri, same.2.1]
        rw [pri'] at after
        cases result : (g.takeFrom pri pc).1 with
        | none =>
          rw [result] at after
          exact after
        | some p =>
          rw [result] at after
          exact ⟨after.1, after.2.2⟩
      | append p pc =>
        have same := appendFrom_store (g := g) p pc
        simp only [Prod.mk.injEq] at same
        have after : Based (g.appendFrom p pc).pri rest := bases
        have pri' : (g.appendFrom p pc).pri = g.pri := by
          funext q
          simp only [Globals.pri, same.1]
        rwa [pri'] at after
      | _ => exact absurd rfl other

section Bound

variable {act : Act} {rest stack : List Act} {g : Globals}

/-- A bound for the cost of one activation. -/
theorem Act.cost_le (counts : act.Counts) (base : ∀ base, act.base = some base → -1 ≤ base) :
    act.cost g rest ≤ 5059 + timeoutCost * (act.queues * g.timer.queue.length) +
      255 * (timeoutCost * handlers rest) := by
  have select : ∀ base : Int, -1 ≤ base → selectCost base ≤ 2274 := fun base least => by
    simp only [selectCost, priMax]
    omega
  have own : ∀ pri : Nat, selectCost pri ≤ 1990 := fun pri => by
    simp only [selectCost, priMax]
    omega
  have worst : worstCost = 2274 := rfl
  cases act with
  | main pc => cases pc <;> simp only [Act.cost, MainPc.cost] <;> omega
  | select b pc =>
    have first := select b (base b rfl)
    have next := select (b + 1) (by have := base b rfl; omega)
    cases pc <;> simp only [Act.cost, SelectPc.cost] <;> (try split) <;> omega
  | schedule b p pc =>
    have first := select b (base b rfl)
    have own := own (g.proc p).pri
    cases pc with
    | dispatch state => cases state <;> simp only [Act.cost, SchedulePc.cost] <;> omega
    | branch state partner => cases state <;> simp only [Act.cost, SchedulePc.cost] <;> omega
    | partner partner executes =>
      cases partner <;> cases executes <;> simp only [Act.cost, SchedulePc.cost] <;> omega
    | readying executes => cases executes <;> simp only [Act.cost, SchedulePc.cost] <;> omega
    | execute executes => cases executes <;> simp only [Act.cost, SchedulePc.cost] <;> omega
    | _ =>
      simp only [Act.cost, SchedulePc.cost]
      (try split) <;> omega
  | take pri pc => cases pc <;> simp only [Act.cost, TakePc.cost] <;> omega
  | append p pc => cases pc <;> simp only [Act.cost, AppendPc.cost] <;> omega
  | start args pc => cases pc <;> simp only [Act.cost, StartPc.cost] <;> omega
  | rtc p => exact Nat.zero_le _
  | enableAlt p pc =>
    have fewer : ∀ k, (255 - k) * (timeoutCost * handlers rest + 2) ≤
        255 * (timeoutCost * handlers rest + 2) := fun k => Nat.mul_le_mul_right _ (Nat.sub_le _ _)
    cases pc with
    | enter => simp only [Act.cost, EnablePc.cost]; omega
    | loop i k partner =>
      have fewer := fewer k
      simp only [Act.cost, EnablePc.cost]
      omega
    | insert i k t partner =>
      have fewer := fewer k
      simp only [Act.cost, EnablePc.cost]
      omega
    | done i k ready partner => simp only [Act.cost, EnablePc.cost]; omega
  | disableAlt p pc =>
    cases pc with
    | loop i left partner =>
      have bound : left ≤ 256 := counts
      simp only [Act.cost, DisablePc.cost]
      omega
    | _ => simp only [Act.cost, DisablePc.cost]; omega
  | ready q pc =>
    have level := select (level g.pri rest) (neg_one_le_level _ _)
    cases pc <;> simp only [Act.cost, ReadyPc.cost] <;> omega
  | signal intr saved pc =>
    cases pc <;> simp only [Act.cost, SignalPc.cost, Act.queues, Nat.one_mul,
      Nat.mul_comm timeoutCost] <;> omega
  | timeoutHandler pc =>
    cases pc <;> simp only [Act.cost, TimeoutPc.cost, Act.queues, Nat.one_mul,
      Nat.mul_comm timeoutCost] <;> omega
  | userHandler intrsrc => simp only [Act.cost]; omega

/-- One activation more costs what its timeouts do. -/
theorem queued_cost (queues handlers length depth : Nat) :
    timeoutCost * (queues * length) + 255 * (timeoutCost * handlers) +
        timeoutCost * handlers * (length + 255 * depth) ≤
      timeoutCost * (queues + handlers) * (length + 255 * (depth + 1)) := by
  have split : timeoutCost * (queues + handlers) * (length + 255 * (depth + 1)) =
      timeoutCost * (queues * length) + 255 * (timeoutCost * handlers) +
        timeoutCost * handlers * (length + 255 * depth) +
          timeoutCost * queues * (255 * (depth + 1)) := by ring
  omega

/-- A bound for the cost of a stack. -/
theorem latency_le_bound (counts : ∀ act ∈ stack, act.Counts)
    (bases : ∀ act ∈ stack, ∀ base, act.base = some base → -1 ≤ base) :
    latency g stack ≤ 5059 * stack.length +
      timeoutCost * handlers stack * (g.timer.queue.length + 255 * stack.length) := by
  induction stack with
  | nil => exact Nat.zero_le _
  | cons act rest ih =>
    obtain ⟨here, others⟩ := List.forall_mem_cons.mp counts
    obtain ⟨base, below⟩ := List.forall_mem_cons.mp bases
    have own : act.cost g rest ≤ _ := act.cost_le here base
    have ih := ih others below
    rw [latency, handlers_cons, List.length_cons]
    calc
      act.cost g rest + latency g rest
        ≤ (5059 + timeoutCost * (act.queues * g.timer.queue.length) +
            255 * (timeoutCost * handlers rest)) + (5059 * rest.length + timeoutCost * handlers rest *
              (g.timer.queue.length + 255 * rest.length)) := Nat.add_le_add own ih
      _ ≤ _ := by
        have more := queued_cost act.queues (handlers rest) g.timer.queue.length rest.length
        omega

end Bound

/-- The bound for the steps of the runtime: so many for each call in progress, and so many for each
handler that comes to the timeout queue, for each timeout that is queued or may be. -/
def latencyBound (s : State) : Nat :=
  5060 * s.stack.length +
    timeoutCost * handlers s.stack * (s.g.timer.queue.length + 255 * s.stack.length)

/-- The steps that are left are within it. -/
theorem Reached.remaining_le {s : State} (reached : Reached s) : remaining s ≤ latencyBound s := by
  obtain ⟨paced, bytes⟩ := reached.paced
  unfold remaining latencyBound
  split
  · exact Nat.zero_le _
  · have bases : ∀ act ∈ s.stack, ∀ base, act.base = some base → -1 ≤ base := by
      rcases paced with starting | paced
      · obtain ⟨pc, alone⟩ := starting.alone
        rw [alone]
        simp [Act.base]
      · exact paced.ranked.based.base_ge
    have bound := latency_le_bound (g := s.g) bytes.counts bases
    have awake := reached.awake.top
    cases stack : s.stack with
    | nil =>
      rw [stack] at awake
      exact awake.elim
    | cons act rest =>
      rw [stack] at bound
      rw [List.length_cons] at bound ⊢
      omega

/-- In every run under the conditions, between two pieces of application code the runtime takes no
more steps than that, however the clock moves. -/
theorem latency_bounded {first before last : State} {labels : List Label} (booted : Booted first)
    (bytes : ∀ p, (first.g.proc p).EightBits)
    (run : Run step (fun label s => keepsPace label s = true) first before)
    (internal : ∀ label ∈ labels, label.internal = true)
    (done : executeUnder step keepsPace labels before = some last) :
    labels.countP Label.isRun ≤ latencyBound before := by
  have reached : Reached before := ⟨first, booted, bytes, run⟩
  have count := remaining_descends.count_le reached (executeUnder_mono (fun label mem s keeps =>
    Bool.and_eq_true_iff.mpr ⟨keeps, internal label mem⟩) done)
  exact (Nat.le_add_right _ _).trans (count.trans reached.remaining_le)

/-- The memory that is cleared holds no numbers that do not fit. -/
theorem zeroBoot_bytes {memlen : Nat} (p : Addr) : ((zeroBoot memlen).g.proc p).EightBits :=
  ⟨Nat.zero_le _, Nat.zero_le _⟩

/-- A process returns from its initial execution and waits, and the idle process is executed: that
takes 23 steps. -/
theorem latency_bounded_to_idle : ∃ before last : State,
    executeUnder step keepsPace (runs 12 ++ [Label.clock 7] ++ runs 11) before = some last ∧
      codeOf last.stack = some 1000 ∧
        (runs 12 ++ [Label.clock 7] ++ runs 11).countP Label.isRun ≤ latencyBound before := by
  obtain ⟨before, run, checked⟩ := exists_run_of_executeUnder (waitingThenIdle.take 35)
    (fun s : State => (executeUnder step keepsPace (runs 12 ++ [Label.clock 7] ++ runs 11) s).any
      fun last : State => decide (codeOf last.stack = some 1000))
    (by decide +kernel : (executeUnder step keepsPace (waitingThenIdle.take 35)
      (zeroBoot 1000)).any _ = true)
  obtain ⟨last, done, idle⟩ := (Option.any_eq_true _ _).mp checked
  refine ⟨before, last, done, of_decide_eq_true idle, latency_bounded (zeroBoot_booted 1000)
    zeroBoot_bytes run ?_ done⟩
  decide

/-- The code that runs stops only in application code and where the program does. -/
theorem Reached.goes_on {s : State} (reached : Reached s) (none : step .run s = none) :
    inApplication s.stack = true ∨ s.stopped.isSome = true := by
  have awake := reached.awake.top
  obtain ⟨stack, g, stopped⟩ := s
  cases stopped with
  | some why => exact Or.inr rfl
  | none =>
    cases stack with
    | nil => exact awake.elim
    | cons act rest =>
      refine Or.inl ?_
      by_contra other
      have stuck : exec act g ≠ .stuck := exec_ne_stuck awake ((Bool.not_eq_true _).mp other)
      change (exec act g).apply _ rest = Option.none at none
      cases result : exec act g with
      | stuck => exact stuck result
      | _ =>
        rw [result] at none
        cases none

/-- From every state of a run under the conditions, the running code alone comes to application
code, stops the program, or leaves the conditions, within the bound. -/
theorem control_returns {first before : State} (booted : Booted first)
    (bytes : ∀ p, (first.g.proc p).EightBits)
    (run : Run step (fun label s => keepsPace label s = true) first before) :
    ∃ n ≤ latencyBound before, ∃ last,
      executeUnder step keepsPace (List.replicate n .run) before = some last ∧
        (inApplication last.stack = true ∨ last.stopped.isSome = true ∨
          keepsPace .run last = false) := by
  have reached : Reached before := ⟨first, booted, bytes, run⟩
  obtain ⟨n, bound, last, done, ended⟩ :=
    remaining_descends.ends (rfl : Label.run.isRun = true) reached
  have keeps : ∀ label s, (keepsPace label s && label.internal) = true → keepsPace label s = true :=
    fun label s both => (Bool.and_eq_true_iff.mp both).1
  have done := executeUnder_mono (fun label _ => keeps label) done
  refine ⟨n, bound.trans reached.remaining_le, last, done, ?_⟩
  rcases ended with leaves | none
  · refine Or.inr (Or.inr ?_)
    simpa [Label.internal] using leaves
  · have reached : Reached last := ⟨first, booted, bytes, run.trans (run_of_executeUnder done)⟩
    exact (reached.goes_on none).imp_right Or.inl

/-- Application code goes on after the tick that finds the idle process in progress. -/
theorem control_returns_after_tick : ∃ before : State, before.stack.length = 5 ∧
    ∃ n ≤ latencyBound before, ∃ last,
      executeUnder step keepsPace (List.replicate n .run) before = some last ∧
        (inApplication last.stack = true ∨ last.stopped.isSome = true ∨
          keepsPace .run last = false) := by
  obtain ⟨before, run, checked⟩ := exists_run_of_executeUnder
    (waitingThenIdle ++ [.interrupt 0] ++ runs 2) (fun s : State => s.stack.length == 5)
    (by decide +kernel : (executeUnder step keepsPace (waitingThenIdle ++ [.interrupt 0] ++ runs 2)
      (zeroBoot 1000)).any _ = true)
  exact ⟨before, eq_of_beq checked, control_returns (zeroBoot_booted 1000) zeroBoot_bytes run⟩

end Microcsp
