import Microcsp.Attendance
import Microcsp.Ownership
import Microcsp.Release

/-!
# The idle process

`highest_ready` returns 0 also where nothing is ready, since level 0, as its comment says, is always
ready. The idle process is there once, at level 0, in its queue until the first activation of `schedule`
takes it. From then on this activation goes on with nothing else, because the idle process does not
return, and the other activations do not go down to level 0. So `schedule` always finds a process where
it takes one, and no pointer to the current process is NULL.
-/

open Library

namespace Microcsp

/-! ## Steps and records -/

section Store

variable {g : Globals}

/-- `take` stores into no process record, nor into its link, nor into `current`. -/
theorem takeFrom_store (pri : Nat) (pc : TakePc) :
    ((g.takeFrom pri pc).2.mem, (g.takeFrom pri pc).2.proc, (g.takeFrom pri pc).2.current) =
      (g.mem, g.proc, g.current) := by
  have test : ∀ (g : Globals) (p : Addr),
      ((g.takeTest p pri).2.mem, (g.takeTest p pri).2.proc, (g.takeTest p pri).2.current) =
        (g.mem, g.proc, g.current) := by
    intro g p
    unfold Globals.takeTest
    split <;> rfl
  cases pc with
  | head =>
    simp only [Globals.takeFrom, Globals.takeHead]
    split
    · rfl
    · exact test (g.setHead pri _) _
  | next p => exact test (g.setHead pri _) p
  | test p => exact test g p
  | tail p => rfl
  | mask p => rfl

/-- `append` stores into links only. -/
theorem appendFrom_store (p : Addr) (pc : AppendPc) :
    ((g.appendFrom p pc).proc, (g.appendFrom p pc).current) = (g.proc, g.current) := by
  have test : ∀ g : Globals, ((g.appendTest p).proc, (g.appendTest p).current) =
      (g.proc, g.current) := by
    intro g
    unfold Globals.appendTest
    split <;> rfl
  cases pc with
  | link =>
    simp only [Globals.appendFrom, Globals.appendLink]
    split
    · exact test _
    · exact test _
  | tail => exact test _
  | next => exact test _
  | test => exact test g
  | head => rfl
  | mask => rfl

/-- What holds of the process records and `current` holds at the end of a queue operation. -/
theorem Settled.of_store {P : (Addr → Process) → Option Addr → Prop} {stack : List Act}
    (holds : P g.proc g.current) : Settled (fun _ g => P g.proc g.current) stack g := by
  unfold Settled
  split
  · rename_i pri pc rest
    have same := takeFrom_store (g := g) pri pc
    simp only [Prod.mk.injEq] at same
    obtain ⟨-, proc, current⟩ := same
    change P (g.takeFrom pri pc).2.proc (g.takeFrom pri pc).2.current
    rw [proc, current]
    exact holds
  · rename_i p pc rest
    obtain ⟨proc, current⟩ := Prod.mk.inj (appendFrom_store (g := g) p pc)
    rw [proc, current]
    exact holds
  · exact holds

end Store

section Records

variable {act : Act} {rest : List Act} {g : Globals} {q : Addr}

/-- A step leaves the record of a process alone that is not its own, nor made ready or filled by it. -/
theorem exec_spares (other : act.process ≠ some q) (readies : ∀ pc, act ≠ .ready q pc)
    (fills : act.reserves ≠ some q) : (exec act g).All (fun _ g' => g'.proc q = g.proc q) rest := by
  cases act with
  | main pc =>
    cases pc with
    | idleFill index record =>
      have apart : q ≠ record := by
        rintro rfl
        exact fills rfl
      exact Globals.setProc_of_ne g _ apart
    | _ =>
      simp only [exec, execMain]
      repeat' split
      all_goals trivial
  | select base pc =>
    cases pc <;> simp only [exec, execSelect] <;> (repeat' split) <;> trivial
  | schedule base p pc =>
    have apart : q ≠ p := by
      rintro rfl
      exact other rfl
    have spared : ∀ state, (g.setState p state).proc q = g.proc q := fun state =>
      Globals.setState_of_ne g state apart
    cases pc <;> simp only [exec, execSchedule, callDisableAlt] <;> (repeat' split) <;>
      first | trivial | rfl | exact spared _
  | take pri pc => cases pc <;> simp only [exec, execTake] <;> (repeat' split) <;> trivial
  | append p pc =>
    cases pc <;> simp only [exec, execAppend] <;> (repeat' split) <;> trivial
  | start args pc =>
    cases pc with
    | fill index record =>
      have apart : q ≠ record := by
        rintro rfl
        exact fills rfl
      exact Globals.setProc_of_ne g _ apart
    | _ =>
      simp only [exec, execStart]
      repeat' split
      all_goals trivial
  | rtc p => trivial
  | enableAlt p pc =>
    have apart : q ≠ p := by
      rintro rfl
      exact other rfl
    have spared : ∀ alt, (g.setAlt p alt).proc q = g.proc q := fun alt => Globals.setAlt_of_ne g alt apart
    cases pc <;> simp only [exec, execEnableAlt] <;> (repeat' split) <;>
      first | trivial | rfl | exact spared _
  | disableAlt p pc =>
    have apart : q ≠ p := by
      rintro rfl
      exact other rfl
    have spared : ∀ (g' : Globals) alt, (g'.setAlt p alt).proc q = g'.proc q := fun g' alt =>
      Globals.setAlt_of_ne g' alt apart
    cases pc <;> simp only [exec, execDisableAlt] <;> (repeat' split) <;>
      first | trivial | rfl | exact spared _ _
  | ready p pc =>
    have apart : q ≠ p := by
      rintro rfl
      exact readies _ rfl
    cases pc with
    | test =>
      simp only [exec, execReady]
      split
      · exact Globals.setState_of_ne g _ apart
      · exact (Globals.setState_of_ne _ _ apart).trans (Globals.setState_of_ne g _ apart)
    | _ =>
      simp only [exec, execReady, callSchedule]
      repeat' split
      all_goals trivial
  | signal intr saved pc =>
    cases pc <;> simp only [exec, execSignal, callScheduleAtCurrent, callSchedule] <;>
      (repeat' split) <;> trivial
  | timeoutHandler pc =>
    cases pc <;> simp only [exec, execTimeoutHandler, readyOrFault] <;> (repeat' split) <;>
      trivial
  | userHandler intrsrc =>
    simp only [exec, execUserHandler]
    repeat' split
    all_goals trivial

/-- So does a call of application code that is not its own. -/
theorem execUser_spares {op : Op} (current : ∀ p, act = .rtc p → g.current = some p)
    (other : act.process ≠ some q) : (execUser op act g).All (fun _ g' => g'.proc q = g.proc q) rest := by
  unfold execUser
  split
  · rename_i p
    have apart : q ≠ p := by
      rintro rfl
      exact other rfl
    have here := current p rfl
    split
    · cases op <;> simp only [userRtc, here] <;> (repeat' split) <;>
        first
          | trivial
          | rfl
          | exact Globals.setState_of_ne g _ apart
          | exact Globals.setAlt_of_ne g _ apart
    · trivial
  · cases op <;> simp only [userMain, callSchedule] <;> (repeat' split) <;> trivial
  · trivial

/-- The function and the priority of a process stay as they are, unless its record is filled. -/
theorem exec_kind (fills : act.reserves ≠ some q) : (exec act g).All
    (fun _ g' => (g'.proc q).rtc = (g.proc q).rtc ∧ (g'.proc q).pri = (g.proc q).pri) rest := by
  by_cases own : act.process = some q ∨ ∃ pc, act = .ready q pc
  · cases act with
    | schedule base p pc =>
      obtain rfl : p = q := by simpa [Act.process] using own
      cases pc <;> simp only [exec, execSchedule, callDisableAlt] <;> (repeat' split) <;>
        first | trivial | exact ⟨rfl, rfl⟩ | simp [Result.All]
    | rtc p => trivial
    | enableAlt p pc =>
      cases pc <;> simp only [exec, execEnableAlt] <;> (repeat' split) <;>
        first | trivial | exact ⟨rfl, rfl⟩ | simp [Result.All]
    | disableAlt p pc =>
      cases pc <;> simp only [exec, execDisableAlt] <;> (repeat' split) <;>
        first | trivial | exact ⟨rfl, rfl⟩ | simp [Result.All]
    | ready p pc =>
      cases pc <;> simp only [exec, execReady, callSchedule] <;> (repeat' split) <;>
        first | trivial | exact ⟨rfl, rfl⟩ | simp [Result.All]
    | _ => simp [Act.process] at own
  · have apart := not_or.mp own
    refine (exec_spares apart.1 (fun pc same => apart.2 ⟨pc, same⟩) fills).imp fun _ g' same => ?_
    rw [same]
    exact ⟨rfl, rfl⟩

/-- The same for application code. -/
theorem execUser_kind {op : Op} : (execUser op act g).All
    (fun _ g' => (g'.proc q).rtc = (g.proc q).rtc ∧ (g'.proc q).pri = (g.proc q).pri) rest := by
  unfold execUser
  split
  · split
    · cases op <;> simp only [userRtc] <;> (repeat' split) <;> first | trivial | simp [Result.All]
    · trivial
  · cases op <;> simp only [userMain, callSchedule] <;> (repeat' split) <;> trivial
  · trivial

/-- Once there is a current process there always is one. -/
theorem exec_current (some : g.current ≠ none) :
    (exec act g).All (fun _ g' => g'.current ≠ none) rest := by
  cases act with
  | main pc =>
    cases pc <;> simp only [exec, execMain] <;> (repeat' split) <;> first | trivial | simp [Result.All]
  | select base pc =>
    cases pc <;> simp only [exec, execSelect] <;> (repeat' split) <;>
      first | trivial | simp [Result.All]
  | schedule base p pc =>
    cases pc <;> simp only [exec, execSchedule, callDisableAlt] <;> (repeat' split) <;> trivial
  | take pri pc =>
    cases pc <;> simp only [exec, execTake] <;> (repeat' split) <;> exact some
  | append p pc =>
    cases pc <;> simp only [exec, execAppend] <;> (repeat' split) <;> exact some
  | start args pc =>
    cases pc <;> simp only [exec, execStart] <;> (repeat' split) <;> trivial
  | rtc p => trivial
  | enableAlt p pc =>
    cases pc <;> simp only [exec, execEnableAlt] <;> (repeat' split) <;> trivial
  | disableAlt p pc =>
    cases pc <;> simp only [exec, execDisableAlt] <;> (repeat' split) <;> trivial
  | ready p pc =>
    cases pc <;> simp only [exec, execReady, callSchedule] <;> (repeat' split) <;>
      first | trivial | simp [Result.All]
  | signal intr saved pc =>
    cases pc <;> simp only [exec, execSignal, callScheduleAtCurrent, callSchedule] <;>
      (repeat' split) <;> trivial
  | timeoutHandler pc =>
    cases pc <;> simp only [exec, execTimeoutHandler, readyOrFault] <;> (repeat' split) <;> trivial
  | userHandler intrsrc =>
    simp only [exec, execUserHandler]
    repeat' split
    all_goals trivial

/-- Application code does not change it. -/
theorem execUser_current {op : Op} : (execUser op act g).All (fun _ g' => g'.current = g.current) rest := by
  unfold execUser
  split
  · split
    · cases op <;> simp only [userRtc] <;> (repeat' split) <;> trivial
    · trivial
  · cases op <;> simp only [userMain, callSchedule] <;> (repeat' split) <;> trivial
  · trivial

end Records

/-! ## The abstract scheduler -/

namespace Sched

universe u

variable {P : Type u} [DecidableEq P] {s : Sched P} {a : SchedAct P} {idle : P}

/-- The process is in the queue of the lowest level or in progress. -/
def Standby (s : Sched P) (idle : P) : Prop := idle ∈ s.queue priMin ∨ idle ∈ s.held

/-- The action is not the end of the process, and appends no process at the lowest level. -/
def Spares (s : Sched P) (idle : P) : SchedAct P → Prop
  | .create _ pri => priMin < pri
  | .ready p => priMin < s.pri p
  | .leave | .release _ => s.held.head? ≠ some idle
  | _ => True

/-- `append` at another level. -/
theorem Standby.enqueue (standby : s.Standby idle) {p : P} (above : priMin < s.pri p) :
    (s.enqueue p).Standby idle := by
  refine standby.imp_left fun queued => ?_
  change idle ∈ Function.update s.queue (s.pri p) _ priMin
  rw [Function.update_of_ne above.ne]
  exact queued

omit [DecidableEq P] in
/-- The process stays in progress when another one ends. -/
theorem mem_tail_of_spared {held : List P} (mem : idle ∈ held) (other : held.head? ≠ some idle) :
    idle ∈ held.tail := by
  cases held with
  | nil => cases mem
  | cons p held =>
    refine (List.mem_cons.mp mem).resolve_left ?_
    rintro rfl
    exact other rfl

/-- The process stays where it is, or is taken. -/
theorem Standby.next (standby : s.Standby idle) (spares : s.Spares idle a) : (s.next a).Standby idle := by
  cases a with
  | take level =>
    simp only [Sched.next]
    split
    · exact standby
    · rename_i p rest queue
      rcases standby with queued | held
      · by_cases lowest : level = priMin
        · subst lowest
          rw [queue] at queued
          rcases List.mem_cons.mp queued with rfl | later
          · exact Or.inr List.mem_cons_self
          · refine Or.inl ?_
            change idle ∈ Function.update s.queue priMin rest priMin
            rw [Function.update_self]
            exact later
        · refine Or.inl ?_
          change idle ∈ Function.update s.queue level rest priMin
          rw [Function.update_of_ne (Ne.symm lowest)]
          exact queued
      · exact Or.inr (List.mem_cons_of_mem _ held)
  | create p pri =>
    have above : priMin < (s.create p pri).pri p := by
      change priMin < Function.update s.pri p pri p
      rw [Function.update_self]
      exact spares
    exact Standby.enqueue (s := s.create p pri) standby above
  | ready p =>
    simp only [Sched.next]
    split
    · exact standby
    · exact Standby.enqueue (s := s.mark p .ready) standby spares
  | leave => exact standby.imp_right fun held => mem_tail_of_spared held spares
  | release p => exact standby.imp_right fun held => mem_tail_of_spared held spares
  | _ => exact standby

end Sched

/-! ## Where the idle process is executed -/

/-- The points at which the activations for the idle process can be, and `main` once it is there;
`take` has found a process. -/
def Act.Parks (idle : Addr) : Act → Prop
  | .main pc => pc = .timerInit ∨ pc = .user ∨ pc = .running
  | .select _ (.took r) => r ≠ none
  | .schedule _ p pc => p = idle → pc = .top ∨ pc = .dispatch .initial ∨ pc = .initial
  | .enableAlt p _ | .disableAlt p _ => p ≠ idle
  | _ => True

/-- The idle process is not beyond its first execution. -/
structure Parked (idle : Addr) (stack : List Act) : Prop where
  /-- Where the activations are. -/
  parks : ∀ act ∈ stack, act.Parks idle
  /-- The execution is in progress. -/
  executes : ∀ base, .schedule base idle .initial ∈ stack → .rtc idle ∈ stack

/-- A step that begins nothing for the idle process but its execution. -/
def Result.Parks (idle : Addr) : Result → Prop
  | .next act _ => act.Parks idle ∧ ∀ base, act ≠ .schedule base idle .initial
  | .call act callee _ => act.Parks idle ∧ callee.Parks idle ∧
      (∀ base, callee ≠ .schedule base idle .initial) ∧
        ∀ base, act = .schedule base idle .initial → callee = .rtc idle
  | _ => True

section Parked

variable {idle : Addr} {act : Act} {rest : List Act} {g : Globals}

/-- What is returned changes nothing for the idle process. -/
theorem Act.Parks.resume {caller : Act} (parks : caller.Parks idle)
    (other : ∀ base, caller ≠ .select base .taking) (v : Value) : (caller.resume v).Parks idle ∧
      ((∃ base, caller.resume v = .schedule base idle .initial) → caller.resume v = caller) ∧
      (caller = .rtc idle → caller.resume v = caller) := by
  unfold Act.resume
  split
  · exact absurd rfl (other _)
  · refine ⟨fun same => ?_, by simp, by simp⟩
    rcases parks same with wrong | wrong | wrong <;> cases wrong
  · refine ⟨fun same => ?_, by simp, by simp⟩
    rcases parks same with wrong | wrong | wrong <;> cases wrong
  · exact ⟨parks, fun _ => rfl, fun _ => rfl⟩

/-- It is kept by such a step, unless this is one of the idle process itself. -/
theorem Parked.all {r : Result} (parked : Parked idle (act :: rest)) (parks : r.Parks idle)
    (other : act ≠ .rtc idle) (untaken : ∀ base, .select base .taking ∉ rest) :
    r.All (fun stack _ => Parked idle stack) rest := by
  have below : ∀ a ∈ rest, a.Parks idle := fun a mem => parked.parks a (List.mem_cons_of_mem _ mem)
  have inner : ∀ base, Act.schedule base idle .initial ∈ rest → Act.rtc idle ∈ rest :=
    fun base mem => (List.mem_cons.mp (parked.executes base (List.mem_cons_of_mem _ mem))).resolve_left
      other.symm
  cases r with
  | next act' g' =>
    obtain ⟨fits, new⟩ := parks
    refine ⟨List.forall_mem_cons.mpr ⟨fits, below⟩, fun base mem => ?_⟩
    rcases List.mem_cons.mp mem with same | mem
    · exact absurd same.symm (new base)
    · exact List.mem_cons_of_mem _ (inner base mem)
  | call act' callee g' =>
    obtain ⟨fits, fits', new, executes⟩ := parks
    refine ⟨List.forall_mem_cons.mpr ⟨fits', List.forall_mem_cons.mpr ⟨fits, below⟩⟩,
      fun base mem => ?_⟩
    rcases List.mem_cons.mp mem with same | mem
    · exact absurd same.symm (new base)
    rcases List.mem_cons.mp mem with same | mem
    · rw [executes base same.symm]
      exact List.mem_cons_self
    · exact List.mem_cons_of_mem _ (List.mem_cons_of_mem _ (inner base mem))
  | ret v g' =>
    cases rest with
    | nil => exact ⟨List.forall_mem_nil _, fun base mem => absurd mem List.not_mem_nil⟩
    | cons caller under =>
      obtain ⟨fits, same, executing⟩ := (below caller List.mem_cons_self).resume
        (fun base same => untaken base (same ▸ List.mem_cons_self)) v
      refine ⟨List.forall_mem_cons.mpr ⟨fits, fun a mem => below a (List.mem_cons_of_mem _ mem)⟩,
        fun base mem => ?_⟩
      have before : Act.schedule base idle .initial ∈ caller :: under := by
        rcases List.mem_cons.mp mem with here | mem
        · rw [here, same ⟨base, here.symm⟩]
          exact List.mem_cons_self
        · exact List.mem_cons_of_mem _ mem
      rcases List.mem_cons.mp (inner base before) with here | mem
      · change Act.rtc idle ∈ caller.resume v :: under
        rw [executing here.symm, here]
        exact List.mem_cons_self
      · exact List.mem_cons_of_mem _ mem
  | stop why => trivial
  | stuck => trivial

/-- The running code begins nothing else for the idle process. -/
theorem exec_parks (parks : act.Parks idle) (initial : (g.proc idle).state = .initial)
    (executing : ∀ base, act ≠ .schedule base idle .initial) : (exec act g).Parks idle := by
  cases act with
  | schedule base p pc =>
    by_cases own : p = idle
    · subst own
      rcases parks rfl with rfl | rfl | rfl
      · refine ⟨fun _ => Or.inr (Or.inl ?_), by simp⟩
        rw [initial]
      · exact ⟨fun _ => Or.inr (Or.inr rfl), trivial, by simp, fun _ _ => rfl⟩
      · exact absurd rfl (executing base)
    · cases pc <;> simp only [exec, execSchedule, callDisableAlt] <;> (repeat' split) <;>
        simp [Result.Parks, Act.Parks, own]
  | enableAlt p pc =>
    have own : p ≠ idle := parks
    cases pc <;> simp only [exec, execEnableAlt] <;> (repeat' split) <;>
      simp [Result.Parks, Act.Parks, own]
  | disableAlt p pc =>
    have own : p ≠ idle := parks
    cases pc <;> simp only [exec, execDisableAlt] <;> (repeat' split) <;>
      simp [Result.Parks, Act.Parks, own]
  | main pc =>
    rcases parks with rfl | rfl | rfl
    · exact ⟨Or.inr (Or.inl rfl), by simp⟩
    · trivial
    · trivial
  | select base pc =>
    cases pc <;> simp only [exec, execSelect] <;> (repeat' split) <;> simp [Result.Parks, Act.Parks]
  | take pri pc =>
    cases pc <;> simp only [exec, execTake] <;> (repeat' split) <;> simp [Result.Parks, Act.Parks]
  | append p pc =>
    cases pc <;> simp only [exec, execAppend] <;> (repeat' split) <;> simp [Result.Parks, Act.Parks]
  | start args pc =>
    cases pc <;> simp only [exec, execStart] <;> (repeat' split) <;> simp [Result.Parks, Act.Parks]
  | rtc p => trivial
  | ready p pc =>
    cases pc <;> simp only [exec, execReady, callSchedule] <;> (repeat' split) <;>
      simp [Result.Parks, Act.Parks]
  | signal intr saved pc =>
    cases pc <;> simp only [exec, execSignal, callScheduleAtCurrent, callSchedule] <;>
      (repeat' split) <;> simp [Result.Parks, Act.Parks]
  | timeoutHandler pc =>
    cases pc <;> simp only [exec, execTimeoutHandler, readyOrFault] <;> (repeat' split) <;>
      simp [Result.Parks, Act.Parks]
  | userHandler intrsrc =>
    simp only [exec, execUserHandler]
    repeat' split
    all_goals simp [Result.Parks, Act.Parks]

/-- Nor does application code. -/
theorem execUser_parks (op : Op) (act : Act) (g : Globals) : (execUser op act g).Parks idle := by
  unfold execUser
  split
  · split
    · cases op <;> simp only [userRtc] <;> (repeat' split) <;> simp [Result.Parks, Act.Parks]
    · trivial
  · cases op <;> simp only [userMain, callSchedule] <;> (repeat' split) <;>
      simp [Result.Parks, Act.Parks]
  · trivial

/-- It holds at the end of a queue operation, where `take` finds a process. -/
theorem Parked.settled {stack : List Act} (stacked : Stacked stack) (parked : Parked idle stack)
    (finds : ∀ pri pc under, stack = .take pri pc :: under → (g.takeFrom pri pc).1 ≠ none) :
    Settled (fun stack _ => Parked idle stack) stack g := by
  unfold Settled
  split
  · rename_i pri pc rest
    obtain ⟨base, under, rfl⟩ := (stacked.1 : Admitted .take rest).caller_of_take
    refine ⟨List.forall_mem_cons.mpr ⟨finds pri pc _ rfl, fun a mem => parked.parks a (by simp [mem])⟩,
      fun base' mem => ?_⟩
    have inner : Act.schedule base' idle .initial ∈ under := by
      rcases List.mem_cons.mp mem with wrong | inner
      · cases wrong
      · exact inner
    have executes := parked.executes base' (by simp [inner])
    exact List.mem_cons_of_mem _ (by simpa using executes)
  · rename_i p pc rest
    refine ⟨fun a mem => parked.parks a (List.mem_cons_of_mem _ mem), fun base mem => ?_⟩
    have executes := parked.executes base (List.mem_cons_of_mem _ mem)
    simpa using executes
  · exact parked

end Parked

/-! ## The invariant -/

/-- The idle process is there, alone at its level, and nothing refers to it. -/
structure Idles (idle : Addr) (stack : List Act) (g : Globals) : Prop extends Parked idle stack where
  /-- It has a record. -/
  alive : initialised stack g idle = true
  /-- It is executed for the first time, or will be. -/
  fresh : (g.proc idle).state = .initial
  /-- It is the one that never returns, at the lowest level. -/
  kind : (g.proc idle).rtc = .idle ∧ (g.proc idle).pri = priMin
  /-- The others are processes of the application above it. -/
  others : ∀ q, initialised stack g q = true → q ≠ idle →
    (g.proc q).rtc = .user ∧ priMin < (g.proc q).pri
  /-- Nothing refers to it. -/
  unknown : ¬ Refers stack g idle
  /-- It is queued or in progress. -/
  standby : ∃ s, Implements s stack g ∧ s.Rising ∧ s.Standby idle
  /-- There is a current process. -/
  current : g.current ≠ none

/-- Before the idle process is there, `main` is the only activation and no record holds a process. -/
def Beginning (stack : List Act) (g : Globals) : Prop :=
  g.current = none ∧ (stack = [.main .idleAlloc] ∧ (∀ p, allocated g.log p = false) ∨
    ∃ index record, stack = [.main (.idleFill index record)] ∧
      ∀ p, allocated g.log p = true → p = record)

/-- The idle process is there, or about to be created. -/
def IdleInv (stack : List Act) (g : Globals) : Prop :=
  Beginning stack g ∨ ∃ idle, Idles idle stack g

section Steps

variable {idle : Addr} {act : Act} {rest : List Act} {g : Globals}

/-- The execution of the idle process is not over. -/
theorem Idles.executing (inv : Idles idle (act :: rest) g) (ranks : Ranks (act :: rest) g) (base : Int) :
    act ≠ .schedule base idle .initial := by
  rintro rfl
  have mem := inv.executes base List.mem_cons_self
  have inner : Act.rtc idle ∈ rest := (List.mem_cons.mp mem).resolve_left (by simp)
  have frame := ranks.orderly.stacked.2.frame_of_process inner rfl
  have single := ranks.holds.single
  rw [List.filterMap_cons_some (f := Act.holds) (b := idle) rfl] at single
  refine (List.nodup_cons.mp single).1 ?_
  obtain ⟨a, mem, holds⟩ := List.mem_filterMap.mp frame
  refine List.mem_filterMap.mpr ⟨a, mem, ?_⟩
  cases a <;> first | exact holds | cases holds

/-- A step of the running code spares it. -/
theorem Idles.spares (inv : Idles idle (act :: rest) g) (ranks : Ranks (act :: rest) g) {s : Sched Addr}
    (impl : Implements s (act :: rest) g) (references : ReferencesInv (act :: rest) g) :
    s.Spares idle (act.action g) := by
  have unparked : ∀ {base p pc}, act = .schedule base p pc → pc = .finish → p ≠ idle := by
    rintro base p pc rfl rfl rfl
    rcases inv.parks _ List.mem_cons_self rfl with wrong | wrong | wrong <;> cases wrong
  have first : ∀ {base p}, act = .schedule base p .finish → s.held.head? ≠ some idle := by
    rintro base p rfl same
    obtain ⟨queue, free, rep, rfl⟩ := impl
    exact unparked rfl rfl (Option.some.inj same)
  unfold Act.action
  split
  · rename_i index record
    rcases inv.parks _ List.mem_cons_self with wrong | wrong | wrong <;> cases wrong
  · rename_i args index record
    have sound : 1 ≤ args.pri ∧ args.pri ≤ priMax := ranks.orderly.sound _ List.mem_cons_self
    change priMin < args.pri.toNat
    have positive := sound.1
    simp only [priMin]
    omega
  · split <;> trivial
  · trivial
  · trivial
  · trivial
  · trivial
  · split
    · exact first rfl
    · exact first rfl
    · trivial
  · rename_i q
    have refers : Refers (.ready q .test :: rest) g q := Or.inr ⟨_, List.mem_cons_self, rfl⟩
    have other : q ≠ idle := by
      rintro rfl
      exact inv.unknown refers
    obtain ⟨queue, free, rep, rfl⟩ := impl
    exact (inv.others q (references q refers) other).2
  · trivial

/-- A process that is live after an action was live before, or is created. -/
theorem Sched.live_of_next {s : Sched Addr} {a : SchedAct Addr} {q : Addr} (live : (s.next a).live q) :
    s.live q ∨ ∃ pri, a = .create q pri := by
  cases a with
  | take level =>
    simp only [Sched.next] at live
    split at live <;> exact Or.inl live
  | create p pri =>
    rcases live with rfl | before
    · exact Or.inr ⟨pri, rfl⟩
    · exact Or.inl before
  | ready p =>
    simp only [Sched.next] at live
    split at live <;> exact Or.inl live
  | release p => exact Or.inl live.1
  | _ => exact Or.inl live

/-- Only the filling of a record creates a process. -/
theorem Act.reserves_of_create {q : Addr} {pri : Nat} (create : act.action g = .create q pri) :
    act.reserves = some q := by
  unfold Act.action at create
  split at create
  · cases create
    rfl
  · cases create
    rfl
  · split at create <;> cases create
  · cases create
  · cases create
  · cases create
  · cases create
  · split at create <;> cases create
  · cases create
  · cases create

/-- A record is filled with a process of the application above the idle one. -/
theorem exec_fills {q : Addr} (parks : act.Parks idle) (sound : act.Sound) (fills : act.reserves = some q) :
    (exec act g).All (fun _ g' => (g'.proc q).rtc = .user ∧ priMin < (g'.proc q).pri) rest := by
  cases act with
  | main pc =>
    rcases parks with rfl | rfl | rfl <;> cases fills
  | start args pc =>
    cases pc with
    | fill index record =>
      obtain rfl : record = q := Option.some.inj fills
      have positive : 1 ≤ args.pri := sound.1
      have above : priMin < args.pri.toNat := by
        simp only [priMin]
        omega
      simpa [exec, execStart, Result.All] using above
    | _ => cases fills
  | _ => cases fills

/-- The record of the idle process is left alone. -/
theorem Idles.exec_same (inv : Idles idle (act :: rest) g) (ranks : Ranks (act :: rest) g) :
    (exec act g).All (fun _ g' => g'.proc idle = g.proc idle) rest := by
  by_cases own : act.process = some idle
  · cases act with
    | schedule base p pc =>
      obtain rfl : p = idle := Option.some.inj own
      rcases inv.parks _ List.mem_cons_self rfl with rfl | rfl | rfl
      · rfl
      · rfl
      · exact absurd rfl (inv.executing ranks base)
    | rtc p => trivial
    | enableAlt p pc => exact absurd (Option.some.inj own) (inv.parks _ List.mem_cons_self)
    | disableAlt p pc => exact absurd (Option.some.inj own) (inv.parks _ List.mem_cons_self)
    | _ => cases own
  · by_cases readies : ∃ pc, act = .ready idle pc
    · obtain ⟨pc, rfl⟩ := readies
      cases pc with
      | test => exact absurd (Or.inr ⟨_, List.mem_cons_self, rfl⟩) inv.unknown
      | appended =>
        simp only [exec, execReady, callSchedule]
        repeat' split
        all_goals trivial
      | scheduling prev => rfl
    · refine exec_spares own (fun pc same => readies ⟨pc, same⟩) fun fills => ?_
      have alive := inv.alive
      simp [initialised, fills] at alive

/-- What holds after every outcome for each value holds for all. -/
theorem Result.All.forall {α : Type} {P : α → List Act → Globals → Prop} {r : Result}
    (all : ∀ a, r.All (P a) rest) : r.All (fun stack g => ∀ a, P a stack g) rest := by
  cases r <;> first | exact all | trivial

/-- Only `take` itself stands over a caller that waits for it. -/
theorem Stacked.queueing_of_taking {stack : List Act} {base : Int} (stacked : Stacked stack)
    (uncut : Uncut stack) (taking : .select base .taking ∈ stack.tail) :
    ∃ pri pc under, stack = .take pri pc :: under := by
  induction stack with
  | nil => cases taking
  | cons act rest ih =>
    cases rest with
    | nil => cases taking
    | cons caller under =>
      have atop : Admitted act.callee (caller :: under) := stacked.1
      rcases List.mem_cons.mp taking with rfl | inner
      · cases act with
        | take pri pc => exact ⟨pri, pc, _, rfl⟩
        | signal intr saved pc => cases (uncut_signal.mp uncut).1
        | _ => exact atop.elim
      · obtain ⟨pri, pc, outer, same⟩ := ih stacked.2 uncut.tail inner
        obtain ⟨rfl, -⟩ := List.cons.inj same
        cases act with
        | signal intr saved pc => cases (uncut_signal.mp uncut).1
        | _ => exact atop.elim

/-- `take` finds a process where `schedule` calls it. -/
theorem Idles.finds {base : Int} {highest : Nat} (inv : Idles idle (.select base (.chosen highest) :: rest) g)
    (ranks : Ranks (.select base (.chosen highest) :: rest) g)
    (chosen : highest = highestReady g.priorityMask) (above : base < highest) :
    (g.readyQ highest).head ≠ none := by
  obtain ⟨s, impl, rising, standby⟩ := inv.standby
  rcases highestReady_found g.priorityMask with zero | bit
  · rw [← chosen] at zero
    subst zero
    rcases standby with queued | held
    · obtain ⟨queue, free, rep, rfl⟩ := impl
      intro head
      have empty : queue 0 = [] := rep.queue_eq_nil head
      have queued : idle ∈ queue 0 := queued
      rw [empty] at queued
      cases queued
    · have below := ranks.bases.below_chosen ranks.orderly.stacked ranks.uncut above idle
      obtain ⟨queue, free, rep, rfl⟩ := impl
      exact absurd (below held) (Nat.not_lt_zero _)
  · rw [chosen]
    exact (impl.mask _).mp bit

/-- A step of the running code refers to the idle process no more than before. -/
theorem Idles.exec_unknown (inv : Idles idle (act :: rest) g) (ranks : Ranks (act :: rest) g)
    (other : queueing (act :: rest) = false) (arms : armsOwn .run ⟨act :: rest, g, none⟩ = true) :
    (exec act g).All (Settled fun stack g => ¬ Refers stack g idle) rest := by
  have stacked := ranks.orderly.stacked.follow (exec_follows act g)
  by_cases starts : ∃ args pc, act = .start args pc
  · obtain ⟨args, pc, rfl⟩ := starts
    -- what starts a process refers to none, whatever code has called it
    have lone : ∀ q, (exec (.start args pc) g).refers q → Refers (.userHandler 0 :: rest) g q ∨
        codeOf (.userHandler 0 :: rest) = some q := by
      intro q refers
      have alone : CurrentInv [.start args pc] g := trivial
      rcases exec_refers alone rfl rfl refers with (before | ⟨a, mem, partner⟩) | code
      · exact Or.inl (Or.inl before)
      · obtain rfl := List.mem_singleton.mp mem
        cases partner
      · cases code
    refine (Fewer.all stacked (exec_keepsTimeouts _) lone).imp fun stack g' settled =>
      settled.imp fun stack g' fewer refers => ?_
    rcases fewer idle refers with (before | ⟨a, mem, partner⟩) | code
    · exact inv.unknown (Or.inl before)
    · rcases List.mem_cons.mp mem with rfl | inner
      · cases partner
      · exact inv.unknown (Or.inr ⟨a, List.mem_cons_of_mem _ inner, partner⟩)
    · cases code
  · have fewer := Fewer.all stacked (exec_keepsTimeouts act)
      fun q refers => exec_refers ranks.coherent arms other refers
    by_cases executing : codeOf (act :: rest) = some idle
    · cases act with
      | rtc p => trivial
      | enableAlt p pc => exact absurd (Option.some.inj executing) (inv.parks _ List.mem_cons_self)
      | disableAlt p pc => exact absurd (Option.some.inj executing) (inv.parks _ List.mem_cons_self)
      | append p pc => cases other
      | start args pc => exact absurd ⟨args, pc, rfl⟩ starts
      | _ => cases executing
    · exact fewer.imp fun stack g' settled => settled.imp fun stack g' fewer refers =>
        (fewer idle refers).elim inv.unknown executing

/-- `take` finds a process wherever it is called. -/
theorem Idles.exec_finds (inv : Idles idle (act :: rest) g) (ranks : Ranks (act :: rest) g)
    (other : queueing (act :: rest) = false) (preempts : PreemptionInv (act :: rest) g) :
    (exec act g).All (fun stack g' => ∀ pri pc under, stack = .take pri pc :: under →
      (g'.takeFrom pri pc).1 ≠ none) rest := by
  have follows := exec_follows act g
  cases outcome : exec act g with
  | next act' g' =>
    intro pri pc under same
    obtain ⟨rfl, -⟩ := List.cons.inj same
    rw [outcome] at follows
    rcases follows with kind | ⟨-, kind⟩
    · cases act with
      | take level pc => cases other
      | _ => cases kind
    · cases kind
  | call caller callee g' =>
    intro pri pc under same
    obtain ⟨rfl, -⟩ := List.cons.inj same
    rw [outcome] at follows
    obtain ⟨kind, admits, -⟩ := follows
    obtain ⟨base', under', frame⟩ := @Admitted.caller_of_take [caller] admits
    obtain ⟨rfl, -⟩ := List.cons.inj frame
    cases act with
    | select base pc =>
      cases pc with
      | chosen highest =>
        simp only [exec, execSelect] at outcome
        split at outcome
        · cases outcome
        · rename_i above
          cases outcome
          obtain ⟨p, first⟩ := Option.ne_none_iff_exists'.mp
            (inv.finds ranks preempts.2 (Int.not_le.mp above))
          simp [Globals.takeFrom, Globals.takeHead_eq, first]
      | top => cases outcome
      | taking => cases outcome
      | took r => cases r <;> cases outcome
    | schedule base p pc =>
      cases pc <;> simp only [exec, execSchedule, callDisableAlt] at outcome <;>
        (repeat' split at outcome) <;> cases outcome
    | _ => cases kind
  | ret v g' =>
    intro pri pc under same
    have caller := ranks.orderly.caller v
    rw [same] at caller
    cases caller
  | stop why => trivial
  | stuck => trivial

/-- A step of the running code leaves the idle process where it is. -/
theorem Idles.exec_parked (inv : Idles idle (act :: rest) g) (ranks : Ranks (act :: rest) g)
    (other : queueing (act :: rest) = false) (preempts : PreemptionInv (act :: rest) g) :
    (exec act g).All (Settled fun stack _ => Parked idle stack) rest := by
  by_cases executes : act = .rtc idle
  · rw [executes]
    trivial
  · have untaken : ∀ base, .select base .taking ∉ rest := by
      intro base mem
      obtain ⟨pri, pc, under, same⟩ := ranks.orderly.stacked.queueing_of_taking ranks.uncut mem
      rw [same] at other
      cases other
    have parked := inv.toParked.all (exec_parks (inv.parks _ List.mem_cons_self) inv.fresh
      (inv.executing ranks)) executes untaken
    have stacked := ranks.orderly.stacked.follow (exec_follows act g)
    exact ((stacked.and parked).and (inv.exec_finds ranks other preempts)).imp fun stack g' all =>
      all.1.2.settled all.1.1 all.2

/-- The other processes are those of the application above the idle one. -/
theorem Idles.exec_others (inv : Idles idle (act :: rest) g) (ranks : Ranks (act :: rest) g) :
    (exec act g).All (Settled fun _ g' => ∀ q, q ≠ idle →
      initialised (act :: rest) g q = true ∨ act.reserves = some q →
      (g'.proc q).rtc = .user ∧ priMin < (g'.proc q).pri) rest := by
  refine (Result.All.forall fun q => ?_).imp fun stack g' all => Settled.of_store (P := fun proc _ =>
    ∀ q, q ≠ idle → initialised (act :: rest) g q = true ∨ act.reserves = some q →
      (proc q).rtc = .user ∧ priMin < (proc q).pri) all
  by_cases fills : act.reserves = some q
  · exact (exec_fills (inv.parks _ List.mem_cons_self) (ranks.orderly.sound _ List.mem_cons_self)
      fills).imp fun stack g' filled _ _ => filled
  · refine (exec_kind fills).imp fun stack g' kind other alive => ?_
    rw [kind.1, kind.2]
    exact inv.others q (alive.resolve_right fills) other

/-- Every step of the running code keeps the invariant. -/
theorem Idles.step (inv : Idles idle (act :: rest) g) (ranks : Ranks (act :: rest) g)
    (other : queueing (act :: rest) = false) (keeps : KeepsRecords .run ⟨act :: rest, g, none⟩)
    (preempts : PreemptionInv (act :: rest) g) (records : RecordsInv (act :: rest) g) :
    (exec act g).All (Settled (Idles idle)) rest := by
  have references := records.references
  obtain ⟨s, impl, rising, standby⟩ := inv.standby
  have may := impl.mayPreempt rising references.readies keeps.unqueued ranks.orderly.stacked ranks.uncut
    fun _ => ranks.bases
  have possible := action_possible impl
  have spares := inv.spares ranks impl references
  have released : act.action g ≠ .release idle := by
    intro release
    rw [release] at spares possible
    exact spares possible.1
  have simulates := exec_simulates other ranks.orderly rising.toLeveled (rising.safe possible may) impl
  have unknown := inv.exec_unknown ranks other keeps.arms
  have parked := inv.exec_parked ranks other preempts
  have others := inv.exec_others ranks
  have same : (exec act g).All (Settled fun _ g' => g'.proc idle = g.proc idle) rest :=
    (inv.exec_same ranks).imp fun stack g' same => Settled.of_store (P := fun proc _ =>
      proc idle = g.proc idle) same
  have current : (exec act g).All (Settled fun _ g' => g'.current ≠ none) rest :=
    (exec_current inv.current).imp fun stack g' some => Settled.of_store (P := fun _ current =>
      current ≠ none) some
  refine (((((simulates.and unknown).and same).and parked).and others).and current).imp
    fun stack' g' all => (((((all.1.1.1.1.1.and all.1.1.1.1.2).and all.1.1.1.2).and all.1.1.2).and
      all.1.2).and all.2).imp fun stack' g' after => ?_
  obtain ⟨⟨⟨⟨⟨impl', unknown⟩, same⟩, parked⟩, others⟩, current⟩ := after
  refine ⟨parked, ?_, ?_, ?_, fun q alive other => ?_, unknown, ?_, current⟩
  · exact impl'.live_iff.mp (Sched.live_next (impl.live_iff.mpr inv.alive) released)
  · rw [same]
    exact inv.fresh
  · rw [same]
    exact inv.kind
  · refine others q other ?_
    rcases Sched.live_of_next (impl'.live_iff.mpr alive) with before | ⟨pri, create⟩
    · exact Or.inl (impl.live_iff.mp before)
    · exact Or.inr (Act.reserves_of_create create)
  · exact ⟨_, impl', rising.next possible may, standby.next spares⟩

/-- Application code calls no queue operation. -/
theorem execUser_other {op : Op} (orderly : Orderly (act :: rest)) :
    (execUser op act g).All (fun stack _ => queueing stack = false) rest := by
  unfold execUser
  split
  · split
    · cases op <;> simp only [userRtc] <;> (repeat' split) <;>
        first | trivial | exact orderly.caller _
    · trivial
  · cases op <;> simp only [userMain, callSchedule] <;> (repeat' split) <;> trivial
  · trivial

/-- So does every call of application code. -/
theorem Idles.user {op : Op} (inv : Idles idle (act :: rest) g) (ranks : Ranks (act :: rest) g)
    (other : queueing (act :: rest) = false) : (execUser op act g).All (Settled (Idles idle)) rest := by
  by_cases apart : act.process ≠ some idle ∧ codeOf (act :: rest) ≠ some idle
  · obtain ⟨own, executing⟩ := apart
    have running : ∀ p, act = .rtc p → g.current = some p := by
      rintro p rfl
      exact ranks.coherent.1
    have untaken : ∀ base, .select base .taking ∉ rest := by
      intro base mem
      obtain ⟨pri, pc, under, same⟩ := ranks.orderly.stacked.queueing_of_taking ranks.uncut mem
      rw [same] at other
      cases other
    have parked := inv.toParked.all (execUser_parks op act g) (fun same => own (same ▸ rfl)) untaken
    obtain ⟨s, impl, rising, standby⟩ := inv.standby
    have possible : s.Possible (op.action act) := op_action_possible ranks.orderly impl
    have marks : s.Spares idle (op.action act) ∧ s.MayPreempt (op.action act) ∧
        (∀ q pri, op.action act ≠ .create q pri) ∧ op.action act ≠ .release idle := by
      unfold Op.action
      split <;> simp [Sched.Spares, Sched.MayPreempt]
    have simulates : (execUser op act g).All (Settled (Implements (s.next (op.action act)))) rest :=
      execUser_simulates ranks.orderly (fun _ => running) impl
    have fewer : (execUser op act g).All (Settled (Fewer (act :: rest) g)) rest :=
      execUser_fewer ranks.orderly ranks.coherent
    have spared : (execUser op act g).All (fun _ g' => g'.proc idle = g.proc idle ∧
        (∀ q, (g'.proc q).rtc = (g.proc q).rtc ∧ (g'.proc q).pri = (g.proc q).pri) ∧
          g'.current = g.current) rest :=
      (execUser_spares running own).and ((Result.All.forall fun q => execUser_kind).and execUser_current)
    refine (((execUser_other ranks.orderly).and (parked.and spared)).and (simulates.and fewer)).imp
      fun stack' g' all => ?_
    obtain ⟨⟨none, parked, same, kinds, current⟩, simulates, fewer⟩ := all
    rw [settled_of_not_queueing none] at simulates fewer ⊢
    refine ⟨parked, ?_, ?_, ?_, fun q alive other => ?_, fun refers => ?_,
      ⟨_, simulates, rising.next possible marks.2.1, standby.next marks.1⟩, ?_⟩
    · exact simulates.live_iff.mp (Sched.live_next (impl.live_iff.mpr inv.alive) marks.2.2.2)
    · rw [same]
      exact inv.fresh
    · rw [same]
      exact inv.kind
    · rw [(kinds q).1, (kinds q).2]
      refine inv.others q ?_ other
      rcases Sched.live_of_next (simulates.live_iff.mpr alive) with before | ⟨pri, create⟩
      · exact impl.live_iff.mp before
      · exact absurd create (marks.2.2.1 q pri)
    · exact (fewer idle refers).elim inv.unknown executing
    · rw [current]
      exact inv.current
  · cases act with
    | main pc => simp [Act.process, codeOf] at apart
    | rtc p =>
      have same : p = idle := by simpa [Act.process, codeOf] using apart
      rw [same]
      simp [execUser, inv.kind.1]
    | _ => trivial

/-- So does an interrupt. -/
theorem Idles.interrupt {stack : List Act} (inv : Idles idle stack g) (intr : Nat) :
    Idles idle (.signal intr g.blocked .enter :: stack) g.disable := by
  obtain ⟨s, impl, rising, standby⟩ := inv.standby
  refine ⟨⟨List.forall_mem_cons.mpr ⟨trivial, inv.parks⟩, fun base mem => ?_⟩, inv.alive, inv.fresh,
    inv.kind, inv.others, ?_, ⟨s, impl.silent rfl, rising, standby⟩, inv.current⟩
  · rcases List.mem_cons.mp mem with wrong | inner
    · cases wrong
    · exact List.mem_cons_of_mem _ (inv.executes base inner)
  · rintro (refers | ⟨a, mem, partner⟩)
    · exact inv.unknown (Or.inl refers)
    · rcases List.mem_cons.mp mem with rfl | inner
      · cases partner
      · exact inv.unknown (Or.inr ⟨a, inner, partner⟩)

/-- So does the clock. -/
theorem Idles.clock {stack : List Act} (inv : Idles idle stack g) (t : Time) :
    Idles idle stack { g with now := t } := by
  obtain ⟨s, impl, rising, standby⟩ := inv.standby
  exact ⟨inv.toParked, inv.alive, inv.fresh, inv.kind, inv.others, inv.unknown,
    ⟨s, impl.silent rfl, rising, standby⟩, inv.current⟩

/-- `initialize` allocates the first record. -/
theorem Beginning.alloc (initially : g.current = none) (none : ∀ p, allocated g.log p = false) :
    (exec (.main .idleAlloc) g).All (Settled Beginning) [] := by
  simp only [exec, execMain]
  split
  · split
    · trivial
    · rename_i record mem _
      refine ⟨initially, Or.inr ⟨_, record, rfl, fun p alloc => ?_⟩⟩
      by_contra other
      have before : allocated (.alloc record :: g.log) p = true := alloc
      rw [allocated, if_neg (Ne.symm other), none p] at before
      cases before
  · trivial
  · trivial

/-- It makes this record the idle process, and makes it current. -/
theorem Beginning.fill {index : Nat} {record : Addr} (ranks : Ranks [.main (.idleFill index record)] g)
    (references : ReferencesInv [.main (.idleFill index record)] g)
    (alone : ∀ p, allocated g.log p = true → p = record) :
    (exec (.main (.idleFill index record)) g).All (Settled (Idles record)) [] := by
  have orderly := ranks.orderly
  obtain ⟨s, impl, rising⟩ := ranks.rising
  have possible := action_possible impl
  have simulates := exec_simulates rfl orderly rising.toLeveled (rising.safe possible trivial) impl
  have unused : ∀ q, initialised [.main (.idleFill index record)] g q = false := by
    intro q
    by_contra known
    simp only [initialised, Bool.not_eq_false, Bool.and_eq_true, decide_eq_true_eq] at known
    exact known.2 (alone q known.1 ▸ List.mem_cons_self)
  have fewer := Fewer.all (orderly.stacked.follow (exec_follows _ g)) (exec_keepsTimeouts _)
    fun q refers => exec_refers ranks.coherent rfl rfl refers
  have filled : (exec (.main (.idleFill index record)) g).All (Settled fun _ g' =>
      ((g'.proc record).state = .initial ∧ (g'.proc record).rtc = .idle ∧
        (g'.proc record).pri = priMin) ∧ g'.current ≠ none) [] := by
    simp only [exec, execMain, Result.all_call]
    exact Settled.of_store (P := fun proc current => ((proc record).state = .initial ∧
      (proc record).rtc = .idle ∧ (proc record).pri = priMin) ∧ current ≠ none) (by simp)
  have parked : (exec (.main (.idleFill index record)) g).All
      (Settled fun stack _ => stack = [.main .timerInit]) [] := rfl
  refine (((simulates.and fewer).and filled).and parked).imp fun stack' g' all =>
    (((all.1.1.1.and all.1.1.2).and all.1.2).and all.2).imp fun stack' g' after => ?_
  obtain ⟨⟨⟨impl', fewer⟩, ⟨initial, kind⟩, current⟩, rfl⟩ := after
  have created : (s.next (.create record priMin)).live record := Or.inl rfl
  refine ⟨⟨fun a mem => ?_, fun base mem => ?_⟩, impl'.live_iff.mp created, initial, kind,
    fun q alive other => ?_, fun refers => ?_, ⟨_, impl', rising.next possible trivial, Or.inl ?_⟩,
    current⟩
  · obtain rfl := List.mem_singleton.mp mem
    exact Or.inl rfl
  · cases List.mem_singleton.mp mem
  · rcases Sched.live_of_next (impl'.live_iff.mpr alive) with before | ⟨pri, create⟩
    · rw [impl.live_iff, unused q] at before
      cases before
    · cases create
      exact absurd rfl other
  · rcases fewer record refers with before | executing
    · have known := references record before
      rw [unused record] at known
      cases known
    · cases executing
  · change record ∈ Function.update s.queue (Function.update s.pri record priMin record) _ priMin
    rw [Function.update_self, Function.update_self]
    simp

end Steps

/-- No interrupt comes before `initialize` has made the idle process the current one. -/
def comesLate (label : Label) (s : State) : Bool :=
  match label with
  | .interrupt _ => s.g.current.isSome
  | _ => true

/-- The conditions: those under which the records are kept, and when the first interrupt comes. -/
structure KeepsIdle (label : Label) (s : State) : Prop extends KeepsRecords label s where
  /-- The first interrupt. -/
  late : comesLate label s = true

/-- In runs under the conditions it holds. -/
theorem idle_kept : Kept KeepsIdle (fun stack g => ((Ranked stack g ∧ Settled PreemptionInv stack g) ∧
    Settled RecordsInv stack g) ∧ Settled IdleInv stack g) := by
  refine Kept.and (records_kept.mono fun label s keeps => keeps.toKeepsRecords)
    (Kept.settled ?_ ?_ ?_ ?_ ?_)
  · exact fun label s known => ⟨undisturbed_of_guarded known.1.guarded, known.2.1.1.orderly.stacked⟩
  · rintro act rest g other ⟨keeps, ⟨ranked, preempts⟩, records⟩ inv
    have ranks := ranked.ranks other
    rw [settled_of_not_queueing other] at preempts records
    rcases inv with ⟨initially, ⟨same, none⟩ | ⟨index, record, same, alone⟩⟩ | ⟨idle, inv⟩
    · obtain ⟨rfl, rfl⟩ := List.cons.inj same
      exact (Beginning.alloc initially none).imp fun stack g settled => settled.imp fun _ _ => Or.inl
    · obtain ⟨rfl, rfl⟩ := List.cons.inj same
      exact (Beginning.fill ranks records.references alone).imp fun stack g settled =>
        settled.imp fun _ _ inv => Or.inr ⟨record, inv⟩
    · exact (inv.step ranks other keeps.toKeepsRecords preempts records).imp fun stack g settled =>
        settled.imp fun _ _ inv => Or.inr ⟨idle, inv⟩
  · rintro op act rest g ⟨keeps, ⟨ranked, -⟩, -⟩ inv
    rcases inv with ⟨-, ⟨same, -⟩ | ⟨index, record, same, -⟩⟩ | ⟨idle, inv⟩
    · obtain ⟨rfl, rfl⟩ := List.cons.inj same
      trivial
    · obtain ⟨rfl, rfl⟩ := List.cons.inj same
      trivial
    · by_cases other : queueing (act :: rest) = false
      · exact (inv.user (ranked.ranks other) other).imp fun stack g settled =>
          settled.imp fun _ _ inv => Or.inr ⟨idle, inv⟩
      · cases act with
        | take pri pc => trivial
        | append p pc => trivial
        | _ => exact absurd rfl other
  · rintro intr stack g ⟨keeps, -⟩ - - inv
    have late : g.current.isSome = true := keeps.late
    rcases inv with ⟨initially, -⟩ | ⟨idle, inv⟩
    · rw [initially] at late
      cases late
    · exact Or.inr ⟨idle, inv.interrupt intr⟩
  · rintro t stack g (⟨initially, early⟩ | ⟨idle, inv⟩)
    · exact Or.inl ⟨initially, early⟩
    · exact Or.inr ⟨idle, inv.clock t⟩

/-- After `sched_init` nothing is referred to and nothing was used. -/
theorem records_start {arena memlen : Nat} {g : Globals} {handlers : Nat → Option Handler}
    (pristine : Pristine g) : RecordsInv [.main .idleAlloc] { g with
      mem := g.mem.memoryInit arena memlen, interruptHandler := handlers } := by
  constructor
  · rintro q ((⟨c, waiting⟩ | ⟨x, waiting⟩ | ⟨t, queued, -⟩) | ⟨a, mem, partner⟩)
    · cases (congrArg Channel.waiting (pristine.chan c)).symm.trans waiting
    · cases (congrArg InterruptChannel.waiting (pristine.ichan x)).symm.trans waiting
    · have empty : t ∈ g.timer.queue := queued
      rw [pristine.queue] at empty
      cases empty
    · obtain rfl := List.mem_singleton.mp mem
      cases partner
  · change usesAllocated g.log = true
    rw [pristine.log]
    rfl

/-- It holds from `sched_init` on. -/
theorem idle_of_run {first last : State} (booted : Booted first) (run : Run step KeepsIdle first last) :
    Starting last.stack last.g ∨ ((Ranked last.stack last.g ∧ Settled PreemptionInv last.stack last.g) ∧
      Settled RecordsInv last.stack last.g) ∧ Settled IdleInv last.stack last.g := by
  refine idle_kept.from_sched_init (fun arena memlen g handlers pristine => ?_) booted run
  have none : ∀ p, allocated g.log p = false := fun p => by
    rw [pristine.log]
    rfl
  exact ⟨⟨⟨ranked_start pristine, fun known => absurd known (by simp [level])⟩, records_start pristine⟩,
    Or.inl ⟨pristine.current, Or.inl ⟨rfl, none⟩⟩⟩

/-! ## No NULL process -/

/-- No step has read a member of `current` while there was no current process, and `take` has found
a process for every activation of `schedule` that called it. -/
structure NeverNull (s : State) : Prop where
  /-- `current->pri` and `current->state` were read of a process. -/
  current : s.stopped ≠ some (.fault "current is NULL")
  /-- So was `proc->state`. -/
  taken : ∀ base rest, s.stack ≠ .select base (.took none) :: rest

/-- The running code reads `current` outside of `main` and of queue operations only. -/
theorem exec_faults {act : Act} {g : Globals} (fault : exec act g = .stop (.fault "current is NULL")) :
    g.current = none ∧ (∀ pc, act ≠ .main pc) ∧ ∀ rest, queueing (act :: rest) = false := by
  cases act with
  | ready p pc =>
    cases pc with
    | appended =>
      simp only [exec, execReady, callSchedule] at fault
      split at fault
      · rename_i none
        exact ⟨none, by simp, fun _ => rfl⟩
      · split at fault <;> cases fault
    | test =>
      simp only [exec, execReady] at fault
      split at fault <;> cases fault
    | scheduling prev => cases fault
  | signal intr saved pc =>
    cases pc with
    | handled previously =>
      simp only [exec, execSignal, callScheduleAtCurrent, callSchedule] at fault
      split at fault
      · split at fault
        · rename_i none
          exact ⟨none, by simp, fun _ => rfl⟩
        · cases fault
      · cases fault
    | enter =>
      simp only [exec, execSignal] at fault
      split at fault <;> cases fault
    | scheduled previously => cases fault
    | leave => cases fault
  | main pc =>
    cases pc <;> simp only [exec, execMain] at fault <;> (repeat' split at fault) <;> simp at fault
  | select base pc =>
    cases pc <;> simp only [exec, execSelect] at fault <;> (repeat' split at fault) <;> simp at fault
  | schedule base p pc =>
    cases pc <;> simp only [exec, execSchedule, callDisableAlt] at fault <;>
      (repeat' split at fault) <;> simp at fault
  | take pri pc =>
    cases pc <;> simp only [exec, execTake] at fault <;> (repeat' split at fault) <;> simp at fault
  | append p pc =>
    cases pc <;> simp only [exec, execAppend] at fault <;> (repeat' split at fault) <;> simp at fault
  | start args pc =>
    cases pc <;> simp only [exec, execStart] at fault <;> (repeat' split at fault) <;> simp at fault
  | rtc p => cases fault
  | enableAlt p pc =>
    cases pc <;> simp only [exec, execEnableAlt] at fault <;> (repeat' split at fault) <;>
      simp at fault
  | disableAlt p pc =>
    cases pc <;> simp only [exec, execDisableAlt] at fault <;> (repeat' split at fault) <;>
      simp at fault
  | timeoutHandler pc =>
    cases pc <;> simp only [exec, execTimeoutHandler, readyOrFault] at fault <;>
      (repeat' split at fault) <;> simp at fault
  | userHandler intrsrc =>
    simp only [exec, execUserHandler] at fault
    repeat' split at fault
    all_goals simp at fault

/-- Application code reads it in processes only. -/
theorem execUser_faults {op : Op} {act : Act} {g : Globals}
    (fault : execUser op act g = .stop (.fault "current is NULL")) :
    g.current = none ∧ (∀ pc, act ≠ .main pc) ∧ ∀ rest, queueing (act :: rest) = false := by
  unfold execUser at fault
  split at fault
  · split at fault
    · cases none : g.current with
      | none => exact ⟨rfl, by simp, fun _ => rfl⟩
      | some c =>
        cases op <;> simp only [userRtc, none] at fault <;> (repeat' split at fault) <;> simp at fault
    · cases fault
  · cases op <;> simp only [userMain, callSchedule] at fault <;> (repeat' split at fault) <;>
      simp at fault
  · cases fault

/-- There is a current process outside of `main`. -/
theorem current_of_run {first before : State} (booted : Booted first) (run : Run step KeepsIdle first before)
    {act : Act} {rest : List Act} (top : before.stack = act :: rest) (other : queueing (act :: rest) = false)
    (elsewhere : ∀ pc, act ≠ .main pc) : before.g.current ≠ none := by
  rcases idle_of_run booted run with starting | ⟨-, inv⟩
  · obtain ⟨pc, alone⟩ := starting.alone
    rw [top] at alone
    exact absurd (List.cons.inj alone).1 (elsewhere pc)
  · rw [top, settled_of_not_queueing other] at inv
    rcases inv with ⟨-, ⟨same, -⟩ | ⟨index, record, same, -⟩⟩ | ⟨idle, inv⟩
    · exact absurd (List.cons.inj same).1 (elsewhere _)
    · exact absurd (List.cons.inj same).1 (elsewhere _)
    · exact inv.current

/-- A step stops where its outcome does. -/
theorem Result.apply_stopped {r : Result} {s s' : State} {rest : List Act} {why : Stop}
    (applied : r.apply s rest = some s') (stopped : s'.stopped = some why) : r = .stop why := by
  cases r <;> cases applied <;> first | cases stopped; rfl | cases stopped

/-- In every run under the conditions `schedule` has a process wherever it takes one, and `current`
is one wherever it is read. -/
theorem never_null {first last : State} (booted : Booted first) (run : Run step KeepsIdle first last) :
    NeverNull last := by
  refine ⟨fun stopped => ?_, fun base rest same => ?_⟩
  · rcases Relation.ReflTransGen.cases_tail run with rfl | ⟨⟨stack, g, running⟩, run, label, -, stepped⟩
    · cases booted
      cases stopped
    · have some := @current_of_run first ⟨stack, g, running⟩ booted run
      cases running with
      | some why => simp [step] at stepped
      | none =>
        cases label with
        | run =>
          cases stack with
          | nil => cases stepped
          | cons act rest =>
            obtain ⟨none, elsewhere, other⟩ := exec_faults (Result.apply_stopped stepped stopped)
            exact some rfl (other rest) elsewhere none
        | user op =>
          cases stack with
          | nil => cases stepped
          | cons act rest =>
            obtain ⟨none, elsewhere, other⟩ := execUser_faults (Result.apply_stopped stepped stopped)
            exact some rfl (other rest) elsewhere none
        | interrupt intr =>
          simp only [step, Option.isSome_none, Bool.false_eq_true, if_false] at stepped
          split at stepped
          · cases stepped
            cases stopped
          · cases stepped
        | clock t =>
          cases stepped
          cases stopped
  · rcases idle_of_run booted run with starting | ⟨-, inv⟩
    · obtain ⟨pc, alone⟩ := starting.alone
      rw [same] at alone
      cases alone
    · rw [same, settled_of_not_queueing rfl] at inv
      rcases inv with ⟨-, ⟨wrong, -⟩ | ⟨index, record, wrong, -⟩⟩ | ⟨idle, inv⟩
      · cases wrong
      · cases wrong
      · exact inv.parks _ List.mem_cons_self rfl

/-- A process of priority 1 waits for input, and the idle process is executed. -/
def waitingThenIdle : List Label :=
  runs 11 ++ [.user (startWith ⟨.chanin 0 none 0, true⟩ 1)] ++ runs 10 ++ [.user .ret] ++ runs 10 ++
    [.user (.initAlt 1), .user .ret] ++ runs 23

/-- The conditions, where no record is released. -/
theorem keepsIdle_of_releasesNone {label : Label} {s : State} (keeps : (guarded label s &&
    startsBelow label s && armsOwn label s && releasesNone label s && comesLate label s) = true) :
    KeepsIdle label s := by
  simp only [Bool.and_eq_true] at keeps
  exact ⟨keepsRecords_of_releasesNone keeps.1.1.1.1 keeps.1.1.1.2 keeps.1.1.2 keeps.1.2, keeps.2⟩

/-- The tick finds the idle process in `current`, and this goes on. -/
theorem never_null_after_tick :
    ∃ last : State, NeverNull last ∧ codeOf last.stack = some 1000 ∧ last.g.current = some 1000 := by
  let labels := waitingThenIdle ++ [.interrupt 0] ++ runs 6
  obtain ⟨last, run, checked⟩ := exists_run_of_executeUnder labels
    (fun s : State => codeOf s.stack == some 1000 && s.g.current == some 1000)
    (by decide +kernel : (executeUnder step (fun label s => guarded label s && startsBelow label s &&
      armsOwn label s && releasesNone label s && comesLate label s) labels (zeroBoot 1000)).any _ = true)
  simp only [Bool.and_eq_true, beq_iff_eq] at checked
  exact ⟨last, never_null (zeroBoot_booted 1000) (run.mono fun _ _ => keepsIdle_of_releasesNone), checked⟩

/-! ## No work is left -/

/-- While a process is executed, all processes above it wait, and while the idle process is executed,
so do all others. -/
def WorkConserved (s : State) : Prop :=
  queueing s.stack = false → ∀ p, codeOf s.stack = some p →
    ∀ q, initialised s.stack s.g q = true → q ≠ p →
      (s.g.proc p).pri < (s.g.proc q).pri ∨ (s.g.proc p).rtc = .idle → (s.g.proc q).state = .waiting

/-- A process above the one that is executed is not in progress and not queued. -/
theorem Ranks.waiting_above {stack : List Act} {g : Globals} {p q : Addr} (ranks : Ranks stack g)
    (clear : Clear (g.pri p) g) (owns : ∃ s, Implements s stack g ∧ s.Exact)
    (executing : codeOf stack = some p) (alive : initialised stack g q = true)
    (above : (g.proc p).pri < (g.proc q).pri) : (g.proc q).state = .waiting := by
  have free : q ∉ stack.filterMap Act.holds := by
    intro held
    have run : ∀ base r, .select base (.took r) ∉ stack := by
      intro base r mem
      cases stack with
      | nil => cases mem
      | cons act rest =>
        rcases List.mem_cons.mp mem with rfl | inner
        · cases executing
        · exact ranks.orderly.stacked.not_took ranks.uncut inner
    have le := ranks.bases.held_le ranks.orderly.stacked run q held
    rw [ranks.orderly.stacked.level_of_codeOf executing] at le
    have le : ((g.proc q).pri : Int) ≤ (g.proc p).pri := le
    omega
  obtain ⟨s, ⟨queue, free', rep, rfl⟩, own⟩ := owns
  rcases own.placed q (live_view.mpr alive) free with waiting | queued
  · exact waiting
  · have empty : queue (g.proc q).pri = [] :=
      rep.queue_eq_nil (clear (g.proc q).pri (Int.ofNat_lt.mpr above))
    change q ∈ queue (g.proc q).pri at queued
    rw [empty] at queued
    cases queued

/-- In every run under the conditions that keeps the queues, no process that can run waits for one
below it, nor for the idle process. -/
theorem work_conserved {first last : State} (booted : Booted first)
    (run : Run step (fun label s => KeepsIdle label s ∧ keepsQueues label s = true) first last) :
    WorkConserved last := by
  intro settled p executing q alive other above
  have elsewhere : ∀ pc, last.stack ≠ [.main pc] := by
    intro pc same
    rw [same] at executing
    cases executing
  have starting : ¬ Starting last.stack last.g := fun starting => by
    obtain ⟨pc, alone⟩ := starting.alone
    exact elsewhere pc alone
  have owns := (exact_of_run booted (run.mono fun _ _ keeps => keeps.2)).resolve_left starting
  obtain ⟨⟨⟨ranked, preempts⟩, -⟩, inv⟩ :=
    (idle_of_run booted (run.mono fun _ _ keeps => keeps.1)).resolve_left starting
  rw [settled_of_not_queueing settled] at inv
  refine (ranked.ranks settled).waiting_above (ranked.clear preempts executing)
    ((settled_of_not_queueing settled).mp owns.2) executing alive ?_
  rcases above with above | kind
  · exact above
  · rcases inv with ⟨-, ⟨same, -⟩ | ⟨index, record, same, -⟩⟩ | ⟨idle, inv⟩
    · exact absurd same (elsewhere _)
    · exact absurd same (elsewhere _)
    · have here : p = idle := by
        by_contra apart
        have user := (inv.others p ((ranked.ranks settled).executing executing) apart).1
        rw [kind] at user
        cases user
      subst here
      rw [inv.kind.2]
      exact (inv.others q alive other).2

/-- The idle process is executed while the other process waits for input. -/
theorem work_conserved_while_waiting : ∃ last : State, WorkConserved last ∧
    codeOf last.stack = some 1000 ∧ initialised last.stack last.g 1024 = true := by
  obtain ⟨last, run, checked⟩ := exists_run_of_executeUnder waitingThenIdle
    (fun s : State => codeOf s.stack == some 1000 && initialised s.stack s.g 1024)
    (by decide +kernel : (executeUnder step (fun label s => (guarded label s && startsBelow label s &&
      armsOwn label s && releasesNone label s && comesLate label s) && keepsQueues label s)
      waitingThenIdle (zeroBoot 1000)).any _ = true)
  simp only [Bool.and_eq_true, beq_iff_eq] at checked
  refine ⟨last, work_conserved (zeroBoot_booted 1000) (run.mono fun _ _ keeps => ?_), checked⟩
  rw [Bool.and_eq_true] at keeps
  exact ⟨keepsIdle_of_releasesNone keeps.1, keeps.2⟩

end Microcsp
