import Microcsp.Steps

/-!
# The current process

`schedule` stores the process it takes in `current` and does not restore it. Of its callers `run`
does not return, `readyProcessIfNecessary` restores the process it saved, and `handle_signal` does
neither. What the rest of the control stack asks of `current` is an invariant of every run in which
`handle_signal` never interrupts a process and finds another one to run.
-/

open Library

namespace Microcsp

/-- The process whose code or whose pass through `schedule` the activation is. -/
def Act.process : Act → Option Addr
  | .schedule _ p _ | .rtc p | .enableAlt p _ | .disableAlt p _ => some p
  | _ => none

/-- The process in whose code control is: its rtc function, with the calls of `start` it makes,
or `enable_alt` or `disable_alt` on its behalf. -/
def codeOf : List Act → Option Addr
  | .rtc p :: _ | .enableAlt p _ :: _ | .disableAlt p _ :: _ => some p
  | .append _ _ :: rest | .start _ _ :: rest => codeOf rest
  | _ => none

/-- The innermost activation is one of `handle_signal`. -/
def interrupted : List Act → Prop
  | .signal .. :: _ => True
  | _ => False

/-- The activations of the stack find in `current` what they rely on when control comes back to
them, if it is `c` now. -/
def Coherent : List Act → Option Addr → Prop
  | [], _ => True
  | .main _ :: _, _ => True
  | .rtc p :: rest, c => c = some p ∧ Coherent rest c
  | .enableAlt p _ :: rest, c => c = some p ∧ Coherent rest c
  | .disableAlt p _ :: rest, c => c = some p ∧ Coherent rest c
  | .schedule _ p _ :: rest, c => c = some p ∧ ∀ c', Coherent rest c'
  | .select _ .top :: rest, c => Coherent rest c ∧ (interrupted rest ∨ ∀ c', Coherent rest c')
  | .select _ (.chosen _) :: rest, c =>
    Coherent rest c ∧ (interrupted rest ∨ ∀ c', Coherent rest c')
  | .select _ .taking :: rest, _ => ∀ c', Coherent rest c'
  | .select _ (.took _) :: rest, _ => ∀ c', Coherent rest c'
  | .ready _ (.scheduling prev) :: rest, _ => Coherent rest (some prev)
  | .ready _ .test :: rest, c => Coherent rest c
  | .ready _ .appended :: rest, c => Coherent rest c
  | .take _ _ :: rest, c => Coherent rest c
  | .append _ _ :: rest, c => Coherent rest c
  | .start _ _ :: rest, c => Coherent rest c
  | .signal _ _ _ :: rest, c => Coherent rest c
  | .timeoutHandler _ :: rest, c => Coherent rest c
  | .userHandler _ :: rest, c => Coherent rest c

/-- A return does not change what the stack relies on. -/
theorem coherent_resume (act : Act) (v : Value) (rest : List Act) (c : Option Addr) :
    Coherent (act.resume v :: rest) c ↔ Coherent (act :: rest) c := by
  unfold Act.resume
  split <;> simp only [Coherent]

/-- A return leaves the caller with what it relies on. -/
theorem coherent_returnTo {v : Value} {rest : List Act} {c : Option Addr}
    (coherent : Coherent rest c) : Coherent (returnTo v rest) c := by
  cases rest with
  | nil => trivial
  | cons act rest => exact (coherent_resume act v rest c).mpr coherent

/-- A stack with no process on it relies on nothing. -/
theorem coherent_of_idle {stack : List Act} (idle : ∀ act ∈ stack, act.process = none)
    (c : Option Addr) : Coherent stack c := by
  induction stack generalizing c with
  | nil => trivial
  | cons act rest ih =>
    have below := ih fun a mem => idle a (List.mem_cons_of_mem _ mem)
    have none := idle act List.mem_cons_self
    cases act with
    | rtc p => cases none
    | enableAlt p pc => cases none
    | disableAlt p pc => cases none
    | schedule base p pc => cases none
    | select base pc => cases pc <;> simp [Coherent, below]
    | ready partner pc => cases pc <;> simp [Coherent, below]
    | _ => first | trivial | exact below c

/-- When `handle_signal` calls `schedule`, either it interrupted no process or there is none to
run above the priority of `current`. -/
def preemptsNothing (label : Label) (s : State) : Bool :=
  match label, s.stack with
  | .run, .select base (.chosen highest) :: .signal _ _ _ :: rest =>
    decide ((highest : Int) ≤ base) || rest.all (·.process.isNone)
  | _, _ => true

/-- The invariant. -/
def CurrentInv (stack : List Act) (g : Globals) : Prop := Coherent stack g.current

section Steps

attribute [local simp] Coherent

variable {rest : List Act} {g : Globals}

theorem execTake_current (pri : Nat) (pc : TakePc) (coherent : Coherent rest g.current) :
    (execTake pri pc g).All CurrentInv rest := by
  cases pc <;> simp only [execTake] <;> (try split) <;>
    simp [CurrentInv, coherent, coherent_returnTo coherent]

theorem execAppend_current (p : Addr) (pc : AppendPc) (coherent : Coherent rest g.current) :
    (execAppend p pc g).All CurrentInv rest := by
  cases pc <;> simp only [execAppend] <;> (try split) <;>
    simp [CurrentInv, coherent]

theorem execStart_current (args : StartArgs) (pc : StartPc) (coherent : Coherent rest g.current) :
    (execStart args pc g).All CurrentInv rest := by
  cases pc <;> simp only [execStart] <;> (repeat' split) <;>
    simp [CurrentInv, coherent]

theorem execMain_current (pc : MainPc) : (execMain pc g).All CurrentInv rest := by
  cases pc <;> simp only [execMain] <;> (repeat' split) <;> simp [CurrentInv]

theorem execEnableAlt_current (p : Addr) (pc : EnablePc)
    (coherent : Coherent (.enableAlt p pc :: rest) g.current) :
    (execEnableAlt p pc g).All CurrentInv rest := by
  obtain ⟨current, below⟩ := coherent
  rw [current] at below
  cases pc <;> simp only [execEnableAlt] <;> (repeat' split) <;>
    simp [CurrentInv, current, below, coherent_returnTo below]

theorem execDisableAlt_current (p : Addr) (pc : DisablePc)
    (coherent : Coherent (.disableAlt p pc :: rest) g.current) :
    (execDisableAlt p pc g).All CurrentInv rest := by
  obtain ⟨current, below⟩ := coherent
  rw [current] at below
  cases pc <;> simp only [execDisableAlt] <;> (repeat' split) <;>
    simp [CurrentInv, current, below, coherent_returnTo below]

/-- The selection of a process: over an activation of `handle_signal` it must come to nothing. -/
theorem execSelect_current (base : Int) (pc : SelectPc)
    (quiet : preemptsNothing .run ⟨.select base pc :: rest, g, none⟩)
    (coherent : Coherent (.select base pc :: rest) g.current) :
    (execSelect base pc g).All CurrentInv rest := by
  cases pc with
  | top => simpa [execSelect, CurrentInv] using coherent
  | chosen highest =>
    obtain ⟨below, insensitive⟩ := coherent
    simp only [execSelect]
    split
    · exact coherent_returnTo below
    · rename_i above
      rcases insensitive with atop | insensitive
      · cases rest with
        | nil => exact atop.elim
        | cons caller under =>
          cases caller with
          | signal intr saved pc =>
            have idle : under.all (·.process.isNone) = true := by
              simpa [preemptsNothing, above] using quiet
            intro c
            change Coherent under c
            exact coherent_of_idle (by simpa using idle) c
          | _ => exact atop.elim
      · exact insensitive
  | taking => trivial
  | took r =>
    cases r with
    | none => trivial
    | some p => exact ⟨rfl, coherent⟩

theorem execSchedule_current (base : Int) (p : Addr) (pc : SchedulePc)
    (coherent : Coherent (.schedule base p pc :: rest) g.current) :
    (execSchedule base p pc g).All CurrentInv rest := by
  obtain ⟨current, below⟩ := coherent
  cases pc <;> simp only [execSchedule, callDisableAlt] <;> (repeat' split) <;>
    simp [CurrentInv, enterReady, current, below]

theorem execReady_current (q : Addr) (pc : ReadyPc)
    (coherent : Coherent (.ready q pc :: rest) g.current) :
    (execReady q pc g).All CurrentInv rest := by
  cases pc with
  | test =>
    have below : Coherent rest g.current := coherent
    simp only [execReady]
    split
    · exact coherent_returnTo below
    · exact below
  | appended =>
    have below : Coherent rest g.current := coherent
    simp only [execReady]
    split
    · trivial
    · rename_i c current
      rw [current] at below
      split
      · exact ⟨below, Or.inr fun _ => below⟩
      · rw [← current] at below
        exact coherent_returnTo below
  | scheduling prev => exact coherent_returnTo coherent

theorem execSignal_current (intr : Nat) (saved : SigSet) (pc : SignalPc)
    (coherent : Coherent rest g.current) : (execSignal intr saved pc g).All CurrentInv rest := by
  cases pc <;> simp only [execSignal, callScheduleAtCurrent, callSchedule] <;> (repeat' split) <;>
    simp_all [CurrentInv, interrupted]

theorem execTimeoutHandler_current (pc : TimeoutPc) (coherent : Coherent rest g.current) :
    (execTimeoutHandler pc g).All CurrentInv rest := by
  cases pc <;> simp only [execTimeoutHandler, readyOrFault] <;> (repeat' split) <;>
    simp [CurrentInv, enterReady, coherent]

theorem execUserHandler_current (intrsrc : Nat) (coherent : Coherent rest g.current) :
    (execUserHandler intrsrc g).All CurrentInv rest := by
  simp only [execUserHandler]
  repeat' split
  all_goals simp [CurrentInv, enterReady, coherent]

theorem userRtc_current (p : Addr) (op : Op) (coherent : Coherent (.rtc p :: rest) g.current) :
    (userRtc p op g).All CurrentInv rest := by
  obtain ⟨current, below⟩ := coherent
  rw [current] at below
  cases op <;> simp only [userRtc, current] <;> (repeat' split) <;>
    simp [CurrentInv, current, below]

theorem userMain_current (op : Op) : (userMain op g).All CurrentInv rest := by
  cases op <;> simp only [userMain, callSchedule] <;> (repeat' split) <;>
    simp [CurrentInv]

end Steps

/-- Every step under the condition keeps the invariant. -/
theorem currentInv_kept : Kept (fun label s => preemptsNothing label s) CurrentInv where
  run act rest g quiet coherent := by
    unfold CurrentInv at coherent
    cases act with
    | main pc => exact execMain_current pc
    | select base pc => exact execSelect_current base pc quiet coherent
    | schedule base p pc => exact execSchedule_current base p pc coherent
    | take pri pc => exact execTake_current pri pc coherent
    | append p pc => exact execAppend_current p pc coherent
    | start args pc => exact execStart_current args pc coherent
    | rtc p => trivial
    | enableAlt p pc => exact execEnableAlt_current p pc coherent
    | disableAlt p pc => exact execDisableAlt_current p pc coherent
    | ready q pc => exact execReady_current q pc coherent
    | signal intr saved pc => exact execSignal_current intr saved pc coherent
    | timeoutHandler pc => exact execTimeoutHandler_current pc coherent
    | userHandler intrsrc => exact execUserHandler_current intrsrc coherent
  user op act rest g _ coherent := by
    unfold execUser
    split
    · split
      · exact userRtc_current _ op coherent
      · trivial
    · exact userMain_current op
    · trivial
  interrupt intr stack g _ _ _ coherent := coherent
  clock t stack g _ coherent := coherent

/-- Control in the code of a process relies on that process being the current one. -/
theorem Coherent.current_of_codeOf {stack : List Act} {c : Option Addr} {p : Addr}
    (coherent : Coherent stack c) (executing : codeOf stack = some p) : c = some p := by
  induction stack with
  | nil => cases executing
  | cons act rest ih =>
    cases act with
    | rtc q => cases executing; exact coherent.1
    | enableAlt q pc => cases executing; exact coherent.1
    | disableAlt q pc => cases executing; exact coherent.1
    | append q pc => exact ih coherent executing
    | start args pc => exact ih coherent executing
    | _ => cases executing

/-- In code that belongs to a process, `current` is that process. -/
def CurrentIsExecuting (s : State) : Prop := ∀ p, codeOf s.stack = some p → s.g.current = some p

/-- `current` is the executing process in every run in which `handle_signal` never interrupts a
process and then runs another one. -/
theorem current_is_executing {first last : State} (booted : Booted first)
    (run : Run step (fun label s => preemptsNothing label s) first last) :
    CurrentIsExecuting last := by
  intro p executing
  have base : CurrentInv first.stack first.g := by
    cases booted
    trivial
  exact (currentInv_kept.invariant base run).current_of_codeOf executing

theorem current_is_executing_at_first_process :
    ∃ last, CurrentIsExecuting last ∧ codeOf last.stack = some 1024 := by
  obtain ⟨last, run, executing⟩ := exists_run_of_executeUnder (startThenTick.take 43)
    (fun s => codeOf s.stack == some 1024)
    (by decide +kernel : (executeUnder step preemptsNothing (startThenTick.take 43)
      (zeroBoot 1000)).any _ = true)
  exact ⟨last, current_is_executing (zeroBoot_booted 1000) run, by simpa using executing⟩

theorem current_not_always_executing :
    ¬ ∀ first last, Booted first → Run step Always first last → CurrentIsExecuting last := by
  intro always
  obtain ⟨last, run, wrong⟩ := exists_run_of_execute startThenTick
    (fun s => codeOf s.stack == some 1024 && s.g.current == some 1064)
    (by decide +kernel : (execute step startThenTick (zeroBoot 1000)).any _ = true)
  have holds := always _ last (zeroBoot_booted 1000) run
  simp only [Bool.and_eq_true, beq_iff_eq] at wrong
  have right := holds 1024 wrong.1
  rw [wrong.2] at right
  cases right

end Microcsp
