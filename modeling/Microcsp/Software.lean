import Microcsp.Steps

/-!
# Software interrupts

`send_software_interrupt` turns a user interrupt number into an interrupt source and that into a
signal for the program itself. Its check of the number is written as a chain of comparisons, which
C reads as a comparison of a truth value, so that it refuses nothing. `connect_interrupt_to_channel`
and `disconnect_interrupt_from_channel` check the same number with two comparisons. Signals are the
operating system's: what `kill` accepts is a parameter.
-/

open Library

namespace Microcsp

/-- `INT_MIN` and `INT_MAX` hold the number between them. -/
def FitsInt (n : Int) : Prop := -2 ^ 31 ≤ n ∧ n < 2 ^ 31

instance (n : Int) : Decidable (FitsInt n) := inferInstanceAs (Decidable (_ ∧ _))

/-- What the program uses of the operating system's signals. -/
structure Signals where
  /-- `SIGRTMIN`, the first real-time signal. -/
  sigrtmin : Int
  /-- `kill(getpid(), signo)` returns zero. -/
  kill : Int → Bool

/-- The signals of the simulated interrupts are there and may be sent. -/
def Signals.Provided (signals : Signals) : Prop :=
  ∀ intr < nintrSources, FitsInt (signals.sigrtmin + intr) ∧
    signals.kill (signals.sigrtmin + intr) = true

/-- What a call of `send_software_interrupt` comes to. -/
inductive Sent where
  /-- The program sent itself the signal. -/
  | raised (signo : Int)
  /-- `error` was called. -/
  | error (why : String)
  /-- The signal number is no `int`. -/
  | fault
  deriving DecidableEq, Repr

/-- `send_user_interrupt` -/
def sendUserInterrupt (signals : Signals) (intrsrc : Int) : Sent :=
  let signo := signals.sigrtmin + intrsrc
  if ¬FitsInt signo then .fault
  else if signals.kill signo then .raised signo
  else .error "send_software_interrupt kill"

/-- `INTR_USER0 <= intrsrc < NINTR_SOURCES`: the value of the first comparison is compared. -/
def chained (intrsrc : Int) : Bool :=
  let first : Nat := if intrUser0 ≤ intrsrc then 1 else 0
  decide (first < nintrSources)

/-- `send_software_interrupt` -/
def sendSoftwareInterrupt (signals : Signals) (intrno : Int) : Sent :=
  let intrsrc := intrno + intrUser0
  if ¬chained intrsrc then .error "Invalid user interrupt number"
  else sendUserInterrupt signals intrsrc

/-- A call stops with an error. -/
def Refused (r : Result) : Prop := ∃ why, r = .stop (.error why)

/-- Both other validators refuse the number. -/
def RefusedElsewhere (g : Globals) (intrno : Int) : Prop :=
  (∀ p x, Refused (userRtc p (.connect x intrno) g)) ∧
    (∀ x, Refused (userMain (.connect x intrno) g)) ∧ ∀ p, Refused (userRtc p (.disconnect intrno) g)

/-- Both other validators accept the number. -/
def AcceptedElsewhere (g : Globals) (intrno : Int) : Prop :=
  (∀ p x, ¬Refused (userRtc p (.connect x intrno) g)) ∧
    (∀ x, ¬Refused (userMain (.connect x intrno) g)) ∧
    ∀ p, ¬Refused (userRtc p (.disconnect intrno) g)

/-- Whenever the signal is delivered from now on, `handle_signal` calls `user_interrupt_handler`,
whose index into `channel_for_interrupt` is valid, and neither handler of `timer.c`. -/
def RunsUserHandler (signals : Signals) (now : State) (signo : Int) : Prop :=
  ∃ intr : Nat, signo = signals.sigrtmin + intr ∧ intrUser0 ≤ intr ∧
    intr - intrUser0 < nintrSources - intrUser0 ∧
    ∀ later, Run step Always now later → ∀ saved, ∃ previously g,
      exec (.signal intr saved .enter) later.g =
        .call (.signal intr saved (.handled previously)) (.userHandler intr) g ∧
      g.timer = later.g.timer

/-- What the call is for: it stops with an error where the other validators do, and otherwise
raises an interrupt that runs `user_interrupt_handler`. -/
def SendsUserInterrupt (signals : Signals) (now : State) (intrno : Int) : Prop :=
  match sendSoftwareInterrupt signals intrno with
  | .raised signo => AcceptedElsewhere now.g intrno ∧ RunsUserHandler signals now signo
  | .error _ => RefusedElsewhere now.g intrno
  | .fault => False

/-- Application code is executing: `main` before `run`, or a process. -/
def Calling : List Act → Prop
  | .main .user :: _ => True
  | .rtc _ :: _ => True
  | _ => False

/-- `main` is application code between `initialize` and `run`. -/
theorem calling_of_main {stack : List Act}
    (top : stack.head?.any (· matches .main .user) = true) : Calling stack := by
  cases stack with
  | nil => cases top
  | cons act rest =>
    simp only [List.head?_cons, Option.any_some] at top
    split at top
    · trivial
    · cases top

/-! ## The validators -/

/-- The chain of comparisons is true of every number. -/
theorem chained_eq_true (intrsrc : Int) : chained intrsrc = true := by
  unfold chained
  split <;> decide

/-- So the first check of `send_software_interrupt` refuses nothing. -/
theorem sendSoftwareInterrupt_eq (signals : Signals) (intrno : Int) :
    sendSoftwareInterrupt signals intrno = sendUserInterrupt signals (intrno + intrUser0) := by
  simp only [sendSoftwareInterrupt, chained_eq_true, not_true_eq_false, if_false]

/-- A number of a user interrupt is accepted elsewhere, every other one refused. -/
theorem elsewhere (g : Globals) (intrno : Int) :
    (AcceptedElsewhere g intrno ↔ isUserInterrupt intrno = true) ∧
      (RefusedElsewhere g intrno ↔ isUserInterrupt intrno = false) := by
  cases valid : isUserInterrupt intrno with
  | true =>
    have accepted : AcceptedElsewhere g intrno := by
      simp [AcceptedElsewhere, Refused, userRtc, userMain, valid]
    refine ⟨iff_of_true accepted rfl, iff_of_false (fun refused => ?_) (by simp)⟩
    exact accepted.2.1 0 (refused.2.1 0)
  | false =>
    have refused : RefusedElsewhere g intrno := by
      simp [RefusedElsewhere, Refused, userRtc, userMain, valid]
    refine ⟨iff_of_false (fun accepted => ?_) (by simp), iff_of_true refused rfl⟩
    exact accepted.2.1 0 (refused.2.1 0)

/-- A number of a user interrupt is that of a source from `INTR_USER0` on. -/
theorem source_of_isUserInterrupt {intrno : Int} (valid : isUserInterrupt intrno = true) :
    ∃ intr : Nat, intrno + intrUser0 = intr ∧ intrUser0 ≤ intr ∧ intr < nintrSources := by
  have bounds : (intrUser0 : Int) ≤ intrno + intrUser0 ∧ intrno + intrUser0 < nintrSources :=
    of_decide_eq_true valid
  refine ⟨(intrno + intrUser0).toNat, ?_, ?_, ?_⟩ <;> omega

/-! ## The handlers -/

/-- The user interrupt sources have their handler. -/
def HandlersSet (g : Globals) : Prop :=
  ∀ intr, intrUser0 ≤ intr → intr < nintrSources → g.interruptHandler intr = some .user

/-- Every outcome leaves the handlers of the user interrupts as they are. -/
def KeepsHandlers (g : Globals) (r : Result) : Prop :=
  r.All (fun _ g' => ∀ intr, intrUser0 ≤ intr → intr < nintrSources →
    g.interruptHandler intr = some .user → g'.interruptHandler intr = some .user) []

/-- No step takes the handler of a user interrupt away. -/
theorem exec_keepsHandlers (act : Act) (g : Globals) : KeepsHandlers g (exec act g) := by
  unfold KeepsHandlers
  cases act with
  | main pc =>
    cases pc with
    | schedInit =>
      intro intr low high _
      exact if_pos ⟨low, high⟩
    | timerInit =>
      intro intr low _ set
      have second : intr ≠ 1 := by
        rintro rfl
        exact absurd low (by decide)
      have first : intr ≠ 0 := by
        rintro rfl
        exact absurd low (by decide)
      simpa only [Function.update_of_ne second, Function.update_of_ne first] using set
    | memoryInit arena memlen =>
      cases arena with
      | none => trivial
      | some arena => exact fun _ _ _ set => set
    | _ =>
      simp only [exec, execMain]
      (repeat' split) <;> simp
  | select base pc => cases pc <;> simp only [exec, execSelect] <;> (repeat' split) <;> simp
  | schedule base p pc =>
    cases pc <;> simp only [exec, execSchedule, callDisableAlt, enterReady] <;> (repeat' split) <;>
      simp
  | take pri pc => cases pc <;> simp only [exec, execTake] <;> (repeat' split) <;> simp
  | append p pc => cases pc <;> simp only [exec, execAppend] <;> (repeat' split) <;> simp
  | start args pc => cases pc <;> simp only [exec, execStart] <;> (repeat' split) <;> simp
  | rtc p => trivial
  | enableAlt p pc => cases pc <;> simp only [exec, execEnableAlt] <;> (repeat' split) <;> simp
  | disableAlt p pc => cases pc <;> simp only [exec, execDisableAlt] <;> (repeat' split) <;> simp
  | ready q pc => cases pc <;> simp only [exec, execReady, callSchedule] <;> (repeat' split) <;> simp
  | signal intr saved pc =>
    cases pc <;> simp only [exec, execSignal, callScheduleAtCurrent, callSchedule] <;>
      (repeat' split) <;> simp
  | timeoutHandler pc =>
    cases pc <;> simp only [exec, execTimeoutHandler, readyOrFault, enterReady] <;>
      (repeat' split) <;> simp
  | userHandler intrsrc =>
    simp only [exec, execUserHandler, enterReady]
    (repeat' split) <;> simp

/-- Nor does any call of application code. -/
theorem execUser_keepsHandlers (op : Op) (act : Act) (g : Globals) :
    KeepsHandlers g (execUser op act g) := by
  unfold KeepsHandlers execUser
  split
  · split
    · cases op <;> simp only [userRtc] <;> (repeat' split) <;> simp
    · trivial
  · cases op <;> simp only [userMain, callSchedule] <;> (repeat' split) <;> simp
  · trivial

/-- A step that keeps the handlers of the user interrupts keeps all of them. -/
theorem KeepsHandlers.set {g : Globals} {r : Result} (keeps : KeepsHandlers g r)
    (set : HandlersSet g) (rest : List Act) : r.All (fun _ g => HandlersSet g) rest := by
  cases r with
  | next act g' => exact fun intr low high => keeps intr low high (set intr low high)
  | call act callee g' => exact fun intr low high => keeps intr low high (set intr low high)
  | ret v g' => exact fun intr low high => keeps intr low high (set intr low high)
  | stop why => trivial
  | stuck => trivial

/-- Once set, the handlers of the user interrupts stay. -/
theorem handlersSet_kept : Kept Always (fun _ g => HandlersSet g) where
  run act rest g _ set := (exec_keepsHandlers act g).set set rest
  user op act rest g _ set := (execUser_keepsHandlers op act g).set set rest
  interrupt _ _ _ _ _ _ set := set
  clock _ _ _ _ set := set

/-- `sched_init` is about to set them, with all signals blocked. -/
def Unset (stack : List Act) (g : Globals) : Prop :=
  stack = [.main .schedInit] ∧ ∀ i, g.blocked i = true

/-- They are set once `sched_init` has run. -/
theorem unset_or_handlersSet_kept : Kept Always (fun stack g => Unset stack g ∨ HandlersSet g) where
  run := by
    rintro act rest g - (⟨same, -⟩ | set)
    · obtain ⟨rfl, rfl⟩ := List.cons.inj same
      exact Or.inr fun intr low high => if_pos ⟨low, high⟩
    · exact ((exec_keepsHandlers act g).set set rest).imp fun _ _ set => Or.inr set
  user := by
    rintro op act rest g - (⟨same, -⟩ | set)
    · obtain ⟨rfl, rfl⟩ := List.cons.inj same
      trivial
    · exact ((execUser_keepsHandlers op act g).set set rest).imp fun _ _ set => Or.inr set
  interrupt := by
    rintro intr stack g - - unblocked (⟨-, blocked⟩ | set)
    · rw [blocked intr] at unblocked
      cases unblocked
    · exact Or.inr set
  clock := by
    rintro t stack g - (unset | set)
    · exact Or.inl unset
    · exact Or.inr set

/-- Application code finds them set. -/
theorem handlersSet_of_calling {first last : State} (booted : Booted first)
    (run : Run step Always first last) (calling : Calling last.stack) : HandlersSet last.g := by
  have reached := unset_or_handlersSet_kept.from_boot
    (fun arena memlen g pristine => Or.inl ⟨rfl, pristine.blocked⟩) booted run
  rcases reached with ⟨arena, memlen, same, -⟩ | ⟨same, -⟩ | set
  · rw [same] at calling
    cases calling
  · rw [same] at calling
    cases calling
  · exact set

/-- The signal of a user interrupt source runs `user_interrupt_handler` whenever it is delivered. -/
theorem runsUserHandler {signals : Signals} {now : State} (set : HandlersSet now.g) {intr : Nat}
    (low : intrUser0 ≤ intr) (high : intr < nintrSources) :
    RunsUserHandler signals now (signals.sigrtmin + intr) := by
  refine ⟨intr, rfl, low, Nat.sub_lt_sub_right low high, fun later run saved => ?_⟩
  have still : HandlersSet later.g := handlersSet_kept.invariant set run
  have handler := still intr low high
  simp only [exec, execSignal, handler]
  exact ⟨_, _, rfl, rfl⟩

/-! ## The result -/

/-- `kill` refuses the signal that the number comes to. -/
def Signals.Refuses (signals : Signals) (intrno : Int) : Prop :=
  let signo := signals.sigrtmin + (intrno + intrUser0)
  FitsInt signo ∧ signals.kill signo = false

/-- Wherever application code calls `send_software_interrupt`, it does what it is for exactly where
the number is that of a user interrupt or `kill` refuses the signal. -/
theorem software_interrupt_iff {signals : Signals} (provided : signals.Provided)
    {first last : State} (booted : Booted first) (run : Run step Always first last)
    (calling : Calling last.stack) (intrno : Int) :
    SendsUserInterrupt signals last intrno ↔
      isUserInterrupt intrno = true ∨ signals.Refuses intrno := by
  have set := handlersSet_of_calling booted run calling
  obtain ⟨accepted, refused⟩ := elsewhere last.g intrno
  unfold SendsUserInterrupt
  rw [sendSoftwareInterrupt_eq]
  cases valid : isUserInterrupt intrno with
  | true =>
    obtain ⟨intr, source, low, high⟩ := source_of_isUserInterrupt valid
    obtain ⟨fits, accepts⟩ := provided intr high
    have raised : sendUserInterrupt signals intr = .raised (signals.sigrtmin + intr) := by
      simp only [sendUserInterrupt, fits, accepts, not_true_eq_false, if_false, if_true]
    rw [source, raised]
    exact iff_of_true ⟨accepted.mpr valid, runsUserHandler set low high⟩ (Or.inl rfl)
  | false =>
    have never : ¬AcceptedElsewhere last.g intrno := by
      rw [accepted, valid]
      decide
    simp only [sendUserInterrupt, Signals.Refuses, Bool.false_eq_true, false_or]
    by_cases fits : FitsInt (signals.sigrtmin + (intrno + intrUser0))
    · rw [if_neg (not_not_intro fits)]
      cases killed : signals.kill (signals.sigrtmin + (intrno + intrUser0)) with
      | true => exact iff_of_false (fun sends => never sends.1) (by simp)
      | false => exact iff_of_true (refused.mpr valid) ⟨fits, rfl⟩
    · rw [if_pos fits]
      exact iff_of_false id fun both => fits both.1

/-- The signals of an operating system where `SIGRTMIN` is 34 and there are 64 signals. -/
def linuxSignals : Signals := ⟨34, fun signo => decide (0 ≤ signo ∧ signo ≤ 64)⟩

theorem linuxSignals_provided : linuxSignals.Provided := by
  unfold Signals.Provided
  decide

/-- A number of a user interrupt, and one whose signal does not exist, sent by `main`. -/
theorem software_interrupt_iff_in_main : ∃ last : State,
    (SendsUserInterrupt linuxSignals last 2 ↔
      isUserInterrupt 2 = true ∨ linuxSignals.Refuses 2) ∧
    (SendsUserInterrupt linuxSignals last 100 ↔
      isUserInterrupt 100 = true ∨ linuxSignals.Refuses 100) ∧
    isUserInterrupt 2 = true ∧ linuxSignals.Refuses 100 := by
  obtain ⟨last, run, checked⟩ := exists_run_of_execute (runs 11)
    (fun s : State => s.stack.head?.any (· matches .main .user))
    (by decide +kernel : (execute step (runs 11) (zeroBoot 32768)).any _ = true)
  have calling := calling_of_main checked
  exact ⟨last,
    software_interrupt_iff linuxSignals_provided (zeroBoot_booted 32768) run calling 2,
    software_interrupt_iff linuxSignals_provided (zeroBoot_booted 32768) run calling 100,
    by decide, by unfold Signals.Refuses; decide⟩

/-- The numbers -3 and -2 raise the elapsed-time and the timeout interrupt. -/
theorem software_interrupt_forged : ∃ last : State, Run step Always (zeroBoot 32768) last ∧
    Calling last.stack ∧ ¬SendsUserInterrupt linuxSignals last (-3) ∧
    ¬SendsUserInterrupt linuxSignals last (-2) ∧
    sendSoftwareInterrupt linuxSignals (-3) = .raised (linuxSignals.sigrtmin + 0) ∧
    last.g.interruptHandler 0 = some .elapsed ∧
    sendSoftwareInterrupt linuxSignals (-2) = .raised (linuxSignals.sigrtmin + 1) ∧
    last.g.interruptHandler 1 = some .timeout := by
  obtain ⟨last, run, checked⟩ := exists_run_of_execute (runs 11)
    (fun s : State => s.stack.head?.any (· matches .main .user) &&
      s.g.interruptHandler 0 == some .elapsed && s.g.interruptHandler 1 == some .timeout)
    (by decide +kernel : (execute step (runs 11) (zeroBoot 32768)).any _ = true)
  simp only [Bool.and_eq_true, beq_iff_eq] at checked
  obtain ⟨⟨top, elapsed⟩, timeout⟩ := checked
  have calling := calling_of_main top
  have forged : ∀ intrno, isUserInterrupt intrno = false →
      (∃ signo, sendSoftwareInterrupt linuxSignals intrno = .raised signo) →
      ¬SendsUserInterrupt linuxSignals last intrno := by
    rintro intrno invalid ⟨signo, raised⟩ sends
    unfold SendsUserInterrupt at sends
    rw [raised] at sends
    have valid := (elsewhere last.g intrno).1.mp sends.1
    rw [invalid] at valid
    cases valid
  exact ⟨last, run, calling, forged (-3) (by decide) ⟨34, by decide⟩,
    forged (-2) (by decide) ⟨35, by decide⟩, by decide, elapsed, by decide, timeout⟩

end Microcsp
