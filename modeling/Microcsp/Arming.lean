import Microcsp.Library.Transition
import Microcsp.TimerQueue

/-!
# The timeout timer

The timeout queue together with the one-shot timer that serves it: any sequence of calls of
`enable_timeout`, `disable_timeout` and `handle_timeout_interrupt`, the last of which can be
entered again while it makes a process ready. The timer keeps serving the head of the queue as long
as `insertInQueue` reads the clock before the new head is due. Where it reads it later, the interval
it computes is zero, which disarms the timer, or wraps.
-/

open Library

namespace Microcsp

/-- `timer.c` with the pending interrupt of its timer and the calls of its handler in progress. -/
structure Arming where
  /-- The queue and the timer. -/
  timer : TimerState
  /-- The shot whose interrupt is pending. -/
  pending : Option Shot
  /-- What each call of `handle_timeout_interrupt` in progress read as the time, innermost first. -/
  handlers : List Time
  /-- The latest reading of `Now()`. -/
  now : Time

/-- What can happen to the timer module. -/
inductive TimerOp where
  /-- Time passes. -/
  | clock (t : Time)
  /-- `init_timeout_guard` sets a `Timeout` that is not queued. -/
  | init (timeout : TimeoutId) (value : Timeout)
  /-- `enable_timeout`, with the reading of `Now()` after an insertion. -/
  | enable (timeout : TimeoutId) (second : Time)
  /-- `disable_timeout` -/
  | disable (timeout : TimeoutId)
  /-- The armed timer expires. -/
  | expire
  /-- `handle_timeout_interrupt` is called. -/
  | interrupt
  /-- The innermost call of it removes a due entry, or sets the timer and returns. -/
  | handle

/-- The loop of `handle_timeout_interrupt`: one entry, or the end. -/
def Arming.handle (s : Arming) (now : Time) (outer : List Time) : Arming :=
  match s.timer.queue with
  | head :: _ =>
    if s.timer.due head now then { s with timer := s.timer.removeHead }
    else { s with timer := s.timer.restart now, handlers := outer }
  | [] => { s with timer := s.timer.restart now, handlers := outer }

/-- One call or event. Readings of the clock never go back. -/
def timerStep (op : TimerOp) (s : Arming) : Option Arming :=
  match op with
  | .clock t => if s.now ≤ t then some { s with now := t } else none
  | .init timeout value =>
    if timeout ∈ s.timer.queue then none
    else some { s with
      timer := { s.timer with timeout := Function.update s.timer.timeout timeout value } }
  | .enable timeout second =>
    if timeout ∉ s.timer.queue ∧ s.now ≤ second then
      some { s with timer := (s.timer.enableTimeout timeout s.now second).2, now := second }
    else none
  | .disable timeout => some { s with timer := (s.timer.disableTimeout timeout s.now).2 }
  | .expire =>
    match s.timer.timer with
    | some shot =>
      if shot.expiry ≤ s.now.toNat then
        some { s with timer := { s.timer with timer := none }, pending := some shot }
      else none
    | none => none
  | .interrupt =>
    match s.pending with
    | some _ => some { s with pending := none, handlers := s.now :: s.handlers }
    | none => none
  | .handle =>
    match s.handlers with
    | now :: outer => some (s.handle now outer)
    | [] => none

/-- The module after `timer_init`: nothing is queued or armed. -/
def Arming.initial (timeout : TimeoutId → Timeout) (now : Time) : Arming :=
  ⟨⟨timeout, [], none⟩, none, [], now⟩

/-- The shot comes in time for an entry, or at once if the entry was due when it was programmed. -/
def Shot.serves (shot : Shot) (time : Time) : Prop :=
  shot.expiry ≤ time.toNat ∨ time ≤ shot.base ∧ shot.expiry ≤ shot.base.toNat + 1

/-- While no call of the handler is in progress, the head of the queue is served by the armed timer
or by the pending interrupt. -/
def NoneLost (s : Arming) : Prop :=
  s.handlers = [] → ∀ head, s.timer.queue.head? = some head →
    ∃ shot, (s.timer.timer = some shot ∨ s.pending = some shot) ∧ shot.serves (s.timer.time head)

/-- `insertInQueue` puts the timeout at the head. -/
def TimerState.headInserts (s : TimerState) (timeout : TimeoutId) : Bool :=
  s.queue.head?.all fun head => decide (s.time timeout < s.time head)

/-- When a timeout that is not due becomes the head of the queue, the clock is read again before it
is due. -/
def readInTime (op : TimerOp) (s : Arming) : Bool :=
  match op with
  | .enable timeout second =>
    s.timer.due timeout s.now || !s.timer.headInserts timeout ||
      decide (second < s.timer.time timeout)
  | _ => true

/-! ## The queue -/

namespace TimerState

@[simp] theorem removeFromQueue_timer (s : TimerState) (time : Time) (proc : Option Addr) :
    (s.removeFromQueue time proc).2.timer = s.timer := by
  simp only [removeFromQueue]
  split
  · rfl
  · split <;> rfl

/-- An insertion behind another entry leaves the timer alone. -/
theorem insertInQueue_behind {s : TimerState} {t : TimeoutId} (now : Time)
    (behind : s.headInserts t = false) :
    (s.insertInQueue t now).timer = s.timer ∧ ∃ u ∈ s.queue, s.time u ≤ s.time t := by
  cases queue : s.queue with
  | nil => simp [headInserts, queue] at behind
  | cons head rest =>
    have passed : s.time head ≤ s.time t := by simpa [headInserts, queue] using behind
    refine ⟨?_, head, List.mem_cons_self, passed⟩
    simp [insertInQueue, queue, passed]

/-- An insertion at the head sets the timer for it. -/
theorem insertInQueue_head {s : TimerState} {t : TimeoutId} (now : Time)
    (first : s.headInserts t = true) :
    (s.insertInQueue t now).queue = t :: s.queue ∧
      (s.insertInQueue t now).timer = (s.setTimerSingle now (s.time t - now)).timer := by
  cases queue : s.queue with
  | nil =>
    simp only [insertInQueue, queue, List.takeWhile_nil, List.dropWhile_nil]
    exact ⟨rfl, rfl⟩
  | cons head rest =>
    have above : ¬ s.time head ≤ s.time t := by simpa [headInserts, queue] using first
    simp only [insertInQueue, queue, List.takeWhile_cons, List.dropWhile_cons, above, decide_false,
      Bool.false_eq_true, if_false]
    exact ⟨rfl, rfl⟩

/-- A timer set before an entry is due expires at the time of the entry. -/
theorem setTimerSingle_before (s : TimerState) {now time : Time} (before : now < time) :
    ∃ shot, (s.setTimerSingle now (time - now)).timer = some shot ∧ shot.expiry = time.toNat := by
  have earlier : now.toNat < time.toNat := UInt64.lt_iff_toNat_lt.mp before
  have difference : (time - now).toNat = time.toNat - now.toNat :=
    UInt64.toNat_sub_of_le _ _ (UInt64.le_of_lt before)
  have positive : time - now > 0 := by
    rw [gt_iff_lt, UInt64.lt_iff_toNat_lt, difference]
    change 0 < _
    omega
  have nonzero : time - now ≠ 0 := (UInt64.ne_of_lt positive).symm
  refine ⟨⟨now, time - now⟩, by simp [setTimerSingle, positive, nonzero], ?_⟩
  simp only [Shot.expiry, difference]
  omega

end TimerState

/-! ## Runs -/

/-- The timer never expires after an entry of the queue, and outside the handler either it or the
pending interrupt serves them all. -/
structure ArmingInv (s : Arming) : Prop where
  /-- The queue is ordered. -/
  ordered : s.timer.Ordered
  /-- The armed timer serves every entry. -/
  armed : ∀ shot, s.timer.timer = some shot →
    ∀ t ∈ s.timer.queue, shot.expiry ≤ (s.timer.time t).toNat
  /-- A timer that is not armed has an interrupt pending. -/
  served : s.handlers = [] → s.timer.queue ≠ [] → s.timer.timer = none →
    ∃ shot, s.pending = some shot ∧ ∀ t ∈ s.timer.queue, shot.expiry ≤ (s.timer.time t).toNat

namespace ArmingInv

variable {s : Arming}

/-- A `Timeout` that is not queued is set. -/
theorem init (inv : ArmingInv s) (t : TimeoutId) (value : Timeout) (absent : t ∉ s.timer.queue) :
    ArmingInv { s with
      timer := { s.timer with timeout := Function.update s.timer.timeout t value } } := by
  have same : ∀ u ∈ s.timer.queue,
      (Function.update s.timer.timeout t value u).time = s.timer.time u := by
    intro u mem
    have other : u ≠ t := fun is => absent (is ▸ mem)
    rw [Function.update_of_ne other]
    rfl
  refine ⟨?_, fun shot set u mem => ?_, fun idle nonempty disarmed => ?_⟩
  · refine List.Pairwise.imp_of_mem (fun {a b} left right ordered => ?_) inv.ordered
    simpa only [TimerState.time, same a left, same b right] using ordered
  · simpa only [TimerState.time, same u mem] using inv.armed shot set u mem
  · obtain ⟨shot, pending, serves⟩ := inv.served idle nonempty disarmed
    refine ⟨shot, pending, fun u mem => ?_⟩
    simpa only [TimerState.time, same u mem] using serves u mem

/-- Entries are removed. -/
theorem sublist {queue : List TimeoutId} (inv : ArmingInv s)
    (fewer : queue.Sublist s.timer.queue) :
    ArmingInv { s with timer := { s.timer with queue := queue } } where
  ordered := inv.ordered.sublist fewer
  armed shot set t mem := inv.armed shot set t (fewer.subset mem)
  served idle nonempty disarmed := by
    have before : s.timer.queue ≠ [] := fun empty => nonempty (by simpa [empty] using fewer)
    obtain ⟨shot, pending, serves⟩ := inv.served idle before disarmed
    exact ⟨shot, pending, fun t mem => serves t (fewer.subset mem)⟩

/-- A timeout is disabled. -/
theorem disable (inv : ArmingInv s) (t : TimeoutId) :
    ArmingInv { s with timer := (s.timer.disableTimeout t s.now).2 } := by
  have fewer := s.timer.removeFromQueue_sublist (s.timer.time t) (s.timer.timeout t).proc
  have removed : (s.timer.disableTimeout t s.now).2 =
      { s.timer with queue := (s.timer.disableTimeout t s.now).2.queue } := by
    simp only [TimerState.disableTimeout, TimerState.removeFromQueue]
    split
    · rfl
    · split <;> rfl
  rw [removed]
  exact inv.sublist fewer

/-- A timeout is inserted, and the clock is read again before it is due. -/
theorem insert (inv : ArmingInv s) (t : TimeoutId) (second : Time)
    (inTime : s.timer.headInserts t = true → second < s.timer.time t) :
    ArmingInv { s with timer := s.timer.insertInQueue t second, now := second } := by
  have ordered := inv.ordered.insertInQueue t second
  cases first : s.timer.headInserts t with
  | true =>
    obtain ⟨queue, timer⟩ := s.timer.insertInQueue_head second first
    obtain ⟨shot, set, expires⟩ := s.timer.setTimerSingle_before (inTime first)
    rw [set] at timer
    refine ⟨ordered, ?_, ?_⟩
    · intro armed is u mem
      obtain rfl : shot = armed := Option.some.inj (timer.symm.trans is)
      simp only [TimerState.Ordered, queue, TimerState.insertInQueue_time] at ordered
      simp only [queue, TimerState.insertInQueue_time] at mem ⊢
      rw [expires]
      rcases List.mem_cons.mp mem with rfl | later
      · exact Nat.le_refl _
      · exact UInt64.le_iff_toNat_le.mp ((List.pairwise_cons.mp ordered).1 u later)
    · intro idle nonempty disarmed
      rw [timer] at disarmed
      cases disarmed
  | false =>
    obtain ⟨timer, u, queued, notLater⟩ := s.timer.insertInQueue_behind second first
    -- the new entry is served because an earlier one is
    have all : ∀ shot : Shot, (∀ v ∈ s.timer.queue, shot.expiry ≤ (s.timer.time v).toNat) →
        ∀ v ∈ (s.timer.insertInQueue t second).queue,
          shot.expiry ≤ ((s.timer.insertInQueue t second).time v).toNat := by
      intro shot serves v mem
      rw [TimerState.insertInQueue_time]
      rw [TimerState.insertInQueue_queue] at mem
      rcases List.mem_append.mp mem with before | after
      · exact serves v (List.takeWhile_subset _ before)
      · rcases List.mem_cons.mp after with rfl | later
        · exact Nat.le_trans (serves u queued) (UInt64.le_iff_toNat_le.mp notLater)
        · exact serves v (List.dropWhile_subset _ later)
    refine ⟨ordered, fun shot is => all shot (inv.armed shot (timer ▸ is)), ?_⟩
    intro idle _ disarmed
    have nonempty : s.timer.queue ≠ [] := List.ne_nil_of_mem queued
    obtain ⟨shot, pending, serves⟩ := inv.served idle nonempty (timer ▸ disarmed)
    exact ⟨shot, pending, all shot serves⟩

/-- The end of the handler sets the timer for the head of the queue. -/
theorem restart (inv : ArmingInv s) (now : Time) (outer : List Time)
    (notDue : ∀ head ∈ s.timer.queue.head?, s.timer.due head now = false) :
    ArmingInv { s with timer := s.timer.restart now, handlers := outer } := by
  cases queue : s.timer.queue with
  | nil =>
    have same : s.timer.restart now = s.timer := by simp [TimerState.restart, queue]
    rw [same]
    exact ⟨inv.ordered, inv.armed, fun _ nonempty => absurd queue nonempty⟩
  | cons head rest =>
    have before : now < s.timer.time head := by
      simpa [TimerState.due, queue] using notDue head (by simp [queue])
    have restarted : s.timer.restart now =
        s.timer.setTimerSingle now (s.timer.time head - now) := by simp [TimerState.restart, queue]
    obtain ⟨shot, set, expires⟩ := s.timer.setTimerSingle_before before
    have ordered := inv.ordered
    rw [restarted]
    refine ⟨ordered, ?_, ?_⟩
    · intro armed is t mem
      obtain rfl : shot = armed := Option.some.inj (set.symm.trans is)
      rw [TimerState.Ordered, queue] at ordered
      change t ∈ s.timer.queue at mem
      change _ ≤ (s.timer.time t).toNat
      rw [queue] at mem
      rw [expires]
      rcases List.mem_cons.mp mem with rfl | later
      · exact Nat.le_refl _
      · exact UInt64.le_iff_toNat_le.mp ((List.pairwise_cons.mp ordered).1 t later)
    · intro idle nonempty disarmed
      change (s.timer.setTimerSingle now (s.timer.time head - now)).timer = none at disarmed
      rw [set] at disarmed
      cases disarmed

/-- The handler removes an entry or comes to its end. -/
theorem handle (inv : ArmingInv s) (now : Time) (outer : List Time) :
    ArmingInv (s.handle now outer) := by
  simp only [Arming.handle]
  split
  · rename_i head rest queue
    split
    · have fewer : s.timer.queue.tail.Sublist s.timer.queue := List.tail_sublist _
      exact inv.sublist fewer
    · rename_i notDue
      refine inv.restart now outer fun first is => ?_
      obtain rfl : head = first := by simpa [queue] using is
      simpa using notDue
  · rename_i queue
    exact inv.restart now outer (by simp [queue])

end ArmingInv

/-- Every call and event under the condition keeps the invariant. -/
theorem armingInv_step {op : TimerOp} {before after : Arming} (inv : ArmingInv before)
    (inTime : readInTime op before = true) (stepped : timerStep op before = some after) :
    ArmingInv after := by
  cases op with
  | clock t =>
    simp only [timerStep] at stepped
    split at stepped
    · obtain rfl := Option.some.inj stepped
      exact ⟨inv.ordered, inv.armed, inv.served⟩
    · cases stepped
  | init t value =>
    simp only [timerStep] at stepped
    split at stepped
    · cases stepped
    · rename_i absent
      obtain rfl := Option.some.inj stepped
      exact inv.init t value absent
  | enable t second =>
    simp only [timerStep] at stepped
    split at stepped
    · obtain rfl := Option.some.inj stepped
      simp only [TimerState.enableTimeout]
      split
      · exact ⟨inv.ordered, inv.armed, inv.served⟩
      · rename_i notDue
        refine inv.insert t second fun first => ?_
        simpa [readInTime, notDue, first] using inTime
    · cases stepped
  | disable t =>
    obtain rfl := Option.some.inj stepped
    exact inv.disable t
  | expire =>
    simp only [timerStep] at stepped
    split at stepped
    · rename_i shot set
      split at stepped
      · obtain rfl := Option.some.inj stepped
        refine ⟨inv.ordered, fun _ armed => ?_, fun _ _ _ => ⟨shot, rfl, inv.armed shot set⟩⟩
        cases armed
      · cases stepped
    · cases stepped
  | interrupt =>
    simp only [timerStep] at stepped
    split at stepped
    · obtain rfl := Option.some.inj stepped
      exact ⟨inv.ordered, inv.armed, fun idle => by cases idle⟩
    · cases stepped
  | handle =>
    simp only [timerStep] at stepped
    split at stepped
    · rename_i now outer progress
      obtain rfl := Option.some.inj stepped
      exact inv.handle now outer
    · cases stepped

/-- No armed timeout is lost in a run in which every timeout that becomes the head of the queue is
still in the future when `insertInQueue` reads the clock. -/
theorem none_lost {timeout : TimeoutId → Timeout} {now : Time} {last : Arming}
    (run : Run timerStep (fun op s => readInTime op s) (Arming.initial timeout now) last) :
    NoneLost last := by
  have base : ArmingInv (Arming.initial timeout now) :=
    ⟨List.Pairwise.nil, fun _ armed => (nomatch armed), fun _ nonempty => absurd rfl nonempty⟩
  have inv : ArmingInv last := Run.invariant ArmingInv base
    (fun _ _ _ held inTime stepped => armingInv_step held inTime stepped) run
  intro idle head first
  have queued : head ∈ last.timer.queue := List.mem_of_mem_head? first
  cases armed : last.timer.timer with
  | some shot => exact ⟨shot, Or.inl rfl, Or.inl (inv.armed shot armed head queued)⟩
  | none =>
    obtain ⟨shot, pending, serves⟩ := inv.served idle (List.ne_nil_of_mem queued) armed
    exact ⟨shot, Or.inr pending, Or.inl (serves head queued)⟩

/-- The condition is needed: where the clock is read too late, with no call of the handler in
progress and no interrupt pending, the timeout is lost. -/
theorem lost_of_late {s after : Arming} {t : TimeoutId} {second : Time}
    (idle : s.handlers = []) (quiet : s.pending = none)
    (late : readInTime (.enable t second) s = false)
    (stepped : timerStep (.enable t second) s = some after) : ¬ NoneLost after := by
  simp only [readInTime, Bool.or_eq_false_iff, Bool.not_eq_false', decide_eq_false_iff_not] at late
  obtain ⟨⟨notDue, first⟩, notBefore⟩ := late
  obtain ⟨queue, timer⟩ := s.timer.insertInQueue_head second first
  have reached : second.toNat ≥ (s.timer.time t).toNat :=
    UInt64.le_iff_toNat_le.mp (UInt64.not_lt.mp notBefore)
  have early : s.now.toNat < (s.timer.time t).toNat := by
    simpa [TimerState.due, UInt64.lt_iff_toNat_lt] using notDue
  simp only [timerStep] at stepped
  split at stepped
  · obtain rfl := Option.some.inj stepped
    intro served
    obtain ⟨shot, either, serves⟩ := served idle t (by simp [TimerState.enableTimeout, notDue, queue])
    rw [quiet] at either
    have set : (s.timer.setTimerSingle second (s.timer.time t - second)).timer = some shot := by
      simpa [TimerState.enableTimeout, notDue, timer] using either
    simp only [TimerState.enableTimeout, notDue, Bool.false_eq_true, if_false,
      TimerState.insertInQueue_time, Shot.serves, Shot.expiry] at serves
    by_cases positive : s.timer.time t - second > 0
    · have nonzero : s.timer.time t - second ≠ 0 := (UInt64.ne_of_lt positive).symm
      simp only [TimerState.setTimerSingle, if_pos positive, if_neg nonzero] at set
      obtain rfl := Option.some.inj set
      -- the interval has wrapped around
      have difference := UInt64.toNat_sub (s.timer.time t) second
      have bound := second.toNat_lt
      simp only [UInt64.le_iff_toNat_le, gt_iff_lt, UInt64.lt_iff_toNat_lt] at serves positive
      simp only [difference] at serves positive
      change 0 < _ at positive
      omega
    · simp only [TimerState.setTimerSingle, if_neg positive, if_true] at set
      cases set
  · cases stepped

/-- Two timeouts are enabled in time, the later one first. -/
def twoTimeouts : List TimerOp :=
  [.init 0 ⟨none, 30⟩, .init 1 ⟨none, 20⟩, .enable 0 5, .clock 8, .enable 1 19]

/-- A timeout at 10 is enabled at 0, and when `insertInQueue` reads the clock it is 10. -/
def lateTimeout : List TimerOp := [.init 0 ⟨none, 10⟩, .enable 0 10]

theorem none_lost_after_two_timeouts :
    ∃ last, NoneLost last ∧ last.timer.queue = [1, 0] := by
  obtain ⟨last, run, queue⟩ := exists_run_of_executeUnder twoTimeouts
    (fun s : Arming => s.timer.queue == [1, 0])
    (by decide +kernel : (executeUnder timerStep readInTime twoTimeouts
      (Arming.initial (fun _ => ⟨none, 0⟩) 0)).any _ = true)
  exact ⟨last, none_lost run, by simpa using queue⟩

theorem timeout_lost : ¬ ∀ (timeout : TimeoutId → Timeout) (now : Time) (last : Arming),
    Run timerStep Always (Arming.initial timeout now) last → NoneLost last := by
  intro always
  obtain ⟨last, run, lost⟩ := exists_run_of_execute lateTimeout
    (fun s : Arming => s.handlers.isEmpty && s.timer.queue == [0] && s.timer.timer.isNone &&
      s.pending.isNone)
    (by decide +kernel : (execute timerStep lateTimeout
      (Arming.initial (fun _ => ⟨none, 0⟩) 0)).any _ = true)
  simp only [Bool.and_eq_true, beq_iff_eq, Option.isNone_iff_eq_none, List.isEmpty_iff] at lost
  obtain ⟨⟨⟨idle, queue⟩, disarmed⟩, quiet⟩ := lost
  obtain ⟨shot, either, -⟩ := always _ _ last run idle 0 (by simp [queue])
  rw [disarmed, quiet] at either
  rcases either with armed | pending
  · cases armed
  · cases pending

end Microcsp
