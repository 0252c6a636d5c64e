import Microcsp.Memory

/-!
# The timeout queue

`timer.c`: the queue of armed timeouts in order of their times and the one-shot timer that
fires for its head. The queue is the list of the entries from `timerQ.head` along `next`. A
`Timeout` that is queued already is never inserted again, which the callers see to. Readings of
`Now()` are arguments, because each reading is a separate one.
-/

namespace Microcsp

/-- `Time`, unsigned nanoseconds. -/
abbrev Time := UInt64

/-- The address of a `Timeout` object. -/
abbrev TimeoutId := Nat

/-- `Timeout` without its link. -/
structure Timeout where
  /-- The process that expects the timeout. -/
  proc : Option Addr
  /-- The expiration time. -/
  time : Time

/-- How the timeout timer was last programmed. -/
structure Shot where
  /-- The reading of `Now()` that the interval was computed from. -/
  base : Time
  /-- The interval passed to `set_timer_single`. -/
  interval : Time
  deriving DecidableEq, Repr

/-- The programmed expiry as an unbounded number. -/
def Shot.expiry (shot : Shot) : Nat := shot.base.toNat + shot.interval.toNat

/-- The state of `timer.c`. -/
structure TimerState where
  /-- The `Timeout` objects. -/
  timeout : TimeoutId → Timeout
  /-- The entries of `timerQ` from its head on. -/
  queue : List TimeoutId
  /-- The armed one-shot timer, or nothing when it is disarmed. -/
  timer : Option Shot

namespace TimerState

/-- The time of an entry. -/
def time (s : TimerState) (t : TimeoutId) : Time := (s.timeout t).time

/-- `set_timer_single(TIMER_TIMEOUT, interval)`: the comparison with zero is between unsigned
numbers, and an interval of zero disarms the timer. -/
def setTimerSingle (s : TimerState) (now interval : Time) : TimerState :=
  let interval := if interval > 0 then interval else 0
  { s with timer := if interval = 0 then none else some ⟨now, interval⟩ }

/-- `insertInQueue`; `now` is the reading taken after the insertion at the head. -/
def insertInQueue (s : TimerState) (timeout : TimeoutId) (now : Time) : TimerState :=
  let passed := s.queue.takeWhile fun curr => decide (s.time curr ≤ s.time timeout)
  let rest := s.queue.dropWhile fun curr => decide (s.time curr ≤ s.time timeout)
  match passed with
  | [] => { s with queue := timeout :: rest }.setTimerSingle now (s.time timeout - now)
  | _ :: _ => { s with queue := passed ++ timeout :: rest }

/-- The two scans of `removeFromQueue`: the entries before the position reached. -/
def scanned (s : TimerState) (time : Time) (proc : Option Addr) : List TimeoutId :=
  let earlier := s.queue.takeWhile fun curr => decide (s.time curr < time)
  let rest := s.queue.dropWhile fun curr => decide (s.time curr < time)
  earlier ++ rest.takeWhile fun curr =>
    decide (s.time curr = time ∧ (s.timeout curr).proc ≠ proc)

/-- `removeFromQueue`: the entry at the position reached is returned, and it is taken out of
the queue when its time and process are the ones looked for. -/
def removeFromQueue (s : TimerState) (time : Time) (proc : Option Addr) :
    Option TimeoutId × TimerState :=
  let before := s.scanned time proc
  match s.queue.drop before.length with
  | [] => (none, s)
  | curr :: after =>
    if s.time curr = time ∧ (s.timeout curr).proc = proc then
      (some curr, { s with queue := before ++ after })
    else (some curr, s)

/-- `removeHead` -/
def removeHead (s : TimerState) : TimerState := { s with queue := s.queue.tail }

/-- The readiness test of `enable_timeout` and `disable_timeout`. -/
def due (s : TimerState) (timeout : TimeoutId) (now : Time) : Bool := decide (s.time timeout ≤ now)

/-- `enable_timeout`, with the reading of its test and the reading after an insertion. -/
def enableTimeout (s : TimerState) (timeout : TimeoutId) (first second : Time) :
    Bool × TimerState :=
  if s.due timeout first then (true, s) else (false, s.insertInQueue timeout second)

/-- `disable_timeout` -/
def disableTimeout (s : TimerState) (timeout : TimeoutId) (now : Time) : Bool × TimerState :=
  (s.due timeout now,
    (s.removeFromQueue (s.time timeout) (s.timeout timeout).proc).2)

/-- The end of `handle_timeout_interrupt`: the timer is set for the head, if there is one. -/
def restart (s : TimerState) (now : Time) : TimerState :=
  match s.queue with
  | [] => s
  | head :: _ => s.setTimerSingle now (s.time head - now)

section Frame

variable (s : TimerState) (t : TimeoutId) (now interval time : Time) (proc : Option Addr)

@[simp] theorem setTimerSingle_timeout : (s.setTimerSingle now interval).timeout = s.timeout := rfl

@[simp] theorem setTimerSingle_queue : (s.setTimerSingle now interval).queue = s.queue := rfl

@[simp] theorem insertInQueue_timeout : (s.insertInQueue t now).timeout = s.timeout := by
  simp only [insertInQueue]
  split <;> rfl

@[simp] theorem removeFromQueue_timeout : (s.removeFromQueue time proc).2.timeout = s.timeout := by
  simp only [removeFromQueue]
  split
  · rfl
  · split <;> rfl

@[simp] theorem disableTimeout_timeout : (s.disableTimeout t now).2.timeout = s.timeout :=
  removeFromQueue_timeout ..

@[simp] theorem removeHead_timeout : s.removeHead.timeout = s.timeout := rfl

@[simp] theorem restart_timeout : (s.restart now).timeout = s.timeout := by
  unfold restart
  split <;> rfl

end Frame

end TimerState

end Microcsp
