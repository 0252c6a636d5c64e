import Mathlib.Algebra.Group.Nat.Defs
import Microcsp.Library.Transition
import Microcsp.Timer

/-!
# The reading of the clock

`Now()` puts the time together from the number of ticks that were counted and from the timer that
counts the time to the next one. It reads the number again after the timer and starts over if a tick
came in between. A tick that has not been delivered because interrupts are disabled is not counted,
while the timer has started over: a reading then is a whole tick too low.

`INTR_ELAPSED` has the highest priority and its handler only counts, so its delivery is one step.
Calls of `Now()` can be nested, in an interrupt handler that comes while another call is in
progress.
-/

open Library

namespace Microcsp

/-- `Tick` -/
def tick : Time := 1000000000

/-- Points of `Now`. -/
inductive NowPc where
  /-- `c = currentTime` -/
  | first
  /-- `t = read_timer(TIMER_ELAPSED)` -/
  | timer (c : Time)
  /-- `cc = c; c = currentTime`, and the test -/
  | second (c t : Time)
  deriving DecidableEq, Repr

/-- A call of `Now` that is in progress. -/
structure NowCall where
  /-- The point it has reached. -/
  pc : NowPc
  /-- What the calls that had returned when it began have returned. -/
  earlier : List Time
  deriving DecidableEq, Repr

/-- A call of `Now` that has returned. -/
structure Reading where
  /-- What the calls that had returned when it began have returned. -/
  earlier : List Time
  /-- What it has returned. -/
  value : Time
  deriving DecidableEq, Repr

/-- The timer, the count of ticks and the calls of `Now`. -/
structure ClockState where
  /-- `TIMER_ELAPSED`, the time to its expiry. -/
  remaining : Time
  /-- `INTR_ELAPSED` was raised and not delivered. -/
  pending : Bool
  /-- How long interrupts have been disabled, if they are. -/
  disabledFor : Option Nat
  /-- `currentTime` -/
  currentTime : Time
  /-- The calls of `Now` in progress, innermost first. -/
  calls : List NowCall
  /-- The time since the timer was started. The code cannot see it. -/
  elapsed : Nat
  /-- The calls of `Now` that have returned, the last one first. -/
  readings : List Reading
  deriving DecidableEq, Repr

namespace ClockState

/-- After `set_timer_repeating(TIMER_ELAPSED, Tick)`. -/
def start : ClockState := ⟨tick, false, none, 0, [], 0, []⟩

/-- `handle_elapsed_time_interrupt` -/
def handleElapsedTimeInterrupt (s : ClockState) : ClockState :=
  { s with currentTime := s.currentTime + tick }

/-- The result of `Now` from the timer and the number of ticks. -/
def now (c t : Time) : Time := tick - t + c

/-- Time passes. Interrupts are disabled for less than one tick at a time. -/
def pass (s : ClockState) (n : Nat) : Option ClockState :=
  let s := { s with elapsed := s.elapsed + n }
  match s.disabledFor with
  | none => some s
  | some k => if k + n < tick.toNat then some { s with disabledFor := some (k + n) } else none

/-- A step of the innermost call of `Now`. -/
def run (s : ClockState) : Option ClockState :=
  match s.calls with
  | [] => none
  | call :: rest =>
    match call.pc with
    | .first => some { s with calls := { call with pc := .timer s.currentTime } :: rest }
    | .timer c => some { s with calls := { call with pc := .second c s.remaining } :: rest }
    | .second c t =>
      if s.currentTime = c then
        some { s with calls := rest, readings := ⟨call.earlier, now c t⟩ :: s.readings }
      else some { s with calls := { call with pc := .timer s.currentTime } :: rest }

end ClockState

/-- What can happen. -/
inductive ClockLabel where
  /-- Time passes and the timer does not expire. -/
  | wait (n : Nat)
  /-- The timer expires and starts over. -/
  | expire
  /-- `DISABLE` -/
  | disable
  /-- `ENABLE` -/
  | enable
  /-- `Now` is called. -/
  | call
  /-- The innermost call makes a step. -/
  | run
  deriving DecidableEq, Repr

/-- One step. A tick is delivered at once where interrupts are enabled, and otherwise when they
are. -/
def clockStep (label : ClockLabel) (s : ClockState) : Option ClockState :=
  match label with
  | .wait n =>
    if n < s.remaining.toNat then
      s.pass n |>.map fun s => { s with remaining := s.remaining - UInt64.ofNat n }
    else none
  | .expire =>
    s.pass s.remaining.toNat |>.map fun s =>
      let s := { s with remaining := tick }
      if s.disabledFor = none then s.handleElapsedTimeInterrupt else { s with pending := true }
  | .disable => some { s with disabledFor := s.disabledFor.or (some 0) }
  | .enable =>
    let s := { s with disabledFor := none }
    some (if s.pending then { s.handleElapsedTimeInterrupt with pending := false } else s)
  | .call => some { s with calls := ⟨.first, s.readings.map Reading.value⟩ :: s.calls }
  | .run => s.run

/-- Each call of `Now` has returned no less than the calls that had returned before it began. -/
def Nondecreasing (s : ClockState) : Prop := ∀ r ∈ s.readings, ∀ u ∈ r.earlier, u ≤ r.value

/-- The timer is not read while a tick is pending, and the time since the start fits in a `Time`. -/
def readsDelivered (label : ClockLabel) (s : ClockState) : Bool :=
  decide (s.elapsed < 2 ^ 64) &&
    match label, s.calls with
    | .run, ⟨.timer _, _⟩ :: _ => !s.pending
    | _, _ => true

/-! ## The invariant -/

/-- What a call in progress has read so far gives a time between the beginning of the call and now,
unless a tick has come since. -/
def NowCall.Ok (s : ClockState) (call : NowCall) : Prop :=
  match call.pc with
  | .first => ∀ u ∈ call.earlier, u.toNat ≤ s.elapsed
  | .timer c => (∀ u ∈ call.earlier, u.toNat ≤ s.elapsed) ∧ c ≤ s.currentTime
  | .second c t => ∃ τ ≤ s.elapsed, (∀ u ∈ call.earlier, u.toNat ≤ τ) ∧ c ≤ s.currentTime ∧
      (s.currentTime = c → (ClockState.now c t).toNat = τ)

/-- The invariant, for as long as the time fits. -/
structure ClockOk (s : ClockState) : Prop where
  /-- The timer is running. -/
  timer : 0 < s.remaining.toNat ∧ s.remaining.toNat ≤ tick.toNat
  /-- The ticks, with the one that is pending, and the timer make up the time. -/
  time : s.currentTime.toNat + (if s.pending then tick.toNat else 0) +
    (tick.toNat - s.remaining.toNat) = s.elapsed
  /-- A tick is pending only where interrupts have been disabled since it came. -/
  disabled : s.pending = true → ∃ k, s.disabledFor = some k ∧ tick.toNat - s.remaining.toNat ≤ k
  /-- Interrupts are disabled for less than a tick. -/
  short : ∀ k, s.disabledFor = some k → k < tick.toNat
  /-- The calls in progress. -/
  calls : ∀ call ∈ s.calls, call.Ok s
  /-- What was returned is not in the future. -/
  readings : ∀ r ∈ s.readings, r.value.toNat ≤ s.elapsed

/-- What has returned before goes on to be earlier, and a tick that comes is noticed. -/
theorem NowCall.Ok.mono {s s' : ClockState} {call : NowCall} (ok : call.Ok s)
    (later : s.elapsed ≤ s'.elapsed)
    (count : s'.currentTime = s.currentTime ∨ s.currentTime < s'.currentTime) : call.Ok s' := by
  have le : s.currentTime ≤ s'.currentTime := by
    rcases count with same | less
    · rw [same]
      exact UInt64.le_refl _
    · exact UInt64.le_of_lt less
  unfold NowCall.Ok at ok ⊢
  split
  · rename_i pc
    rw [pc] at ok
    exact fun u mem => Nat.le_trans (ok u mem) later
  · rename_i c pc
    rw [pc] at ok
    exact ⟨fun u mem => Nat.le_trans (ok.1 u mem) later, UInt64.le_trans ok.2 le⟩
  · rename_i c t pc
    rw [pc] at ok
    obtain ⟨τ, past, before, read, value⟩ := ok
    refine ⟨τ, Nat.le_trans past later, before, UInt64.le_trans read le, fun same => value ?_⟩
    rcases count with equal | less
    · exact equal.symm.trans same
    · rw [same] at less
      exact absurd read (UInt64.not_le.mpr less)

/-- The result of `Now` as a number. -/
theorem toNat_now {c t : Time} (bound : t.toNat ≤ tick.toNat)
    (fits : c.toNat + (tick.toNat - t.toNat) < 2 ^ 64) :
    (ClockState.now c t).toNat = c.toNat + (tick.toNat - t.toNat) := by
  have le : t ≤ tick := UInt64.le_iff_toNat_le.mpr bound
  rw [ClockState.now, UInt64.toNat_add, UInt64.toNat_sub_of_le _ _ le, Nat.add_comm,
    Nat.mod_eq_of_lt fits]

/-- What the passing of time changes. -/
theorem ClockState.pass_some {s s' : ClockState} {n : Nat} (passed : s.pass n = some s') :
    ∃ d, s' = { s with elapsed := s.elapsed + n, disabledFor := d } ∧
      (s.disabledFor = none ∧ d = none ∨
        ∃ k, s.disabledFor = some k ∧ d = some (k + n) ∧ k + n < tick.toNat) := by
  unfold ClockState.pass at passed
  cases disabled : s.disabledFor with
  | none =>
    simp only [disabled, Option.some.injEq] at passed
    subst passed
    exact ⟨none, by rw [← disabled], Or.inl ⟨rfl, rfl⟩⟩
  | some k =>
    simp only [disabled] at passed
    split at passed
    · rename_i short
      obtain rfl := Option.some.inj passed
      exact ⟨_, rfl, Or.inr ⟨k, rfl, rfl, short⟩⟩
    · cases passed

/-- A tick that is delivered is counted. -/
theorem toNat_count {c : Time} (fits : c.toNat + tick.toNat < 2 ^ 64) :
    (c + tick).toNat = c.toNat + tick.toNat ∧ c < c + tick := by
  have sum : (c + tick).toNat = c.toNat + tick.toNat := by
    rw [UInt64.toNat_add, Nat.mod_eq_of_lt fits]
  refine ⟨sum, UInt64.lt_iff_toNat_lt.mpr ?_⟩
  rw [sum]
  exact Nat.lt_add_of_pos_right (by decide)

section Steps

variable {s s' : ClockState}

/-- Time passes within a tick. -/
theorem ClockOk.wait (ok : ClockOk s) {n : Nat} (stepped : clockStep (.wait n) s = some s') :
    ClockOk s' := by
  simp only [clockStep] at stepped
  split at stepped
  · rename_i within
    obtain ⟨passed, pass, rfl⟩ := Option.map_eq_some_iff.mp stepped
    obtain ⟨d, rfl, disabled⟩ := ClockState.pass_some pass
    have timer := ok.timer
    have time := ok.time
    have left : (s.remaining - UInt64.ofNat n).toNat = s.remaining.toNat - n := by
      have small : n < 2 ^ 64 := Nat.lt_trans within s.remaining.toNat_lt
      have same : (UInt64.ofNat n).toNat = n := UInt64.toNat_ofNat_of_lt' small
      rw [UInt64.toNat_sub_of_le _ _ (UInt64.le_iff_toNat_le.mpr (by omega)), same]
    constructor
    · simp only [left]
      omega
    · simp only [left]
      omega
    · intro pending
      obtain ⟨k, since, long⟩ := ok.disabled pending
      rcases disabled with ⟨none, -⟩ | ⟨k', since', rfl, -⟩
      · rw [none] at since
        cases since
      · obtain rfl : k = k' := Option.some.inj (since.symm.trans since')
        refine ⟨k + n, rfl, ?_⟩
        simp only [left]
        omega
    · intro k same
      rcases disabled with ⟨-, rfl⟩ | ⟨k', -, rfl, short⟩
      · cases same
      · obtain rfl := Option.some.inj same
        exact short
    · exact fun call mem => (ok.calls call mem).mono (Nat.le_add_right _ _) (Or.inl rfl)
    · exact fun r mem => Nat.le_trans (ok.readings r mem) (Nat.le_add_right _ _)
  · cases stepped

/-- The timer expires. Its tick is counted, or pending from now on. -/
theorem ClockOk.expire (ok : ClockOk s) (stepped : clockStep .expire s = some s')
    (fits : s'.elapsed < 2 ^ 64) : ClockOk s' := by
  simp only [clockStep] at stepped
  obtain ⟨passed, pass, rfl⟩ := Option.map_eq_some_iff.mp stepped
  obtain ⟨d, rfl, disabled⟩ := ClockState.pass_some pass
  have timer := ok.timer
  have time := ok.time
  have positive : 0 < tick.toNat := by decide
  rcases disabled with ⟨none, rfl⟩ | ⟨k, since, rfl, short⟩
  · -- nothing was pending, and the tick is delivered
    have delivered : s.pending = false := by
      by_contra pending
      obtain ⟨k, since, -⟩ := ok.disabled (by simpa using pending)
      rw [none] at since
      cases since
    simp only [if_true, ClockState.handleElapsedTimeInterrupt] at fits ⊢
    simp only [delivered, Bool.false_eq_true, if_false] at time
    have count := toNat_count (c := s.currentTime) (by omega)
    constructor
    · exact ⟨positive, Nat.le_refl _⟩
    · simp only [delivered, count.1, Bool.false_eq_true, if_false]
      omega
    · exact fun pending => absurd pending (by simp [delivered])
    · exact fun k same => by cases same
    · exact fun call mem => (ok.calls call mem).mono (Nat.le_add_right _ _) (Or.inr count.2)
    · exact fun r mem => Nat.le_trans (ok.readings r mem) (Nat.le_add_right _ _)
  · -- a tick that is pending already would have been pending for a whole period
    have first : s.pending = false := by
      by_contra pending
      obtain ⟨k', since', long⟩ := ok.disabled (by simpa using pending)
      obtain rfl : k = k' := Option.some.inj (since.symm.trans since')
      omega
    simp only [reduceCtorEq, if_false] at fits ⊢
    simp only [first, Bool.false_eq_true, if_false] at time
    constructor
    · exact ⟨positive, Nat.le_refl _⟩
    · simp only [if_true]
      omega
    · exact fun _ => ⟨_, rfl, by simp⟩
    · intro k' same
      obtain rfl := Option.some.inj same
      exact short
    · exact fun call mem => (ok.calls call mem).mono (Nat.le_add_right _ _) (Or.inl rfl)
    · exact fun r mem => Nat.le_trans (ok.readings r mem) (Nat.le_add_right _ _)

theorem ClockOk.disable (ok : ClockOk s) :
    ClockOk { s with disabledFor := s.disabledFor.or (some 0) } where
  timer := ok.timer
  time := ok.time
  disabled := by
    intro pending
    obtain ⟨k, since, long⟩ := ok.disabled pending
    exact ⟨k, by simp [since], long⟩
  short := by
    intro k same
    cases since : s.disabledFor with
    | none =>
      simp only [since, Option.none_or, Option.some.injEq] at same
      rw [← same]
      decide
    | some k' =>
      simp only [since, Option.some_or, Option.some.injEq] at same
      exact same ▸ ok.short k' since
  calls := fun call mem => (ok.calls call mem).mono (Nat.le_refl _) (Or.inl rfl)
  readings := ok.readings

/-- A pending tick is delivered when interrupts are enabled. -/
theorem ClockOk.enable (ok : ClockOk s) (stepped : clockStep .enable s = some s')
    (fits : s.elapsed < 2 ^ 64) : ClockOk s' := by
  simp only [clockStep, Option.some.injEq] at stepped
  subst stepped
  have timer := ok.timer
  have time := ok.time
  cases pending : s.pending with
  | true =>
    simp only [pending, if_true] at time
    simp only [if_true, ClockState.handleElapsedTimeInterrupt]
    have count := toNat_count (c := s.currentTime) (by omega)
    constructor
    · exact timer
    · simp only [count.1, Bool.false_eq_true, if_false]
      omega
    · exact fun pending => by cases pending
    · exact fun k same => by cases same
    · exact fun call mem => (ok.calls call mem).mono (Nat.le_refl _) (Or.inr count.2)
    · exact ok.readings
  | false =>
    simp only [pending, Bool.false_eq_true, if_false] at time ⊢
    constructor
    · exact timer
    · exact time
    · exact fun pending => by cases pending
    · exact fun k same => by cases same
    · exact fun call mem => (ok.calls call mem).mono (Nat.le_refl _) (Or.inl rfl)
    · exact ok.readings

/-- What has returned is earlier than a call that begins. -/
theorem ClockOk.call (ok : ClockOk s) :
    ClockOk { s with calls := ⟨.first, s.readings.map Reading.value⟩ :: s.calls } where
  timer := ok.timer
  time := ok.time
  disabled := ok.disabled
  short := ok.short
  calls := by
    refine List.forall_mem_cons.mpr ⟨?_, ok.calls⟩
    intro u mem
    obtain ⟨r, returned, rfl⟩ := List.mem_map.mp mem
    exact ok.readings r returned
  readings := ok.readings

/-- A step of `Now`: the timer is read at some moment, and a number of ticks that is the same before
and after is the number at that moment. -/
theorem ClockOk.run (ok : ClockOk s) (stepped : s.run = some s')
    (allowed : readsDelivered .run s = true) :
    ClockOk s' ∧ (Nondecreasing s → Nondecreasing s') := by
  have timer := ok.timer
  have time := ok.time
  simp only [readsDelivered, Bool.and_eq_true, decide_eq_true_eq] at allowed
  obtain ⟨fits, allowed⟩ := allowed
  have replace : ∀ call rest, s.calls = call :: rest → ∀ call' : NowCall, call'.Ok s →
      ClockOk { s with calls := call' :: rest } := fun call rest calls call' good =>
    { ok with calls := List.forall_mem_cons.mpr ⟨good, fun c mem =>
        ok.calls c (calls ▸ List.mem_cons_of_mem _ mem)⟩ }
  unfold ClockState.run at stepped
  split at stepped
  · cases stepped
  · rename_i call rest calls
    have own : call.Ok s := ok.calls call (calls ▸ List.mem_cons_self)
    obtain ⟨pc, earlier⟩ := call
    cases pc with
    | first =>
      obtain rfl := Option.some.inj stepped
      exact ⟨replace _ _ calls _ ⟨own, UInt64.le_refl _⟩, id⟩
    | timer c =>
      obtain rfl := Option.some.inj stepped
      obtain ⟨before, read⟩ := own
      have delivered : s.pending = false := by simpa [calls] using allowed
      simp only [delivered, Bool.false_eq_true, if_false] at time
      refine ⟨replace _ _ calls _ ⟨s.elapsed, Nat.le_refl _, before, read, fun same => ?_⟩, id⟩
      rw [← same, toNat_now timer.2 (by omega)]
      omega
    | second c t =>
      obtain ⟨τ, past, before, read, value⟩ := own
      simp only at stepped
      split at stepped
      · rename_i same
        obtain rfl := Option.some.inj stepped
        have result := value same
        refine ⟨{ ok with
          calls := fun c mem => ok.calls c (calls ▸ List.mem_cons_of_mem _ mem)
          readings := List.forall_mem_cons.mpr ⟨?_, ok.readings⟩ }, fun mono => ?_⟩
        · rw [result]
          exact past
        · refine List.forall_mem_cons.mpr ⟨fun u mem => UInt64.le_iff_toNat_le.mpr ?_, mono⟩
          rw [result]
          exact before u mem
      · obtain rfl := Option.some.inj stepped
        exact ⟨replace _ _ calls _
          ⟨fun u mem => Nat.le_trans (before u mem) past, UInt64.le_refl _⟩, id⟩

/-- Every step keeps the invariant for as long as the time fits, and the readings in order. -/
theorem ClockOk.step (ok : ClockOk s) {label : ClockLabel} (stepped : clockStep label s = some s')
    (allowed : readsDelivered label s = true) :
    (s'.elapsed < 2 ^ 64 → ClockOk s') ∧ (Nondecreasing s → Nondecreasing s') := by
  have fits : s.elapsed < 2 ^ 64 := by
    simp only [readsDelivered, Bool.and_eq_true, decide_eq_true_eq] at allowed
    exact allowed.1
  cases label with
  | wait n =>
    refine ⟨fun _ => ok.wait stepped, fun mono => ?_⟩
    simp only [clockStep] at stepped
    split at stepped
    · obtain ⟨passed, pass, rfl⟩ := Option.map_eq_some_iff.mp stepped
      obtain ⟨d, rfl, -⟩ := ClockState.pass_some pass
      exact mono
    · cases stepped
  | expire =>
    refine ⟨ok.expire stepped, fun mono => ?_⟩
    simp only [clockStep] at stepped
    obtain ⟨passed, pass, rfl⟩ := Option.map_eq_some_iff.mp stepped
    obtain ⟨d, rfl, -⟩ := ClockState.pass_some pass
    simp only
    split <;> exact mono
  | disable =>
    obtain rfl := Option.some.inj stepped
    exact ⟨fun _ => ok.disable, id⟩
  | enable =>
    refine ⟨fun _ => ok.enable stepped fits, fun mono => ?_⟩
    obtain rfl := Option.some.inj stepped
    simp only
    split <;> exact mono
  | call =>
    obtain rfl := Option.some.inj stepped
    exact ⟨fun _ => ok.call, id⟩
  | run =>
    have made := ok.run stepped allowed
    exact ⟨fun _ => made.1, made.2⟩

end Steps

/-- When the timer is started nothing has been read. -/
theorem clockOk_start : ClockOk .start where
  timer := by decide
  time := by decide
  disabled := by simp [ClockState.start]
  short := by simp [ClockState.start]
  calls := by simp [ClockState.start]
  readings := by simp [ClockState.start]

/-! ## The result -/

/-- In every run in which the timer is not read while a tick is pending, and that is no longer than
a `Time` can say, `Now()` does not go back. -/
theorem now_nondecreasing {last : ClockState}
    (run : Run clockStep (fun label s => readsDelivered label s = true) .start last) :
    Nondecreasing last := by
  have all : Nondecreasing last ∧ (last.elapsed < 2 ^ 64 → ClockOk last) := by
    refine run.invariant (fun s => Nondecreasing s ∧ (s.elapsed < 2 ^ 64 → ClockOk s))
      ⟨fun r mem => absurd mem List.not_mem_nil, fun _ => clockOk_start⟩ ?_
    rintro label before after ⟨mono, ok⟩ allowed stepped
    have fits : before.elapsed < 2 ^ 64 := by
      simp only [readsDelivered, Bool.and_eq_true, decide_eq_true_eq] at allowed
      exact allowed.1
    have made := (ok fits).step stepped allowed
    exact ⟨made.2 mono, made.1⟩
  exact all.1

/-- A call of `Now` with interrupts disabled and one during which a tick comes. -/
theorem now_nondecreasing_over_tick : ∃ last : ClockState, Nondecreasing last ∧
    last.readings = [⟨[999999999], 1000000000⟩, ⟨[], 999999999⟩] := by
  obtain ⟨last, run, checked⟩ : ∃ last : ClockState,
      Run clockStep (fun label s => readsDelivered label s = true) .start last ∧
        (last.readings == [⟨[999999999], 1000000000⟩, ⟨[], 999999999⟩]) = true :=
    exists_run_of_executeUnder
      [.wait 999999999, .disable, .call, .run, .run, .run, .enable, .call, .run, .run, .expire, .run,
        .run, .run]
      (fun s : ClockState => s.readings == [⟨[999999999], 1000000000⟩, ⟨[], 999999999⟩])
      (by decide +kernel)
  exact ⟨last, now_nondecreasing run, by simpa using checked⟩

/-- Interrupts are disabled one nanosecond before the timer expires: `Now` returns the time, and two
nanoseconds later it returns zero. -/
theorem now_sometimes_goes_back :
    ¬ ∀ last, Run clockStep Always .start last → Nondecreasing last := by
  intro always
  obtain ⟨last, run, wrong⟩ : ∃ last : ClockState, Run clockStep Always .start last ∧
      (last.readings == [⟨[999999999], 0⟩, ⟨[], 999999999⟩]) = true :=
    exists_run_of_execute
      [.wait 999999999, .disable, .call, .run, .run, .run, .expire, .call, .run, .run, .run]
      (fun s : ClockState => s.readings == [⟨[999999999], 0⟩, ⟨[], 999999999⟩])
      (by decide +kernel)
  have readings : last.readings = [⟨[999999999], 0⟩, ⟨[], 999999999⟩] := by simpa using wrong
  have back := always last run ⟨[999999999], 0⟩ (by simp [readings]) 999999999 (by simp)
  exact absurd back (by decide)

end Microcsp
