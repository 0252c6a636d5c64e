import Microcsp.Partner
import Microcsp.TimerQueue

/-!
# Disabling undoes enabling

Every place where `enable_alt` has left the process, in a channel, in an interrupt channel or in the
timeout queue, belongs to a guard that `disable_alt` has not visited yet. The timeouts are counted
by their times, because `disable_timeout` looks for the time and the process and not for the object.
-/

open Library

namespace Microcsp

/-! ## Entries of the timeout queue -/

/-- The times of the entries of a process in a queue. -/
def timesOf (timeout : TimeoutId → Timeout) (p : Addr) (queue : List TimeoutId) : List Time :=
  (queue.filter fun t => decide ((timeout t).proc = some p)).map fun t => (timeout t).time

/-- The times of the entries of a process. -/
def TimerState.entries (s : TimerState) (p : Addr) : List Time := timesOf s.timeout p s.queue

section Entries

variable {s : TimerState} {p : Addr} {t : TimeoutId} {now : Time}

/-- The times do not depend on the order of the queue. -/
theorem timesOf_perm {timeout : TimeoutId → Timeout} {queue queue' : List TimeoutId}
    (perm : queue.Perm queue') : (timesOf timeout p queue).Perm (timesOf timeout p queue') :=
  (perm.filter _).map _

theorem timesOf_cons {timeout : TimeoutId → Timeout} {queue : List TimeoutId}
    (own : (timeout t).proc = some p) :
    timesOf timeout p (t :: queue) = (timeout t).time :: timesOf timeout p queue := by
  rw [timesOf, List.filter_cons_of_pos (by simpa using own)]
  rfl

/-- An insertion adds one entry to those of the process of the timeout. -/
theorem TimerState.entries_insertInQueue (own : (s.timeout t).proc = some p) :
    ((s.insertInQueue t now).entries p).Perm (s.time t :: s.entries p) := by
  have whole : s.queue.takeWhile (fun curr => decide (s.time curr ≤ s.time t)) ++
      s.queue.dropWhile (fun curr => decide (s.time curr ≤ s.time t)) = s.queue :=
    List.takeWhile_append_dropWhile
  have perm : (s.insertInQueue t now).queue.Perm (t :: s.queue) := by
    rw [insertInQueue_queue]
    refine List.perm_middle.trans ?_
    rw [whole]
  have times : (timesOf s.timeout p _).Perm (timesOf s.timeout p _) := timesOf_perm perm
  rw [timesOf_cons own] at times
  rw [entries, insertInQueue_timeout]
  exact times

/-- A removal takes out one entry with the time looked for, if the process has one. -/
theorem TimerState.entries_removeFromQueue (ordered : s.Ordered) (time : Time) :
    ((s.removeFromQueue time (some p)).2.entries p).Perm ((s.entries p).erase time) := by
  rcases removeFromQueue_cases ordered time (some p) with
    ⟨before, curr, after, queue, same, own, removed⟩ | ⟨kept, none⟩
  · have perm : s.queue.Perm (curr :: (before ++ after)) := by
      rw [queue]
      exact List.perm_middle
    have times : (timesOf s.timeout p _).Perm (timesOf s.timeout p _) := timesOf_perm perm
    rw [timesOf_cons own] at times
    have erased := times.erase time
    have head : (s.timeout curr).time = time := same
    rw [head, List.erase_cons_head] at erased
    rw [removed]
    exact erased.symm
  · rw [kept, List.erase_of_not_mem]
    intro mem
    obtain ⟨t, queued, same⟩ := List.mem_map.mp mem
    obtain ⟨queued, own⟩ := List.mem_filter.mp queued
    exact none t queued same (of_decide_eq_true own)

/-- A removal for one process leaves the entries of the others. -/
theorem TimerState.mem_removeFromQueue (ordered : s.Ordered) {time : Time}
    (other : (s.timeout t).proc ≠ some p) (mem : t ∈ s.queue) :
    t ∈ (s.removeFromQueue time (some p)).2.queue := by
  rcases removeFromQueue_cases ordered time (some p) with
    ⟨before, curr, after, queue, -, own, removed⟩ | ⟨kept, -⟩
  · rw [removed]
    rw [queue, List.mem_append, List.mem_cons] at mem
    rcases mem with first | rfl | last
    · exact List.mem_append_left _ first
    · exact absurd own other
    · exact List.mem_append_right _ last
  · rw [kept]
    exact mem

end Entries

/-! ## Registrations -/

/-- The guard is an active timeout with this time. -/
def timesAt (p : Addr) (g : Globals) (time : Time) (i : Nat) : Bool :=
  match g.guard p i with
  | ⟨.timeout t, true⟩ => decide (g.timer.time t = time)
  | _ => false

/-- Every place where the process stands belongs to one of these guards. -/
structure Registered (p : Addr) (g : Globals) (guards : List Nat) : Prop where
  /-- It waits in the channels of inputs. -/
  chan : ∀ c, (g.chan c).waiting = some p →
    ∃ i ∈ guards, ∃ dest len, g.guard p i = ⟨.chanin c dest len, true⟩
  /-- It waits in the interrupt channels of interrupts. -/
  ichan : ∀ x, (g.ichan x).waiting = some p →
    ∃ i ∈ guards, ∃ dest, g.guard p i = ⟨.interrupt x dest, true⟩
  /-- It has no more entries with one time than timeouts. -/
  entries : ∀ time, (g.timer.entries p).count time ≤ guards.countP (timesAt p g time)

/-- What an ALT without outputs starts from. -/
structure Prepared (p : Addr) (g : Globals) : Prop where
  /-- The process executes. -/
  running : g.current = some p
  /-- No output guard is active. -/
  outputs : ∀ i c src, i < (g.proc p).alt.nrGuards → g.guard p i ≠ ⟨.chanout c src, true⟩
  /-- The timeouts are those of the process. -/
  own : ∀ i t, i < (g.proc p).alt.nrGuards → g.guard p i = ⟨.timeout t, true⟩ →
    (g.timer.timeout t).proc = some p
  /-- The timeout queue is in order. -/
  ordered : g.timer.Ordered

/-- What the others do with the process: they may take it out of a channel or out of the timeout
queue, and they never put it in. -/
structure Spares (p : Addr) (g g' : Globals) : Prop where
  /-- Its ALT record is left alone. -/
  alt : LeavesAlt p g g'
  /-- The current process is the one that executes again. -/
  current : g'.current = g.current
  /-- It is not put into a channel. -/
  chan : ∀ c, (g'.chan c).waiting = some p → (g.chan c).waiting = some p
  /-- It is not put into an interrupt channel. -/
  ichan : ∀ x, (g'.ichan x).waiting = some p → (g.ichan x).waiting = some p
  /-- No entry of it is put into the timeout queue. -/
  entries : ∀ time, (g'.timer.entries p).count time ≤ (g.timer.entries p).count time
  /-- Its timeouts are left alone. -/
  timeout : ∀ i t, g.guard p i = ⟨.timeout t, true⟩ → g'.timer.timeout t = g.timer.timeout t
  /-- The timeout queue is kept in order. -/
  ordered : g.timer.Ordered → g'.timer.Ordered

section Others

variable {p : Addr} {g g' : Globals} {guards : List Nat}

theorem Spares.guard (spares : Spares p g g') (i : Nat) : g'.guard p i = g.guard p i := by
  rw [Globals.guard, spares.alt, Globals.guard]

theorem Prepared.others (prepared : Prepared p g) (spares : Spares p g g') : Prepared p g' where
  running := spares.current.trans prepared.running
  outputs i c src inside := by
    rw [spares.alt] at inside
    rw [spares.guard]
    exact prepared.outputs i c src inside
  own i t inside guard := by
    rw [spares.alt] at inside
    rw [spares.guard] at guard
    rw [spares.timeout i t guard]
    exact prepared.own i t inside guard
  ordered := spares.ordered prepared.ordered

theorem Spares.timesAt (spares : Spares p g g') (time : Time) (i : Nat) :
    timesAt p g' time i = Microcsp.timesAt p g time i := by
  unfold Microcsp.timesAt
  rw [spares.guard]
  split
  · rename_i t guard
    rw [TimerState.time, spares.timeout i t guard, TimerState.time]
  · rfl

theorem Registered.others (registered : Registered p g guards) (spares : Spares p g g') :
    Registered p g' guards where
  chan c waiting := by
    simp only [spares.guard]
    exact registered.chan c (spares.chan c waiting)
  ichan x waiting := by
    simp only [spares.guard]
    exact registered.ichan x (spares.ichan x waiting)
  entries time := by
    rw [funext (spares.timesAt time)]
    exact (spares.entries time).trans (registered.entries time)

end Others

/-! ## One guard -/

section Guards

variable {p : Addr} {g g' : Globals} {guards : List Nat} {i : Nat}

theorem timesAt_congr (guard : ∀ i, g'.guard p i = g.guard p i)
    (timeout : g'.timer.timeout = g.timer.timeout) (time : Time) :
    timesAt p g' time = timesAt p g time := by
  funext i
  unfold timesAt
  rw [guard]
  split
  · rw [TimerState.time, timeout, TimerState.time]
  · rfl

/-- A step that leaves the guards and the timeout queue alone and takes the process out of channels
only. -/
theorem Registered.quiet (registered : Registered p g guards)
    (guard : ∀ i, g'.guard p i = g.guard p i) (timer : g'.timer = g.timer)
    (chan : ∀ c, (g'.chan c).waiting = some p → (g.chan c).waiting = some p)
    (ichan : ∀ x, (g'.ichan x).waiting = some p → (g.ichan x).waiting = some p) :
    Registered p g' guards where
  chan c waiting := by
    simp only [guard]
    exact registered.chan c (chan c waiting)
  ichan x waiting := by
    simp only [guard]
    exact registered.ichan x (ichan x waiting)
  entries time := by
    rw [timesAt_congr guard (congrArg _ timer), timer]
    exact registered.entries time

/-- The guards may be taken to be more. -/
theorem Registered.append (registered : Registered p g guards) (i : Nat) :
    Registered p g (guards ++ [i]) where
  chan c waiting := by
    obtain ⟨j, mem, guard⟩ := registered.chan c waiting
    exact ⟨j, List.mem_append_left _ mem, guard⟩
  ichan x waiting := by
    obtain ⟨j, mem, guard⟩ := registered.ichan x waiting
    exact ⟨j, List.mem_append_left _ mem, guard⟩
  entries time := by
    rw [List.countP_append]
    exact (registered.entries time).trans (Nat.le_add_right _ _)

@[simp] theorem Globals.enableGuard_timer : (g.enableGuard p i).2.timer = g.timer := by
  unfold enableGuard
  split
  · split <;> try rfl
    dsimp only
    split <;> rfl
  · rfl

/-- A process comes to a channel when it enables an input. -/
theorem Globals.enableGuard_chan {c : ChanId} {w : Addr}
    (outputs : ∀ c src, g.guard p i ≠ ⟨.chanout c src, true⟩)
    (waiting : ((g.enableGuard p i).2.chan c).waiting = some w) :
    (g.chan c).waiting = some w ∨ ∃ dest len, g.guard p i = ⟨.chanin c dest len, true⟩ := by
  rcases guard : g.guard p i with ⟨kind, _ | _⟩
  · simp only [enableGuard, guard] at waiting
    exact Or.inl waiting
  · cases kind with
    | chanin d dest len =>
      simp only [enableGuard, guard, if_true] at waiting
      have after : ((g.disable.enableChannelInput d).2.chan c).waiting = some w := by
        split at waiting <;> exact waiting
      rcases eq_or_ne c d with rfl | apart
      · exact Or.inr ⟨dest, len, rfl⟩
      · rw [enableChannelInput_of_ne apart] at after
        exact Or.inl after
    | chanout d src => exact (outputs d src guard).elim
    | interrupt x dest =>
      simp only [enableGuard, guard, if_true] at waiting
      exact Or.inl waiting
    | skip | timeout _ =>
      simp only [enableGuard, guard, if_true] at waiting
      exact Or.inl waiting

/-- A process comes to an interrupt channel when it enables an interrupt. -/
theorem Globals.enableGuard_ichan {x : ChanId} {w : Addr}
    (waiting : ((g.enableGuard p i).2.ichan x).waiting = some w) :
    (g.ichan x).waiting = some w ∨ ∃ dest, g.guard p i = ⟨.interrupt x dest, true⟩ := by
  rcases guard : g.guard p i with ⟨kind, _ | _⟩
  · simp only [enableGuard, guard] at waiting
    exact Or.inl waiting
  · cases kind with
    | interrupt y dest =>
      simp only [enableGuard, guard, if_true] at waiting
      rcases eq_or_ne x y with rfl | apart
      · exact Or.inr ⟨dest, rfl⟩
      · rw [enableInterruptChannel_of_ne apart] at waiting
        exact Or.inl waiting
    | chanin d dest len =>
      simp only [enableGuard, guard, if_true] at waiting
      split at waiting <;> exact Or.inl waiting
    | chanout _ _ | skip | timeout _ =>
      simp only [enableGuard, guard, if_true] at waiting
      exact Or.inl waiting

/-- The visit of a guard by `enable_alt`. -/
theorem Registered.enable (registered : Registered p g guards)
    (outputs : ∀ c src, g.guard p i ≠ ⟨.chanout c src, true⟩) :
    Registered p (g.enableGuard p i).2 (guards ++ [i]) := by
  have same : ∀ j, (g.enableGuard p i).2.guard p j = g.guard p j := fun j => by
    simp only [Globals.guard, Globals.enableGuard_proc]
  constructor
  · intro c waiting
    simp only [same]
    rcases Globals.enableGuard_chan outputs waiting with before | ⟨dest, len, guard⟩
    · exact (registered.append i).chan c before
    · exact ⟨i, by simp, dest, len, guard⟩
  · intro x waiting
    simp only [same]
    rcases Globals.enableGuard_ichan waiting with before | ⟨dest, guard⟩
    · exact (registered.append i).ichan x before
    · exact ⟨i, by simp, dest, guard⟩
  · intro time
    rw [timesAt_congr same (by simp), Globals.enableGuard_timer]
    exact (registered.append i).entries time

/-- The visit of a timeout by `enable_alt` registers nothing yet. -/
theorem Registered.enable_timeout {t : TimeoutId} (registered : Registered p g guards)
    (guard : g.guard p i = ⟨.timeout t, true⟩) : Registered p (g.enableGuard p i).2 guards := by
  have same : g.enableGuard p i = (g.timer.due t g.now, g.disable) := by
    unfold Globals.enableGuard
    rw [guard]
    rfl
  rw [same]
  exact registered.quiet (fun _ => rfl) rfl (fun _ h => h) (fun _ h => h)

/-- The insertion of a timeout. -/
theorem Registered.insert {t : TimeoutId} {now : Time} (registered : Registered p g guards)
    (guard : g.guard p i = ⟨.timeout t, true⟩) (own : (g.timer.timeout t).proc = some p) :
    Registered p { g with timer := g.timer.insertInQueue t now }.enable (guards ++ [i]) := by
  refine ⟨(registered.append i).chan, (registered.append i).ichan, fun time => ?_⟩
  have added : ((g.timer.insertInQueue t now).entries p).count time =
      (g.timer.time t :: g.timer.entries p).count time :=
    (TimerState.entries_insertInQueue own).count_eq time
  have before := registered.entries time
  have same : ∀ j, { g with timer := g.timer.insertInQueue t now }.enable.guard p j = g.guard p j :=
    fun _ => rfl
  have unchanged := timesAt_congr same (TimerState.insertInQueue_timeout ..) time
  change ((g.timer.insertInQueue t now).entries p).count time ≤ _
  rw [added, unchanged, List.countP_append, List.count_cons, List.countP_singleton]
  have here : timesAt p g time i = decide (g.timer.time t = time) := by
    unfold timesAt
    rw [guard]
  simp only [here, beq_iff_eq, decide_eq_true_eq]
  omega

/-- The current process leaves the channel of an input that is disabled. -/
theorem Channel.disableInput_leaves (chan : Channel) (p : Addr) :
    (chan.disableInput (some p)).2.waiting ≠ some p := by
  unfold Channel.disableInput
  split
  · rename_i w waiting
    split
    · rename_i other
      rw [waiting]
      exact fun same => other same.symm
    · nofun
  · rename_i none
    rw [none]
    nofun

/-- What `disable_alt` leaves of the process in a channel was there before and does not belong to the
guard. -/
theorem Globals.disableGuard_leaves {c : ChanId} (running : g.current = some p)
    (waiting : ((g.disableGuard p i).2.2.chan c).waiting = some p) (dest : Option Ptr) (len : Nat) :
    g.guard p i ≠ ⟨.chanin c dest len, true⟩ := by
  intro guard
  simp only [disableGuard, guard, if_true] at waiting
  change ((g.disable.disableChannelInput c).2.chan c).waiting = some p at waiting
  rw [disableChannelInput_self] at waiting
  change ((g.chan c).disableInput g.current).2.waiting = some p at waiting
  rw [running] at waiting
  exact Channel.disableInput_leaves _ p waiting

/-- `disable_alt` changes an interrupt channel at its guards only. -/
theorem Globals.disableGuard_ichan {x : ChanId}
    (other : ∀ dest, g.guard p i ≠ ⟨.interrupt x dest, true⟩) :
    (g.disableGuard p i).2.2.ichan x = g.ichan x := by
  rcases guard : g.guard p i with ⟨kind, _ | _⟩
  · simp [disableGuard, guard]
  · cases kind with
    | interrupt y dest =>
      have apart : x ≠ y := by
        rintro rfl
        exact other dest guard
      simp only [disableGuard, guard, if_true]
      exact disableInterruptChannel_of_ne apart
    | chanin _ _ _ | timeout _ =>
      simp only [disableGuard, guard, if_true]
      rfl
    | chanout _ _ | skip => simp only [disableGuard, guard, if_true]

/-- Nobody waits in an interrupt channel after one of its guards was disabled. -/
theorem Globals.disableGuard_ichan_self {x : ChanId} {dest : Option Ptr}
    (guard : g.guard p i = ⟨.interrupt x dest, true⟩) :
    ((g.disableGuard p i).2.2.ichan x).waiting = none := by
  simp only [disableGuard, guard, if_true]
  change ((g.disable.disableInterruptChannel x).2.ichan x).waiting = none
  rw [disableInterruptChannel_self]
  rfl

/-- `disable_alt` changes the timeout queue at a timeout only. -/
theorem Globals.disableGuard_timer :
    (∃ t, g.guard p i = ⟨.timeout t, true⟩ ∧
      (g.disableGuard p i).2.2.timer = (g.timer.disableTimeout t g.now).2) ∨
    (∀ t, g.guard p i ≠ ⟨.timeout t, true⟩) ∧ (g.disableGuard p i).2.2.timer = g.timer := by
  rcases guard : g.guard p i with ⟨kind, _ | _⟩
  · refine Or.inr ⟨fun t same => ?_, ?_⟩
    · cases same
    · simp [disableGuard, guard]
  · cases kind with
    | timeout t =>
      refine Or.inl ⟨t, rfl, ?_⟩
      simp only [disableGuard, guard, if_true]
      rfl
    | chanin _ _ _ | interrupt _ _ =>
      refine Or.inr ⟨fun t same => ?_, ?_⟩
      · cases same
      · simp only [disableGuard, guard, if_true]
        rfl
    | chanout _ _ | skip =>
      refine Or.inr ⟨fun t same => ?_, ?_⟩
      · cases same
      · simp only [disableGuard, guard, if_true]

theorem Globals.disableGuard_timeout :
    (g.disableGuard p i).2.2.timer.timeout = g.timer.timeout := by
  rcases Globals.disableGuard_timer with ⟨t, -, timer⟩ | ⟨-, timer⟩
  · rw [timer, TimerState.disableTimeout_timeout]
  · rw [timer]

/-- The timeout queue stays in order. -/
theorem Globals.disableGuard_ordered (ordered : g.timer.Ordered) :
    (g.disableGuard p i).2.2.timer.Ordered := by
  rcases Globals.disableGuard_timer with ⟨t, -, timer⟩ | ⟨-, timer⟩
  · have shorter := g.timer.removeFromQueue_sublist (g.timer.time t) (g.timer.timeout t).proc
    rw [timer, TimerState.Ordered, TimerState.disableTimeout]
    simp only [TimerState.time, TimerState.removeFromQueue_timeout]
    exact List.Pairwise.sublist shorter ordered
  · rw [timer]
    exact ordered

/-- The visit of a guard by `disable_alt`. -/
theorem Registered.disable (registered : Registered p g (guards ++ [i])) (prepared : Prepared p g)
    (inside : i < (g.proc p).alt.nrGuards) : Registered p (g.disableGuard p i).2.2 guards := by
  have others : ∀ j, j ∈ guards ++ [i] → j ∈ guards ∨ j = i := fun j mem => by
    simpa using mem
  have same : ∀ j, (g.disableGuard p i).2.2.guard p j = g.guard p j := fun j => by simp
  constructor
  · intro c waiting
    obtain ⟨j, mem, dest, len, guard⟩ := registered.chan c (Globals.disableGuard_waiting waiting)
    simp only [same]
    rcases others j mem with earlier | rfl
    · exact ⟨j, earlier, dest, len, guard⟩
    · exact absurd guard (Globals.disableGuard_leaves prepared.running waiting dest len)
  · intro x waiting
    have other : ∀ dest, g.guard p i ≠ ⟨.interrupt x dest, true⟩ := fun dest guard => by
      rw [Globals.disableGuard_ichan_self guard] at waiting
      cases waiting
    rw [Globals.disableGuard_ichan other] at waiting
    obtain ⟨j, mem, dest, guard⟩ := registered.ichan x waiting
    simp only [same]
    rcases others j mem with earlier | rfl
    · exact ⟨j, earlier, dest, guard⟩
    · exact absurd guard (other dest)
  · intro time
    have before := registered.entries time
    rw [List.countP_append, List.countP_singleton] at before
    rcases Globals.disableGuard_timer with ⟨t, guard, timer⟩ | ⟨other, timer⟩
    · have own := prepared.own i t inside guard
      have removed := TimerState.entries_removeFromQueue (p := p) prepared.ordered (g.timer.time t)
      have here : timesAt p g time i = decide (g.timer.time t = time) := by
        unfold timesAt
        rw [guard]
      rw [timesAt_congr same Globals.disableGuard_timeout, timer, TimerState.disableTimeout, own,
        removed.count_eq, List.count_erase]
      simp only [here, decide_eq_true_eq] at before
      split at before
      · rename_i same
        rw [same, beq_self_eq_true, if_pos rfl]
        omega
      · omega
    · have idle : timesAt p g time i = false := by
        unfold timesAt
        split
        · rename_i t guard
          exact absurd guard (other t)
        · rfl
      rw [timesAt_congr same (by rw [timer]), timer]
      simpa [idle] using before

end Guards

/-! ## The loop of `enable_alt` -/

section Enabling

variable {p : Addr} {g g' : Globals} {alt : Alternation}

/-- A step of the process keeps what the ALT starts from. -/
theorem Prepared.own_step (prepared : Prepared p g) (guard : ∀ i, g'.guard p i = g.guard p i)
    (number : (g'.proc p).alt.nrGuards = (g.proc p).alt.nrGuards) (current : g'.current = g.current)
    (timeout : g'.timer.timeout = g.timer.timeout) (ordered : g'.timer.Ordered) : Prepared p g' where
  running := current.trans prepared.running
  outputs i c src inside := by
    rw [number] at inside
    rw [guard]
    exact prepared.outputs i c src inside
  own i t inside same := by
    rw [number] at inside
    rw [guard] at same
    rw [timeout]
    exact prepared.own i t inside same
  ordered := ordered

/-- The first guards in the order of enabling. -/
def firsts (alt : Alternation) (k : Nat) : List Nat :=
  (List.range k).map (nth alt.first alt.nrGuards)

theorem firsts_succ (alt : Alternation) (k : Nat) :
    firsts alt (k + 1) = firsts alt k ++ [nth alt.first alt.nrGuards k] := by
  simp [firsts, List.range_succ]

/-- Where the process stands when `enable_alt` is at a point. -/
def RegisteredAt (p : Addr) (alt : Alternation) (g : Globals) : EnablePc → Prop
  | .enter => Registered p g []
  | .loop _ k _ => Registered p g (firsts alt k)
  | .insert i k t _ => Registered p g (firsts alt k) ∧ g.guard p i = ⟨.timeout t, true⟩
  | .done _ k _ _ => Registered p g (firsts alt (k + 1))

@[simp] theorem Globals.enableGuard_current : (g.enableGuard p i).2.current = g.current := by
  unfold enableGuard
  split
  · split <;> try rfl
    dsimp only
    split <;> rfl
  · rfl

/-- One step of `enable_alt`. -/
theorem RegisteredAt.go {pc pc' : EnablePc} {visits : List (Nat × Bool)}
    (registered : RegisteredAt p alt g pc) (enabled : EnabledAt alt visits pc)
    (prepared : Prepared p g) (same : (g.proc p).alt = alt)
    (goes : activation.go (.enableAlt p pc) g = some (.enableAlt p pc', g')) :
    RegisteredAt p alt g' pc' ∧ Prepared p g' := by
  cases pc with
  | enter =>
    obtain ⟨made, rfl⟩ := go_enable_enter goes
    cases made
    exact ⟨registered, prepared⟩
  | loop i k partner =>
    obtain ⟨bound, rfl, -⟩ := enabled
    rcases Nat.lt_or_ge k alt.nrGuards with more | none
    · have inside : nth alt.first alt.nrGuards k < (g.proc p).alt.nrGuards := by
        rw [same]
        exact Nat.mod_lt _ (by omega)
      obtain ⟨rfl, found⟩ := go_enable_visit (same ▸ more) goes
      generalize Event.enabled p (nth alt.first alt.nrGuards k) = e
      have logged : Registered p (g.emit e) (firsts alt k) :=
        registered.quiet (fun _ => rfl) rfl (fun _ h => h) (fun _ h => h)
      have visited : Registered p ((g.emit e).enableGuard p (nth alt.first alt.nrGuards k)).2
          (firsts alt (k + 1)) := by
        rw [firsts_succ]
        exact logged.enable fun c src => prepared.outputs _ c src inside
      have ready : Prepared p ((g.emit e).enableGuard p (nth alt.first alt.nrGuards k)).2 :=
        prepared.own_step (fun j => by simp only [Globals.guard, Globals.enableGuard_proc]; rfl)
          (by rw [Globals.enableGuard_proc]; rfl) (by rw [Globals.enableGuard_current]; rfl)
          (by rw [Globals.enableGuard_timer]; rfl)
          (by rw [Globals.enableGuard_timer]; exact prepared.ordered)
      rcases found with ⟨-, partner, made⟩ | ⟨-, ⟨partner, made⟩ | ⟨t, partner, made, guard⟩⟩ <;>
        cases made
      · exact ⟨visited, ready⟩
      · exact ⟨visited, ready⟩
      · refine ⟨⟨logged.enable_timeout guard, ?_⟩, ready⟩
        simp only [Globals.guard, Globals.enableGuard_proc]
        exact guard
    · obtain ⟨rfl, positive, made⟩ := go_enable_last (same ▸ Nat.not_lt.mpr none) goes
      cases made
      rw [same] at positive
      have last : k - 1 + 1 = k := by omega
      have later : Registered p g (firsts alt (k - 1 + 1)) := last.symm ▸ registered
      exact ⟨later.quiet (fun _ => rfl) rfl (fun _ h => h) (fun _ h => h),
        prepared.own_step (fun _ => rfl) rfl rfl rfl prepared.ordered⟩
  | insert i k t partner =>
    obtain ⟨more, rfl, -⟩ := enabled
    obtain ⟨registered, guard⟩ := registered
    obtain ⟨-, rfl, made⟩ := go_enable_insert goes
    cases made
    have inside : nth alt.first alt.nrGuards k < (g.proc p).alt.nrGuards := by
      rw [same]
      exact Nat.mod_lt _ (by omega)
    have own := prepared.own _ t inside guard
    refine ⟨?_, prepared.own_step (fun _ => rfl) rfl rfl (TimerState.insertInQueue_timeout ..)
      (prepared.ordered.insertInQueue t _)⟩
    change Registered p _ (firsts alt (k + 1))
    rw [firsts_succ]
    exact registered.insert guard own
  | done i k ready partner => cases goes

/-- Where the process stands when `enable_alt` returns: with guards that it has visited. -/
theorem enable_registers {trace : List (Act × Globals)} {ready : Bool} {partner : Option Addr}
    {after : Globals} (size : alt.nrGuards ≤ 255) (same : (g.proc p).alt = alt)
    (prepared : Prepared p g) (nowhere : Registered p g [])
    (completes : Completes activation (Spares p) (.enableAlt p .enter) g trace (.alt ready partner)
      after) :
    ∃ k, k < alt.nrGuards ∧
      (after.proc p).alt = { alt with index := nth alt.first alt.nrGuards k, count := k } ∧
      Registered p after (firsts alt (k + 1)) ∧ Prepared p after := by
  refine completes.rule
    (fun act g before => ∃ pc, act = Act.enableAlt p pc ∧ (g.proc p).alt = alt ∧
      EnabledAt alt (before.filterMap opening) pc ∧ RegisteredAt p alt g pc ∧ Prepared p g)
    (fun _ _ g' => ∃ k, k < alt.nrGuards ∧
      (g'.proc p).alt = { alt with index := nth alt.first alt.nrGuards k, count := k } ∧
      Registered p g' (firsts alt (k + 1)) ∧ Prepared p g')
    ?_ ?_ ⟨.enter, rfl, same, rfl, nowhere, prepared⟩
  · rintro _ g act g₁ g₂ before ⟨pc, rfl, same, enabled, registered, prepared⟩ goes spares
    obtain ⟨pc', rfl, kept, later⟩ := enabled.go same goes
    obtain ⟨registered, prepared⟩ := registered.go enabled prepared same goes
    refine ⟨pc', rfl, by rw [spares.alt, kept, same], later, ?_, prepared.others spares⟩
    cases pc' with
    | enter => exact registered.others spares
    | loop i k partner => exact Registered.others registered spares
    | insert i k t partner =>
      refine ⟨registered.1.others spares, ?_⟩
      rw [spares.guard]
      exact registered.2
    | done i k ready partner => exact Registered.others registered spares
  · rintro _ g v g' before ⟨pc, rfl, same, enabled, registered, prepared⟩ returns
    obtain ⟨i, k, ready, partner, rfl, rfl, rfl⟩ := done_enable returns
    obtain ⟨more, rfl, -, -⟩ := enabled
    have small : nth alt.first alt.nrGuards k < alt.nrGuards := Nat.mod_lt _ (by omega)
    have guard : ∀ j, (g.setAlt p { (g.proc p).alt with
        index := toUint8 (nth alt.first alt.nrGuards k), count := toUint8 k }).guard p j =
          g.guard p j := fun j => by simp [Globals.guard]
    refine ⟨k, more, ?_, ?_, ?_⟩
    · rw [Globals.setAlt_alt_self, same, toUint8_of_lt size small, toUint8_of_lt size more]
    · exact Registered.quiet registered guard rfl (fun _ h => h) (fun _ h => h)
    · exact prepared.own_step guard (by simp) rfl rfl prepared.ordered

end Enabling

/-! ## The loop of `disable_alt` -/

section Disabling

variable {p : Addr} {g g' : Globals} {first n k : Nat}

/-- Where the process stands when `disable_alt` is at a point. -/
def LeftAt (p : Addr) (first n k : Nat) (g : Globals) : DisablePc → Prop
  | .enter => Registered p g ((List.range (k + 1)).map (nth first n))
  | .loop _ left _ => Registered p g ((List.range left).map (nth first n))
  | .copy _ _ _ _ | .clear _ _ => Registered p g []

/-- One step of `disable_alt`. -/
theorem LeftAt.go {pc pc' : DisablePc} {visits : List (Nat × Bool)} (left : LeftAt p first n k g pc)
    (disabled : DisabledAt first n k (g.proc p).alt visits pc) (prepared : Prepared p g)
    (number : (g.proc p).alt.nrGuards = n)
    (goes : activation.go (.disableAlt p pc) g = some (.disableAlt p pc', g')) :
    LeftAt p first n k g' pc' ∧ Prepared p g' := by
  cases pc with
  | enter =>
    obtain ⟨made, rfl⟩ := go_disable_enter goes
    cases made
    refine ⟨?_, prepared⟩
    change Registered p g' ((List.range ((g'.proc p).alt.count + 1)).map (nth first n))
    rw [disabled.2.2]
    exact left
  | loop i rest partner =>
    cases rest with
    | zero =>
      obtain ⟨c, dest, len, -, made, rfl⟩ := go_disable_last goes
      cases made
      exact ⟨left, prepared⟩
    | succ rest =>
      obtain ⟨e, rfl, positive, made⟩ := go_disable_visit goes
      cases made
      obtain rfl : i = nth first n rest := disabled.2.1 (Nat.succ_pos rest)
      have inside : nth first n rest < (g.proc p).alt.nrGuards := by
        rw [number] at positive ⊢
        exact Nat.mod_lt _ positive
      have logged : Registered p (g.emit e) ((List.range rest).map (nth first n) ++
          [nth first n rest]) := by
        have standing := left
        simp only [LeftAt, List.range_succ, List.map_append] at standing
        exact standing.quiet (fun _ => rfl) rfl (fun _ h => h) (fun _ h => h)
      have before : Prepared p (g.emit e) :=
        prepared.own_step (fun _ => rfl) rfl rfl rfl prepared.ordered
      have guard : ∀ j, (((g.emit e).disableGuard p (nth first n rest)).2.2.select p
          (nth first n rest) (g.disableGuard p (nth first n rest)).1).guard p j = g.guard p j :=
        fun j => by rw [Globals.guard_select, Globals.guard_disableGuard, Globals.guard_emit]
      refine ⟨?_, prepared.own_step guard ?_ ?_ ?_ ?_⟩
      · refine (logged.disable before inside).quiet (fun j => ?_) rfl (fun _ h => h) (fun _ h => h)
        rw [Globals.guard_select]
      · rw [Globals.select, Globals.setAlt_alt_self, Globals.disableGuard_proc]
        rfl
      · exact Globals.disableGuard_current
      · exact Globals.disableGuard_timeout
      · exact Globals.disableGuard_ordered prepared.ordered
  | copy c dest len partner =>
    obtain ⟨vars, -, made, rfl⟩ := go_disable_copy goes
    cases made
    exact ⟨Registered.quiet left (fun _ => rfl) rfl (fun _ h => h) (fun _ h => h),
      prepared.own_step (fun _ => rfl) rfl rfl rfl prepared.ordered⟩
  | clear c partner => cases goes

/-- What a step of `disable_alt` does to the others that wait where the process waits: those that it
takes out of a channel are in the one that is emptied, and those that it takes out of an interrupt
channel in one of its interrupt guards. -/
structure SparesOthers (p : Addr) (g : Globals) (emptied : ChanId → Prop) (h h' : Globals) : Prop where
  /-- In the channels. -/
  chan : ∀ c q, q ≠ p → (h.chan c).waiting = some q → (h'.chan c).waiting = some q ∨ emptied c
  /-- In the interrupt channels. -/
  ichan : ∀ x q, q ≠ p → (h.ichan x).waiting = some q →
    (h'.ichan x).waiting = some q ∨ ∃ i dest, g.guard p i = ⟨.interrupt x dest, true⟩
  /-- In the timeout queue. -/
  queue : ∀ t, (h.timer.timeout t).proc ≠ some p → t ∈ h.timer.queue → t ∈ h'.timer.queue

/-- More channels may be allowed to be emptied. -/
theorem SparesOthers.imp {emptied more : ChanId → Prop} {h h' : Globals}
    (spared : SparesOthers p g emptied h h') (guards : ∀ j, g.guard p j = g'.guard p j)
    (implies : ∀ c, emptied c → more c) : SparesOthers p g' more h h' where
  chan c q other waiting := (spared.chan c q other waiting).imp_right (implies c)
  ichan x q other waiting := by
    simp only [← guards]
    exact spared.ichan x q other waiting
  queue := spared.queue

/-- A step that leaves the channels and the timeout queue alone. -/
theorem SparesOthers.quiet {emptied : ChanId → Prop} {h h' : Globals} (chan : h'.chan = h.chan)
    (ichan : ∀ x, (h'.ichan x).waiting = (h.ichan x).waiting)
    (queue : h'.timer.queue = h.timer.queue) : SparesOthers p g emptied h h' where
  chan c q _ waiting := by
    rw [chan]
    exact Or.inl waiting
  ichan x q _ waiting := by
    rw [ichan]
    exact Or.inl waiting
  queue t _ mem := by
    rw [queue]
    exact mem

/-- The visit of a guard. -/
theorem SparesOthers.visit {emptied : ChanId → Prop} {h : Globals} {i : Nat}
    (prepared : Prepared p h) (inside : i < (h.proc p).alt.nrGuards)
    (guards : ∀ j, h.guard p j = g.guard p j) :
    SparesOthers p g emptied h (h.disableGuard p i).2.2 where
  chan c q other waiting := by
    rw [Globals.disableGuard_chan prepared.running other waiting]
    exact Or.inl waiting
  ichan x q _ waiting := by
    by_cases guard : ∃ dest, h.guard p i = ⟨.interrupt x dest, true⟩
    · obtain ⟨dest, guard⟩ := guard
      exact Or.inr ⟨i, dest, (guards i).symm.trans guard⟩
    · rw [Globals.disableGuard_ichan fun dest same => guard ⟨dest, same⟩]
      exact Or.inl waiting
  queue t other mem := by
    rcases Globals.disableGuard_timer with ⟨t', guard, timer⟩ | ⟨-, timer⟩
    · rw [timer, TimerState.disableTimeout, prepared.own i t' inside guard]
      exact TimerState.mem_removeFromQueue prepared.ordered other mem
    · rw [timer]
      exact mem

/-- One step of `disable_alt` at a point. -/
theorem SparesOthers.step {pc : DisablePc} {visits : List (Nat × Bool)} {h h' : Globals}
    {emptied : ChanId → Prop} (disabled : DisabledAt first n k (h.proc p).alt visits pc)
    (number : (h.proc p).alt.nrGuards = n) (prepared : Prepared p h)
    (guards : ∀ j, h.guard p j = g.guard p j)
    (last : ∀ c partner, pc = .clear c partner → emptied c)
    (steps : activation.Steps (.disableAlt p pc) h h') : SparesOthers p g emptied h h' := by
  rcases steps with ⟨act, goes⟩ | ⟨v, returns⟩
  · cases pc with
    | enter =>
      obtain ⟨-, rfl⟩ := go_disable_enter goes
      exact .quiet rfl (fun _ => rfl) rfl
    | loop i left partner =>
      cases left with
      | zero =>
        obtain ⟨-, -, -, -, -, rfl⟩ := go_disable_last goes
        exact .quiet rfl (fun _ => rfl) rfl
      | succ left =>
        obtain ⟨e, rfl, positive, -⟩ := go_disable_visit goes
        obtain rfl : i = nth first n left := disabled.2.1 (Nat.succ_pos left)
        have inside : nth first n left < (h.proc p).alt.nrGuards := by
          rw [number] at positive ⊢
          exact Nat.mod_lt _ positive
        have before : Prepared p (h.emit e) :=
          prepared.own_step (fun _ => rfl) rfl rfl rfl prepared.ordered
        have visited : SparesOthers p g emptied (h.emit e) _ := .visit before inside guards
        exact ⟨visited.chan, visited.ichan, visited.queue⟩
    | copy c dest len partner =>
      obtain ⟨vars, -, -, rfl⟩ := go_disable_copy goes
      exact .quiet rfl (fun _ => rfl) rfl
    | clear c partner => cases goes
  · obtain ⟨partner, -, ⟨i, rfl, ⟨x, dest, -, rfl⟩ | ⟨rfl, -⟩⟩ | ⟨c, rfl, rfl⟩⟩ :=
      done_disable returns
    · refine .quiet rfl (fun y => ?_) rfl
      rcases eq_or_ne y x with rfl | apart
      · simp [Globals.receiveInterrupt]
      · simp [Globals.receiveInterrupt, Function.update_of_ne apart]
    · exact .quiet rfl (fun _ => rfl) rfl
    · refine ⟨fun d q other waiting => ?_, fun x q other waiting => Or.inl waiting,
        fun t other mem => mem⟩
      rcases eq_or_ne d c with rfl | apart
      · exact Or.inr (last d partner rfl)
      · refine Or.inl ?_
        simpa [Globals.setChan, Function.update_of_ne apart] using waiting

/-- The process stands nowhere. -/
structure Nowhere (p : Addr) (g : Globals) : Prop where
  /-- It waits in no channel. -/
  chan : ∀ c, (g.chan c).waiting ≠ some p
  /-- It waits in no interrupt channel. -/
  ichan : ∀ x, (g.ichan x).waiting ≠ some p
  /-- It has no entry in the timeout queue. -/
  queue : ∀ t ∈ g.timer.queue, (g.timer.timeout t).proc ≠ some p

/-- A process that stands nowhere stands at none of no guards. -/
theorem nowhere_iff : Nowhere p g ↔ Registered p g [] := by
  have none : (∀ t ∈ g.timer.queue, (g.timer.timeout t).proc ≠ some p) ↔ g.timer.entries p = [] := by
    simp [TimerState.entries, timesOf, List.filter_eq_nil_iff]
  constructor
  · rintro ⟨chan, ichan, queue⟩
    refine ⟨fun c waiting => (chan c waiting).elim, fun x waiting => (ichan x waiting).elim,
      fun time => ?_⟩
    rw [none.mp queue]
    exact Nat.zero_le _
  · rintro ⟨chan, ichan, entries⟩
    refine ⟨fun c waiting => ?_, fun x waiting => ?_, none.mpr ?_⟩
    · obtain ⟨i, mem, -⟩ := chan c waiting
      cases mem
    · obtain ⟨i, mem, -⟩ := ichan x waiting
      cases mem
    · refine List.eq_nil_iff_forall_not_mem.mpr fun time mem => ?_
      have counted := List.count_pos_iff.mpr mem
      have bound := entries time
      rw [List.countP_nil] at bound
      omega

end Disabling

/-- What `disable_alt` leaves: the process stands nowhere, and the others still stand where they did,
but for the channel of the selected guard and the interrupt channels of the ALT. -/
structure Undone (p : Addr) (g : Globals) (trace : List (Act × Globals)) (g' : Globals) : Prop where
  /-- The process stands nowhere. -/
  nowhere : Nowhere p g'
  /-- No step has taken another process from elsewhere. -/
  others : ∀ point ∈ trace, ∀ h, activation.Steps point.1 point.2 h →
    SparesOthers p g
      (fun c => ∃ dest len, (g.guard p (g'.proc p).alt.index).kind = .chanin c dest len) point.2 h

/-- The channel that is emptied is that of the guard selected. -/
def EmptiesAt (p : Addr) (g g' : Globals) : DisablePc → Prop
  | .copy c _ _ _ | .clear c _ =>
    ∃ dest len, (g.guard p (g'.proc p).alt.index).kind = .chanin c dest len
  | _ => True

section Disabling

variable {p : Addr} {g g₁ g₂ : Globals} {first n k : Nat}

/-- One step of `disable_alt`. -/
theorem EmptiesAt.go {pc pc' : DisablePc} (empties : EmptiesAt p g g₁ pc)
    (guards : ∀ j, g₁.guard p j = g.guard p j)
    (goes : activation.go (.disableAlt p pc) g₁ = some (.disableAlt p pc', g₂)) :
    EmptiesAt p g g₂ pc' ∧ ∀ j, g₂.guard p j = g.guard p j := by
  cases pc with
  | enter =>
    obtain ⟨made, rfl⟩ := go_disable_enter goes
    cases made
    exact ⟨trivial, guards⟩
  | loop i left partner =>
    cases left with
    | zero =>
      obtain ⟨c, dest, len, kind, made, rfl⟩ := go_disable_last goes
      cases made
      rw [guards] at kind
      exact ⟨⟨dest, len, kind⟩, guards⟩
    | succ left =>
      obtain ⟨e, rfl, positive, made⟩ := go_disable_visit goes
      cases made
      refine ⟨trivial, fun j => ?_⟩
      rw [Globals.guard_select, Globals.guard_disableGuard, Globals.guard_emit, guards]
  | copy c dest len partner =>
    obtain ⟨vars, -, made, rfl⟩ := go_disable_copy goes
    cases made
    exact ⟨empties, guards⟩
  | clear c partner => cases goes

/-- `disable_alt` undoes what `enable_alt` has done. -/
theorem disable_undoes {trace : List (Act × Globals)} {v : Value} {after : Globals}
    (size : n ≤ 255) (number : (g.proc p).alt.nrGuards = n)
    (index : (g.proc p).alt.index = nth first n k) (count : (g.proc p).alt.count = k)
    (prepared : Prepared p g) (registered : Registered p g ((List.range (k + 1)).map (nth first n)))
    (completes : Completes activation (Spares p) (.disableAlt p .enter) g trace v after) :
    Undone p g trace after := by
  refine completes.rule
    (fun act g' before => ∃ pc, act = Act.disableAlt p pc ∧ (g'.proc p).alt.nrGuards = n ∧
      DisabledAt first n k (g'.proc p).alt (before.filterMap closing) pc ∧
      LeftAt p first n k g' pc ∧ Prepared p g' ∧ (∀ j, g'.guard p j = g.guard p j) ∧
      EmptiesAt p g g' pc ∧ ∀ point ∈ before, ∀ h, activation.Steps point.1 point.2 h →
        SparesOthers p g (fun _ => False) point.2 h)
    (fun trace _ g' => Undone p g trace g') ?_ ?_
    ⟨.enter, rfl, number, ⟨rfl, index, count⟩, registered, prepared, fun _ => rfl, trivial,
      fun _ mem => absurd mem List.not_mem_nil⟩
  · rintro _ h act h₁ h₂ before ⟨pc, rfl, number, disabled, left, prepared, guards, empties, spared⟩
      goes spares
    obtain ⟨pc', index, rfl, kept, later⟩ := disabled.go size number goes
    obtain ⟨left, ready⟩ := left.go disabled prepared number goes
    obtain ⟨empties, same⟩ := empties.go guards goes
    refine ⟨pc', rfl, ?_, ?_, ?_, ready.others spares, fun j => ?_, ?_, ?_⟩
    · rw [spares.alt, kept]
      exact number
    · rw [spares.alt]
      exact later
    · cases pc' <;> exact Registered.others left spares
    · rw [spares.guard, same]
    · cases pc' with
      | copy c dest len partner | clear c partner =>
        unfold EmptiesAt at empties ⊢
        rw [spares.alt]
        exact empties
      | enter | loop _ _ _ => trivial
    · intro point mem h' steps
      rcases List.mem_append.mp mem with earlier | now
      · exact spared point earlier h' steps
      · obtain rfl := List.mem_singleton.mp now
        refine .step disabled number prepared guards (fun c partner cleared => ?_) steps
        rw [cleared] at goes
        cases goes
  · rintro _ h v g' before ⟨pc, rfl, number, disabled, left, prepared, guards, empties, spared⟩ returns
    have ended := done_disable returns
    have same : (g'.proc p).alt = (h.proc p).alt := by
      obtain ⟨partner, -, ⟨i, -, ⟨x, dest, -, rfl⟩ | ⟨rfl, -⟩⟩ | ⟨c, -, rfl⟩⟩ := ended <;> rfl
    refine ⟨nowhere_iff.mpr ?_, fun point mem h' steps => ?_⟩
    · obtain ⟨partner, -, ⟨i, rfl, ⟨x, dest, -, rfl⟩ | ⟨rfl, -⟩⟩ | ⟨c, rfl, rfl⟩⟩ := ended
      · refine Registered.quiet left (fun _ => rfl) rfl (fun _ h => h) fun y waiting => ?_
        rcases eq_or_ne y x with rfl | apart
        · simpa [Globals.receiveInterrupt] using waiting
        · simpa [Globals.receiveInterrupt, Function.update_of_ne apart] using waiting
      · exact left
      · refine Registered.quiet left (fun _ => rfl) rfl (fun d waiting => ?_) fun _ h => h
        rcases eq_or_ne d c with rfl | apart
        · simp [Globals.setChan] at waiting
        · simpa [Globals.setChan, Function.update_of_ne apart] using waiting
    · rcases List.mem_append.mp mem with earlier | now
      · exact (spared point earlier h' steps).imp (fun _ => rfl) fun _ => False.elim
      · obtain rfl := List.mem_singleton.mp now
        refine .step disabled number prepared guards (fun c partner cleared => ?_) steps
        subst cleared
        obtain ⟨dest, len, kind⟩ := empties
        exact ⟨dest, len, by rw [same]; exact kind⟩

end Disabling

/-- Disabling undoes enabling, for every ALT without an output and whatever the others do between
the steps. -/
theorem disabling_undoes_enabling {p : Addr} {g g₁ g₂ g₃ : Globals}
    {opened closed : List (Act × Globals)} {ready : Bool} {partner : Option Addr} {v : Value}
    (size : (g.proc p).alt.nrGuards ≤ 255) (prepared : Prepared p g) (nowhere : Nowhere p g)
    (enables : Completes activation (Spares p) (.enableAlt p .enter) g opened (.alt ready partner) g₁)
    (between : Spares p g₁ g₂)
    (disables : Completes activation (Spares p) (.disableAlt p .enter) g₂ closed v g₃) :
    Undone p g closed g₃ := by
  obtain ⟨k, more, left, registered, prepared⟩ :=
    enable_registers size rfl prepared (nowhere_iff.mp nowhere) enables
  have found : (g₂.proc p).alt = _ := between.alt.trans left
  have guards : ∀ j, g₂.guard p j = g.guard p j := fun j => by
    rw [Globals.guard, found, Globals.guard]
  have undone := disable_undoes size (by rw [found]) (by rw [found]) (by rw [found])
    (prepared.others between) (registered.others between) disables
  refine ⟨undone.nowhere, fun point mem h steps => ?_⟩
  have spared := undone.others point mem h steps
  refine spared.imp guards ?_
  rintro c ⟨dest, len, kind⟩
  refine ⟨dest, len, ?_⟩
  rw [← guards]
  exact kind

theorem spares_refl (p : Addr) (g : Globals) : Spares p g g :=
  ⟨rfl, rfl, fun _ h => h, fun _ h => h, fun _ => Nat.le_refl _, fun _ _ _ => rfl, id⟩

/-- A process at record 1024 that comes to a fair ALT with the given guards and stands nowhere. Its
Timeout 0 expires at time 5. -/
def comesToAlt (guards : Nat → Guard) (n index : Nat) : Globals :=
  let g := (zeroBoot 1000).g
  { g.setAlt 1024 ⟨guards, n, index, 0, false⟩ with
    current := some 1024
    timer := { g.timer with timeout := fun _ => ⟨some 1024, 5⟩ } }

theorem comesToAlt_nowhere (guards : Nat → Guard) (n index : Nat) :
    Nowhere 1024 (comesToAlt guards n index) :=
  ⟨fun _ => nofun, fun _ => nofun, nofun⟩

/-- The guards contain no output. -/
theorem comesToAlt_prepared {guards : Nat → Guard} {n index : Nat}
    (outputs : ∀ i c src, guards i ≠ ⟨.chanout c src, true⟩) :
    Prepared 1024 (comesToAlt guards n index) where
  running := rfl
  outputs i c src _ := outputs i c src
  own _ _ _ _ := rfl
  ordered := List.Pairwise.nil

/-- An input, a timeout, an interrupt and a skip guard. -/
def oneOfEach (i : Nat) : Guard :=
  if i = 0 then ⟨.chanin 0 none 0, true⟩ else if i = 1 then ⟨.timeout 0, true⟩
    else if i = 2 then ⟨.interrupt 0 none, true⟩ else ⟨.skip, true⟩

theorem oneOfEach_outputs (i : Nat) (c : ChanId) (src : Option Ptr) :
    oneOfEach i ≠ ⟨.chanout c src, true⟩ := by
  unfold oneOfEach
  split
  · nofun
  · split
    · nofun
    · split <;> nofun

/-- An ALT with one guard of each kind leaves nothing behind. -/
theorem disabling_undoes_enabling_of_each : ∃ closed g₃,
    Undone 1024 (comesToAlt oneOfEach 4 3) closed g₃ := by
  have check : ((altAlone 20 1024 (comesToAlt oneOfEach 4 3)).map fun r => r.2.1) =
      some (.alt true none) := by decide
  obtain ⟨⟨opened, v, g₁, closed, w, g₃⟩, computed, result⟩ := Option.map_eq_some_iff.mp check
  obtain rfl : v = .alt true none := result
  obtain ⟨enables, disables⟩ := completes_alone (spares_refl 1024) computed
  exact ⟨closed, g₃, disabling_undoes_enabling (by decide) (comesToAlt_prepared oneOfEach_outputs)
    (comesToAlt_nowhere ..) enables (spares_refl 1024 g₁) disables⟩

/-- An interrupt that is enabled before a skip guard. -/
def interruptBeforeSkip (i : Nat) : Guard :=
  if i = 1 then ⟨.interrupt 0 none, true⟩ else ⟨.skip, true⟩

theorem interruptBeforeSkip_outputs (i : Nat) (c : ChanId) (src : Option Ptr) :
    interruptBeforeSkip i ≠ ⟨.chanout c src, true⟩ := by
  unfold interruptBeforeSkip
  split <;> nofun

/-- Another process comes to interrupt channel 0. -/
def intrude (g : Globals) : Globals := g.setIchan 0 ⟨some 1064, 0⟩

theorem spares_intrude (g : Globals) : Spares 1024 g (intrude g) where
  alt := rfl
  current := rfl
  chan _ h := h
  ichan x waiting := by
    rcases eq_or_ne x 0 with rfl | apart
    · simp [intrude, Globals.setIchan] at waiting
    · simpa [intrude, Globals.setIchan, Function.update_of_ne apart] using waiting
  entries _ := Nat.le_refl _
  timeout _ _ _ := rfl
  ordered := id

/-- The step takes the other process out of interrupt channel 0. -/
def removesIntruder (point : Act × Globals) : Bool :=
  match activation.go point.1 point.2 with
  | some (_, h) => decide ((point.2.ichan 0).waiting = some 1064 ∧ (h.ichan 0).waiting = none)
  | none => false

/-- Another process that has come to an interrupt channel of the ALT is taken out of it when a skip
guard is selected. -/
theorem sometimes_removes_another : ¬ ∀ p g opened ready partner g₁ g₂ closed v g₃,
    (g.proc p).alt.nrGuards ≤ 255 → Prepared p g → Nowhere p g →
    Completes activation (Spares p) (.enableAlt p .enter) g opened (.alt ready partner) g₁ →
    Spares p g₁ g₂ →
    Completes activation (Spares p) (.disableAlt p .enter) g₂ closed v g₃ →
    Nowhere p g₃ ∧ ∀ point ∈ closed, ∀ h, activation.Steps point.1 point.2 h →
      (∀ c q, q ≠ p → (point.2.chan c).waiting = some q → (h.chan c).waiting = some q ∨
        ∃ dest len, (g.guard p (g₃.proc p).alt.index).kind = .chanin c dest len) ∧
      (∀ x q, q ≠ p → (point.2.ichan x).waiting = some q → (h.ichan x).waiting = some q ∨
        ∃ dest, (g.guard p (g₃.proc p).alt.index).kind = .interrupt x dest) ∧
      ∀ t, (point.2.timer.timeout t).proc ≠ some p → t ∈ point.2.timer.queue →
        t ∈ h.timer.queue := by
  intro always
  have check : ((activation.alone 20 (.enableAlt 1024 .enter)
      (comesToAlt interruptBeforeSkip 2 0)).bind fun r =>
        (activation.alone 20 (.disableAlt 1024 .enter) (intrude r.2.2)).map fun r' =>
          (r.2.1, (r'.2.2.proc 1024).alt.index, r'.1.any removesIntruder)) =
      some (.alt true none, 0, true) := by decide
  obtain ⟨⟨opened, v, g₁⟩, enables, rest⟩ := Option.bind_eq_some_iff.mp check
  obtain ⟨⟨closed, w, g₃⟩, disables, result⟩ := Option.map_eq_some_iff.mp rest
  obtain ⟨made, seen⟩ := Prod.mk.inj result
  obtain ⟨index, removed⟩ := Prod.mk.inj seen
  obtain rfl : v = .alt true none := made
  obtain ⟨point, mem, removes⟩ := List.any_eq_true.mp removed
  unfold removesIntruder at removes
  split at removes
  · rename_i act h goes
    obtain ⟨before, after⟩ := of_decide_eq_true removes
    obtain ⟨-, others⟩ := always 1024 (comesToAlt interruptBeforeSkip 2 0) opened true none g₁
      (intrude g₁) closed w g₃ (by decide) (comesToAlt_prepared interruptBeforeSkip_outputs)
      (comesToAlt_nowhere ..) (.of_alone (spares_refl 1024) enables) (spares_intrude g₁)
      (.of_alone (spares_refl 1024) disables)
    obtain ⟨-, ichan, -⟩ := others point mem h (Or.inl ⟨act, goes⟩)
    rcases ichan 0 1064 (by decide) before with still | ⟨dest, kind⟩
    · rw [after] at still
      cases still
    · have selected : (g₃.proc 1024).alt.index = 0 := index
      rw [selected] at kind
      cases kind
  · cases removes

end Microcsp
