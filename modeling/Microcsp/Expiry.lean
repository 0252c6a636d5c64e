import Microcsp.Library.Transition
import Microcsp.Steps
import Microcsp.TimerQueue

/-!
# The timeout handler

`handle_timeout_interrupt` removes the head of the timeout queue as long as it is due, and makes its
process ready, which may run any process before it returns. The queue is another one then: entries
may be gone, and later ones may have come. The loop reads the head again, and what goes down from
one removal to the next is the number of entries that are due.
-/

open Library

namespace Microcsp

namespace Expiry

/-! ## The loop with the code it calls -/

/-- Where the handler is. -/
inductive Point where
  /-- Its own code goes on here. -/
  | running (pc : TimeoutPc)
  /-- `readyProcessIfNecessary` is in progress for the process. -/
  | calling (pc : TimeoutPc) (p : Addr)
  /-- It has returned. -/
  | returned
  /-- The program has stopped. -/
  | stopped
  deriving DecidableEq, Repr

/-- What happens next. -/
inductive Action where
  /-- A step of the handler's own code. -/
  | own
  /-- The call returns, and leaves these globals. -/
  | back (g : Globals)
  /-- Time passes. -/
  | clock (t : Time)

/-- One step of the handler or of what happens meanwhile. -/
def handlerStep (action : Action) (s : Point × Globals) : Option (Point × Globals) :=
  match action, s.1 with
  | .own, .running pc =>
    match execTimeoutHandler pc s.2 with
    | .next (.timeoutHandler pc) g => some (.running pc, g)
    | .call (.timeoutHandler pc) (.ready q .test) g => some (.calling pc q, g)
    | .ret _ g => some (.returned, g)
    | .stop _ => some (.stopped, s.2)
    | _ => none
  | .back g, .calling pc _ => some (.running pc, g)
  | .clock t, point => some (point, { s.2 with now := t })
  | _, _ => none

/-- One thing that process code does to the timeouts: it removes entries, inserts one that is later
than `now`, stores into an object that is not queued, or programs the timer. -/
inductive Touches (now : Time) : TimerState → TimerState → Prop where
  /-- Entries are removed. -/
  | remove (s : TimerState) (queue : List TimeoutId) (fewer : queue.Sublist s.queue) :
      Touches now s { s with queue := queue }
  /-- An entry that is later is inserted. -/
  | insert (s : TimerState) (t : TimeoutId) (reading : Time) (absent : t ∉ s.queue)
      (later : now < s.time t) : Touches now s (s.insertInQueue t reading)
  /-- An object that is not queued is changed. -/
  | set (s : TimerState) (t : TimeoutId) (value : Timeout) (absent : t ∉ s.queue) :
      Touches now s { s with timeout := Function.update s.timeout t value }
  /-- The timer is programmed. -/
  | shot (s : TimerState) (shot : Option Shot) : Touches now s { s with timer := shot }

/-- The code that a call runs does any number of these. -/
def Leaves (now : Time) : TimerState → TimerState → Prop := Relation.ReflTransGen (Touches now)

/-- The call returns after process code that inserts only later entries, and the clock is read before
time passes. -/
def Allowed (action : Action) (s : Point × Globals) : Prop :=
  match action, s.1 with
  | .back g, .calling (.resume now) _ => Leaves now s.2.timer g.timer
  | .clock _, .running .enter => False
  | _, _ => True

/-- What an observer of the handler's own steps writes down. -/
structure Record where
  /-- The entries they removed, with the values then, the last one first. -/
  removed : List Timeout
  /-- The processes they passed to `readyProcessIfNecessary`, the last one first. -/
  calls : List Addr
  /-- Their number. -/
  steps : Nat

/-- The entries that were in the queue and are no longer. -/
def gone (before after : TimerState) : List TimeoutId :=
  before.queue.filter fun t => decide (t ∉ after.queue)

/-- Write down a step of the handler's own code. -/
def noteStep (action : Action) (before after : Point × Globals) (r : Record) : Record :=
  match action with
  | .own =>
    { removed := (gone before.2.timer after.2.timer).map before.2.timer.timeout ++ r.removed
      calls := (match after.1 with
        | .calling _ q => [q]
        | _ => []) ++ r.calls
      steps := r.steps + 1 }
  | _ => r

/-- The handler with its observer. -/
def expiryStep : Action → (Point × Globals) × Record → Option ((Point × Globals) × Record) :=
  observed handlerStep noteStep

/-- The number of entries that are due. -/
def dueCount (now : Time) (s : TimerState) : Nat := s.queue.countP fun t => decide (s.time t ≤ now)

/-! ## What process code leaves -/

section Leaves

variable {now : Time} {s s' : TimerState}

/-- What process code keeps of the queue. -/
structure Proper (now limit : Time) (count : Nat) (s : TimerState) : Prop where
  /-- The order of the times. -/
  ordered : s.Ordered
  /-- No entry is there twice. -/
  nodup : s.queue.Nodup
  /-- No entry is earlier than this. -/
  above : ∀ t ∈ s.queue, limit ≤ s.time t
  /-- No more entries than this are due. -/
  count : dueCount now s ≤ count

/-- Each thing that process code does keeps it, for a limit that is not later than now. -/
theorem Proper.touches {limit : Time} {count : Nat} (proper : Proper now limit count s)
    (past : limit ≤ now) (touches : Touches now s s') : Proper now limit count s' := by
  obtain ⟨ordered, nodup, above, bound⟩ := proper
  cases touches with
  | remove queue fewer =>
    exact ⟨ordered.sublist fewer, nodup.sublist fewer, fun t mem => above t (fewer.subset mem),
      Nat.le_trans fewer.countP_le bound⟩
  | insert t reading absent later =>
    have queue := s.insertInQueue_queue t reading
    have whole : (s.queue.takeWhile fun curr => decide (s.time curr ≤ s.time t)) ++
        (s.queue.dropWhile fun curr => decide (s.time curr ≤ s.time t)) = s.queue :=
      List.takeWhile_append_dropWhile
    refine ⟨ordered.insertInQueue t reading, ?_, fun u mem => ?_, ?_⟩
    · rw [queue, List.nodup_middle, whole]
      exact List.nodup_cons.mpr ⟨absent, nodup⟩
    · rw [TimerState.insertInQueue_time]
      rcases TimerState.mem_insertInQueue.mp mem with rfl | before
      · exact UInt64.le_trans past (UInt64.le_of_lt later)
      · exact above u before
    · have notDue : ¬s.time t ≤ now := UInt64.not_le.mpr later
      simp only [dueCount, TimerState.insertInQueue_time, queue]
      rw [List.countP_append, List.countP_cons_of_neg (by simpa using notDue),
        ← List.countP_append, whole]
      exact bound
  | set t value absent =>
    have same : ∀ u ∈ s.queue, TimerState.time
        { s with timeout := Function.update s.timeout t value } u = s.time u := by
      intro u mem
      have other : u ≠ t := by
        rintro rfl
        exact absent mem
      simp only [TimerState.time, Function.update_of_ne other]
    refine ⟨?_, nodup, fun u mem => ?_, ?_⟩
    · refine ordered.imp_of_mem fun {a b} left right le => ?_
      rw [same a left, same b right]
      exact le
    · rw [same u mem]
      exact above u mem
    · have equal : dueCount now { s with timeout := Function.update s.timeout t value } =
          dueCount now s := by
        refine List.countP_congr fun u mem => ?_
        rw [same u mem]
      rw [equal]
      exact bound
  | shot shot => exact ⟨ordered, nodup, above, bound⟩

/-- So does a whole call. -/
theorem Proper.leaves {limit : Time} {count : Nat} (proper : Proper now limit count s)
    (past : limit ≤ now) (leaves : Leaves now s s') : Proper now limit count s' := by
  induction leaves with
  | refl => exact proper
  | tail _ touches ih => exact ih.touches past touches

/-- `enable_timeout` inserts only later entries when the clock does not go back. -/
theorem leaves_enableTimeout {t : TimeoutId} (absent : t ∉ s.queue) {first second : Time}
    (order : now ≤ first) : Leaves now s (s.enableTimeout t first second).2 := by
  unfold TimerState.enableTimeout
  split
  · exact .refl
  · rename_i waits
    refine .single (.insert s t second absent ?_)
    have later : first < s.time t := by simpa [TimerState.due, UInt64.not_le] using waits
    exact UInt64.lt_of_le_of_lt order later

/-- `disable_timeout` removes entries. -/
theorem leaves_disableTimeout (t : TimeoutId) (reading : Time) :
    Leaves now s (s.disableTimeout t reading).2 := by
  have fewer := s.removeFromQueue_sublist (s.time t) (s.timeout t).proc
  have rest : (s.disableTimeout t reading).2 =
      { s with queue := (s.removeFromQueue (s.time t) (s.timeout t).proc).2.queue } := by
    simp only [TimerState.disableTimeout, TimerState.removeFromQueue]
    split
    · rfl
    · split <;> rfl
  rw [rest]
  exact .single (.remove s _ fewer)

end Leaves

/-! ## The invariant -/

/-- What the observer's notes have to do with the queue. -/
structure Tidy (now : Time) (s : TimerState) (r : Record) : Prop where
  /-- The order of the times. -/
  ordered : s.Ordered
  /-- No entry is there twice. -/
  nodup : s.queue.Nodup
  /-- What was removed was due. -/
  due : ∀ e ∈ r.removed, e.time ≤ now
  /-- What is left is not earlier than what was removed. -/
  left : ∀ e ∈ r.removed, ∀ t ∈ s.queue, e.time ≤ s.time t
  /-- Nothing was removed after a later entry. -/
  order : r.removed.Pairwise fun later earlier => earlier.time ≤ later.time
  /-- The process of each entry was passed on. -/
  passed : r.removed.map Timeout.proc = r.calls.map some

/-- What the handler knows at each point, and that the steps it has left are bounded by the entries
that are due. -/
def Known (now : Time) (bound : Nat) (s : Point × Globals) (r : Record) : Prop :=
  let queue := s.2.timer.queue
  let due := dueCount now s.2.timer
  match s.1 with
  | .running .enter => r = ⟨[], [], 0⟩ ∧ s.2.now = now ∧ r.steps + 3 * due + 2 ≤ bound
  | .running (.test n head) => n = now ∧ head = queue.head? ∧ r.steps + 3 * due + 1 ≤ bound
  | .running (.remove n t) =>
    n = now ∧ queue.head? = some t ∧ s.2.timer.time t ≤ now ∧ r.steps + 3 * due ≤ bound
  | .calling (.resume n) _ => n = now ∧ r.steps + 3 * due + 2 ≤ bound
  | .running (.resume n) => n = now ∧ r.steps + 3 * due + 2 ≤ bound
  | .returned => (∀ t ∈ queue, now < s.2.timer.time t) ∧ r.steps ≤ bound
  | .stopped =>
    (∃ t, queue.head? = some t ∧ s.2.timer.time t ≤ now ∧ (s.2.timer.timeout t).proc = none) ∧
      r.steps ≤ bound
  | _ => False

/-- The handler's own code goes on, and keeps the invariant. -/
def GoesOn (now : Time) (bound : Nat) (s : Point × Globals) (r : Record) : Prop :=
  ∃ next, handlerStep .own s = some next ∧ Tidy now next.2.timer (noteStep .own s next r) ∧
    Known now bound next (noteStep .own s next r)

section Steps

variable {now : Time} {bound : Nat} {g : Globals} {r : Record}

/-- Nothing is gone where the queue is the same. -/
theorem gone_same {s s' : TimerState} (same : s'.queue = s.queue) : gone s s' = [] := by
  rw [gone, same, List.filter_eq_nil_iff]
  intro t mem
  simpa using mem

/-- The first entry is gone when the queue starts behind it. -/
theorem gone_head {s s' : TimerState} {t : TimeoutId} {rest : List TimeoutId} (nodup : s.queue.Nodup)
    (before : s.queue = t :: rest) (after : s'.queue = rest) : gone s s' = [t] := by
  rw [before] at nodup
  obtain ⟨once, -⟩ := List.nodup_cons.mp nodup
  have others : rest.filter (fun u => decide (u ∉ rest)) = [] := by
    rw [List.filter_eq_nil_iff]
    intro u mem
    simpa using mem
  rw [gone, before, after, List.filter_cons_of_pos (by simpa using once), others]

@[simp] theorem restart_queue (s : TimerState) (now : Time) : (s.restart now).queue = s.queue := by
  unfold TimerState.restart
  split <;> rfl

/-- In a queue whose head is not due, nothing is. -/
theorem later_of_head {s : TimerState} (ordered : s.Ordered)
    (head : ∀ t, s.queue.head? = some t → now < s.time t) : ∀ t ∈ s.queue, now < s.time t := by
  intro t mem
  obtain ⟨first, rest, queue⟩ := List.exists_cons_of_ne_nil (List.ne_nil_of_mem mem)
  have later := head first (by rw [queue, List.head?_cons])
  rw [TimerState.Ordered, queue] at ordered
  rw [queue] at mem
  rcases List.mem_cons.mp mem with rfl | behind
  · exact later
  · exact UInt64.lt_of_lt_of_le later (List.rel_of_pairwise_cons ordered behind)

/-- A step that leaves the queue and calls nothing is only counted. -/
theorem noteStep_counted {point point' : Point} {g' : Globals}
    (same : g'.timer.queue = g.timer.queue) (calls : ∀ pc q, point' ≠ .calling pc q) :
    noteStep .own (point, g) (point', g') r = { r with steps := r.steps + 1 } := by
  cases point' with
  | calling pc q => exact absurd rfl (calls pc q)
  | _ => simp only [noteStep, gone_same same, List.map_nil, List.nil_append]

/-- Steps that are only counted keep the notes tidy. -/
theorem Tidy.counted {s : TimerState} (tidy : Tidy now s r) (steps : Nat) :
    Tidy now s { r with steps := steps } :=
  ⟨tidy.ordered, tidy.nodup, tidy.due, tidy.left, tidy.order, tidy.passed⟩

/-- So does a new setting of the timer. -/
theorem Tidy.restart {s : TimerState} (tidy : Tidy now s r) : Tidy now (s.restart now) r := by
  have time : (s.restart now).time = s.time := by
    funext t
    simp [TimerState.time]
  refine ⟨?_, ?_, tidy.due, ?_, tidy.order, tidy.passed⟩
  · simpa only [TimerState.Ordered, restart_queue, time] using tidy.ordered
  · simpa only [restart_queue] using tidy.nodup
  · simpa only [restart_queue, time] using tidy.left

/-- The removal of the head is written down with the call for its process. -/
theorem Tidy.removed {s : TimerState} {t : TimeoutId} {rest : List TimeoutId} {q : Addr}
    (tidy : Tidy now s r) (queue : s.queue = t :: rest) (due : s.time t ≤ now)
    (owner : (s.timeout t).proc = some q) (steps : Nat) :
    Tidy now s.removeHead ⟨s.timeout t :: r.removed, q :: r.calls, steps⟩ := by
  have after : s.removeHead.queue = rest := by
    rw [TimerState.removeHead, queue, List.tail_cons]
  have ordered := tidy.ordered
  have nodup := tidy.nodup
  rw [TimerState.Ordered, queue] at ordered
  rw [queue] at nodup
  obtain ⟨first, ordered⟩ := List.pairwise_cons.mp ordered
  have fewer : ∀ u ∈ rest, u ∈ s.queue := fun u mem => queue ▸ List.mem_cons_of_mem _ mem
  have own : t ∈ s.queue := queue ▸ List.mem_cons_self
  constructor
  · rw [TimerState.Ordered, after]
    exact ordered
  · rw [after]
    exact (List.nodup_cons.mp nodup).2
  · exact List.forall_mem_cons.mpr ⟨due, tidy.due⟩
  · rw [after]
    refine List.forall_mem_cons.mpr ⟨first, fun e mem u behind => ?_⟩
    exact tidy.left e mem u (fewer u behind)
  · exact List.pairwise_cons.mpr ⟨fun e mem => tidy.left e mem t own, tidy.order⟩
  · rw [List.map_cons, List.map_cons, owner, tidy.passed]

/-- Process code that inserts only later entries keeps the notes tidy, and makes no more entries
due. -/
theorem Tidy.leaves {s s' : TimerState} (tidy : Tidy now s r) (leaves : Leaves now s s') :
    Tidy now s' r ∧ dueCount now s' ≤ dueCount now s := by
  have proper : ∀ limit, limit ≤ now → (∀ t ∈ s.queue, limit ≤ s.time t) →
      Proper now limit (dueCount now s) s' := fun limit past above =>
    (⟨tidy.ordered, tidy.nodup, above, Nat.le_refl _⟩ : Proper now limit _ s).leaves past leaves
  have kept := proper 0 (UInt64.zero_le) fun _ _ => UInt64.zero_le
  refine ⟨⟨kept.ordered, kept.nodup, tidy.due, fun e mem => ?_, tidy.order, tidy.passed⟩, kept.count⟩
  exact (proper e.time (tidy.due e mem) (tidy.left e mem)).above

/-- Where nothing is due any more the handler returns. -/
theorem return_step {head : Option TimeoutId} (tidy : Tidy now g.timer r)
    (later : ∀ t ∈ g.timer.queue, now < g.timer.time t) (room : r.steps + 1 ≤ bound)
    (stepped : handlerStep .own (.running (.test now head), g) =
      some (.returned, { g with timer := g.timer.restart now })) :
    GoesOn now bound (.running (.test now head), g) r := by
  have noted : noteStep .own (.running (.test now head), g)
      (.returned, { g with timer := g.timer.restart now }) r = { r with steps := r.steps + 1 } :=
    noteStep_counted (restart_queue _ _) nofun
  have time : (g.timer.restart now).time = g.timer.time := by
    funext t
    simp [TimerState.time]
  refine ⟨_, stepped, ?_, ?_⟩
  · rw [noted]
    exact tidy.restart.counted _
  · rw [noted]
    refine ⟨?_, room⟩
    simpa only [restart_queue, time] using later

/-- The head of the loop: the head of the queue is due, or nothing is. -/
theorem test_step {head : Option TimeoutId} (tidy : Tidy now g.timer r)
    (first : head = g.timer.queue.head?) (left : r.steps + 3 * dueCount now g.timer + 1 ≤ bound) :
    GoesOn now bound (.running (.test now head), g) r := by
  have room : r.steps + 1 ≤ bound := by omega
  have later : (∀ t, g.timer.queue.head? = some t → now < g.timer.time t) →
      ∀ t ∈ g.timer.queue, now < g.timer.time t := later_of_head tidy.ordered
  rw [← first] at later
  cases head with
  | none => exact return_step tidy (later (by simp)) room rfl
  | some t =>
    by_cases due : g.timer.time t ≤ now
    · have stepped : handlerStep .own (.running (.test now (some t)), g) =
          some (.running (.remove now t), g) := by
        simp [handlerStep, execTimeoutHandler, TimerState.due, due]
      have noted : noteStep .own (.running (.test now (some t)), g) (.running (.remove now t), g) r =
          { r with steps := r.steps + 1 } := noteStep_counted rfl (by simp)
      refine ⟨_, stepped, ?_, ?_⟩
      · rw [noted]
        exact tidy.counted _
      · rw [noted]
        refine ⟨rfl, first.symm, due, ?_⟩
        calc r.steps + 1 + 3 * dueCount now g.timer
          _ = r.steps + 3 * dueCount now g.timer + 1 := by omega
          _ ≤ bound := left
    · refine return_step tidy (later fun u is => ?_) room ?_
      · obtain rfl := Option.some.inj is
        exact UInt64.not_le.mp due
      · simp [handlerStep, execTimeoutHandler, TimerState.due, due]

/-- The removal of a due entry, and the call for its process. -/
theorem remove_step {t : TimeoutId} (tidy : Tidy now g.timer r)
    (head : g.timer.queue.head? = some t) (due : g.timer.time t ≤ now)
    (left : r.steps + 3 * dueCount now g.timer ≤ bound) :
    GoesOn now bound (.running (.remove now t), g) r := by
  obtain ⟨rest, queue⟩ : ∃ rest, g.timer.queue = t :: rest := List.head?_eq_some_iff.mp head
  have count : dueCount now g.timer = dueCount now g.timer.removeHead + 1 := by
    simp only [dueCount, TimerState.removeHead, queue, List.tail_cons, TimerState.time]
    exact List.countP_cons_of_pos (decide_eq_true due)
  cases owner : (g.timer.timeout t).proc with
  | none =>
    have stepped : handlerStep .own (.running (.remove now t), g) = some (.stopped, g) := by
      simp [handlerStep, execTimeoutHandler, queue, readyOrFault, owner]
    have noted : noteStep .own (.running (.remove now t), g) (.stopped, g) r =
        { r with steps := r.steps + 1 } := noteStep_counted rfl (by simp)
    refine ⟨_, stepped, ?_, ?_⟩
    · rw [noted]
      exact tidy.counted _
    · rw [noted]
      exact ⟨⟨t, head, due, owner⟩, by change r.steps + 1 ≤ bound; omega⟩
  | some q =>
    let g' := enterReady { g with timer := g.timer.removeHead } q
    have timer : g'.timer = g.timer.removeHead := rfl
    have stepped : handlerStep .own (.running (.remove now t), g) =
        some (.calling (.resume now) q, g') := by
      simp [handlerStep, execTimeoutHandler, queue, readyOrFault, owner, g']
    have after : g.timer.removeHead.queue = rest := by
      rw [TimerState.removeHead, queue, List.tail_cons]
    have noted : noteStep .own (.running (.remove now t), g) (.calling (.resume now) q, g') r =
        ⟨g.timer.timeout t :: r.removed, q :: r.calls, r.steps + 1⟩ := by
      simp only [noteStep, timer, gone_head tidy.nodup queue after, List.map_cons, List.map_nil,
        List.singleton_append]
    refine ⟨_, stepped, ?_, ?_⟩
    · rw [noted]
      exact tidy.removed queue due owner _
    · rw [noted]
      refine ⟨rfl, ?_⟩
      simp only [timer]
      omega

/-- The call has returned: the head of the queue is read again. -/
theorem resume_step (tidy : Tidy now g.timer r)
    (left : r.steps + 3 * dueCount now g.timer + 2 ≤ bound) :
    GoesOn now bound (.running (.resume now), g) r := by
  have noted : noteStep .own (.running (.resume now), g)
      (.running (.test now g.timer.queue.head?), g) r = { r with steps := r.steps + 1 } :=
    noteStep_counted rfl (by simp)
  refine ⟨_, rfl, ?_, ?_⟩
  · rw [noted]
    exact tidy.counted _
  · rw [noted]
    refine ⟨rfl, rfl, ?_⟩
    change r.steps + 1 + 3 * dueCount now g.timer + 1 ≤ bound
    omega

/-- The clock and the head of the queue are read. -/
theorem enter_step (tidy : Tidy now g.timer r) (reading : g.now = now)
    (left : r.steps + 3 * dueCount now g.timer + 2 ≤ bound) :
    GoesOn now bound (.running .enter, g) r := by
  subst reading
  have noted : noteStep .own (.running .enter, g)
      (.running (.test g.now g.timer.queue.head?), g) r = { r with steps := r.steps + 1 } :=
    noteStep_counted rfl (by simp)
  refine ⟨_, rfl, ?_, ?_⟩
  · rw [noted]
    exact tidy.counted _
  · rw [noted]
    refine ⟨rfl, rfl, ?_⟩
    change r.steps + 1 + 3 * dueCount g.now g.timer + 1 ≤ bound
    omega

/-- At every point of its own code the handler goes on. -/
theorem own_step {pc : TimeoutPc} (tidy : Tidy now g.timer r)
    (known : Known now bound (.running pc, g) r) : GoesOn now bound (.running pc, g) r := by
  cases pc with
  | enter => exact enter_step tidy known.2.1 known.2.2
  | test n head =>
    obtain ⟨rfl, first, left⟩ := known
    exact test_step tidy first left
  | remove n t =>
    obtain ⟨rfl, head, due, left⟩ := known
    exact remove_step tidy head due left
  | resume n =>
    obtain ⟨rfl, left⟩ := known
    exact resume_step tidy left

end Steps

/-- The steps made are within the bound. -/
theorem Known.steps_le {now : Time} {bound : Nat} {point : Point} {g : Globals} {r : Record}
    (known : Known now bound (point, g) r) : r.steps ≤ bound := by
  cases point with
  | running pc =>
    cases pc with
    | enter =>
      have left : r.steps + 3 * dueCount now g.timer + 2 ≤ bound := known.2.2
      omega
    | test n head =>
      have left : r.steps + 3 * dueCount now g.timer + 1 ≤ bound := known.2.2
      omega
    | remove n t =>
      have left : r.steps + 3 * dueCount now g.timer ≤ bound := known.2.2.2
      omega
    | resume n =>
      have left : r.steps + 3 * dueCount now g.timer + 2 ≤ bound := known.2
      omega
  | calling pc q =>
    cases pc with
    | resume n =>
      have left : r.steps + 3 * dueCount now g.timer + 2 ≤ bound := known.2
      omega
    | _ => cases known
  | returned => exact known.2
  | stopped => exact known.2

/-- Every step keeps the invariant. -/
theorem known_step {now : Time} {bound : Nat} {action : Action} {s s' : Point × Globals}
    {r : Record} (tidy : Tidy now s.2.timer r) (known : Known now bound s r)
    (allowed : Allowed action s) (stepped : handlerStep action s = some s') :
    Tidy now s'.2.timer (noteStep action s s' r) ∧ Known now bound s' (noteStep action s s' r) := by
  obtain ⟨point, g⟩ := s
  cases action with
  | own =>
    cases point with
    | running pc =>
      obtain ⟨next, made, kept⟩ := own_step tidy known
      obtain rfl := Option.some.inj (made.symm.trans stepped)
      exact kept
    | _ => cases stepped
  | back g' =>
    cases point with
    | calling pc q =>
      obtain rfl := Option.some.inj stepped
      cases pc with
      | resume n =>
        obtain ⟨rfl, left⟩ := known
        obtain ⟨tidy, fewer⟩ := tidy.leaves allowed
        refine ⟨tidy, rfl, ?_⟩
        change r.steps + 3 * dueCount n g'.timer + 2 ≤ bound
        have before : r.steps + 3 * dueCount n g.timer + 2 ≤ bound := left
        have fewer : dueCount n g'.timer ≤ dueCount n g.timer := fewer
        omega
      | _ => cases known
    | _ => cases stepped
  | clock t =>
    have same : s' = (point, { g with now := t }) := by
      cases point <;> exact (Option.some.inj stepped).symm
    subst same
    refine ⟨tidy, ?_⟩
    cases point with
    | running pc =>
      cases pc with
      | enter => cases allowed
      | _ => exact known
    | calling pc q => cases pc <;> exact known
    | _ => exact known

/-! ## The result -/

/-- The handler does its work with the entries that are due. -/
structure Complete (now : Time) (due : Nat) (s : Point × Globals) (r : Record) : Prop where
  /-- Its own steps are bounded by the number of entries due at its start. -/
  ends : r.steps ≤ 3 * due + 2
  /-- Its own code never gets stuck before it returns. -/
  proceeds : ∀ pc, s.1 = .running pc → ∃ s', handlerStep .own s = some s'
  /-- The program stops only where a due entry has no process to pass on. -/
  stops : s.1 = .stopped → ∃ t, s.2.timer.queue.head? = some t ∧ s.2.timer.time t ≤ now ∧
    (s.2.timer.timeout t).proc = none
  /-- When it returns, nothing is due. -/
  served : s.1 = .returned → ∀ t ∈ s.2.timer.queue, now < s.2.timer.time t
  /-- Its own steps removed only entries that were due. -/
  due : ∀ e ∈ r.removed, e.time ≤ now
  /-- The process of each was passed to `readyProcessIfNecessary` once, in the same order. -/
  passed : r.removed.map Timeout.proc = r.calls.map some
  /-- They were removed in the order of their times. -/
  order : r.removed.Pairwise fun later earlier => earlier.time ≤ later.time

/-- For every ordered queue and every reading of the clock, whatever the processes made ready do in
between that inserts only later entries, the handler serves all that is due and comes to an end. -/
theorem handler_complete {g : Globals} (ordered : g.timer.Ordered) (nodup : g.timer.queue.Nodup)
    {last : (Point × Globals) × Record}
    (run : Run expiryStep (fun action both => Allowed action both.1)
      ((.running .enter, g), ⟨[], [], 0⟩) last) :
    Complete g.now (dueCount g.now g.timer) last.1 last.2 := by
  have inv : Tidy g.now last.1.2.timer last.2 ∧
      Known g.now (3 * dueCount g.now g.timer + 2) last.1 last.2 := by
    refine run.invariant (fun both => Tidy g.now both.1.2.timer both.2 ∧
      Known g.now (3 * dueCount g.now g.timer + 2) both.1 both.2) ?_ ?_
    · refine ⟨⟨ordered, nodup, ?_, ?_, .nil, rfl⟩, rfl, rfl, ?_⟩
      · exact nofun
      · exact nofun
      · simp
    · rintro action ⟨s, r⟩ ⟨s', r'⟩ ⟨tidy, known⟩ allowed stepped
      obtain ⟨stepped, noted⟩ := observed_eq_some.mp stepped
      obtain rfl : r' = noteStep action s s' r := noted
      exact known_step tidy known allowed stepped
  obtain ⟨⟨point, g'⟩, r⟩ := last
  obtain ⟨tidy, known⟩ := inv
  refine ⟨known.steps_le, ?_, ?_, ?_, tidy.due, tidy.passed, tidy.order⟩
  · rintro pc rfl
    obtain ⟨next, stepped, -⟩ := own_step tidy known
    exact ⟨next, stepped⟩
  · rintro rfl
    exact known.1
  · rintro rfl
    exact known.1

/-- Some run leads to a state like this. -/
def Reaches (goal : (Point × Globals) × Record → Prop) (s : Point × Globals) (r : Record) : Prop :=
  ∃ last, Run expiryStep (fun action both => Allowed action both.1) (s, r) last ∧ goal last

/-- The run starts with a step of the handler's own code. -/
theorem Reaches.own {goal : (Point × Globals) × Record → Prop} {s next : Point × Globals}
    {r : Record} (stepped : handlerStep .own s = some next)
    (reaches : Reaches goal next (noteStep .own s next r)) : Reaches goal s r := by
  obtain ⟨last, run, is⟩ := reaches
  have allowed : Allowed .own s := by simp [Allowed]
  have made : expiryStep .own (s, r) = some (next, noteStep .own s next r) :=
    observed_eq_some.mpr ⟨stepped, rfl⟩
  exact ⟨last, Run.head allowed made run, is⟩

/-- The run starts with the return of the call. -/
theorem Reaches.back {goal : (Point × Globals) × Record → Prop} {now : Time} {q : Addr}
    {g : Globals} {r : Record} (g' : Globals) (leaves : Leaves now g.timer g'.timer)
    (reaches : Reaches goal (.running (.resume now), g') r) :
    Reaches goal (.calling (.resume now) q, g) r := by
  obtain ⟨last, run, is⟩ := reaches
  have allowed : Allowed (.back g') (.calling (.resume now) q, g) := leaves
  have made : expiryStep (.back g') ((.calling (.resume now) q, g), r) =
      some ((.running (.resume now), g'), r) := rfl
  exact ⟨last, Run.head allowed made run, is⟩

/-- At 200, with entries of processes 1024 and 1064 at 100 and 150 and an object of process 1104 at
300. -/
def twoDue : Globals :=
  { (zeroBoot 0).g with
    now := 200
    timer := ⟨fun t => if t = 0 then ⟨some 1024, 100⟩ else if t = 1 then ⟨some 1064, 150⟩
      else ⟨some 1104, 300⟩, [0, 1], none⟩ }

theorem twoDue_ordered : twoDue.timer.Ordered := by
  simp [TimerState.Ordered, twoDue, TimerState.time]

/-- The first call lets a process insert the third entry, and both due ones are served. -/
theorem handler_complete_two : ∃ last : (Point × Globals) × Record,
    Complete twoDue.now (dueCount twoDue.now twoDue.timer) last.1 last.2 ∧
      last.1.1 = .returned ∧ last.1.2.timer.queue = [2] ∧ last.2.calls = [1064, 1024] := by
  have inserted : Leaves 200 twoDue.timer.removeHead (twoDue.timer.removeHead.insertInQueue 2 210) :=
    .single (.insert _ 2 210 (by decide) (by decide))
  let g₁ := { twoDue with timer := twoDue.timer.removeHead.insertInQueue 2 210 }
  let g₂ := { twoDue with timer := g₁.timer.removeHead }
  have reaches : Reaches (fun last => last.1.1 = .returned ∧ last.1.2.timer.queue = [2] ∧
      last.2.calls = [1064, 1024]) (.running .enter, twoDue) ⟨[], [], 0⟩ := by
    refine .own rfl (.own rfl (.own rfl (.back g₁ inserted ?_)))
    refine .own rfl (.own rfl (.own rfl (.back g₂ .refl ?_)))
    exact .own rfl (.own rfl ⟨_, .refl _, rfl, rfl, rfl⟩)
  obtain ⟨last, run, returned⟩ := reaches
  exact ⟨last, handler_complete twoDue_ordered (by decide) run, returned⟩

end Expiry

end Microcsp
