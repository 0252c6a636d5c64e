import Mathlib.Data.List.Sort
import Mathlib.Data.List.TakeWhile
import Microcsp.Timer

/-!
# The order of the timeout queue

Insertion keeps the queue in the order of its times and adds one entry, and removal only takes
entries out.
-/

namespace Microcsp

namespace TimerState

/-- The queue is in the order of its times. -/
def Ordered (s : TimerState) : Prop := s.queue.Pairwise fun a b => s.time a ≤ s.time b

/-- The queue after an insertion. -/
theorem insertInQueue_queue (s : TimerState) (t : TimeoutId) (now : Time) :
    (s.insertInQueue t now).queue =
      (s.queue.takeWhile fun curr => decide (s.time curr ≤ s.time t)) ++
        t :: s.queue.dropWhile fun curr => decide (s.time curr ≤ s.time t) := by
  simp only [insertInQueue]
  split
  · rename_i none
    rw [none]
    rfl
  · rename_i some
    rw [some]

@[simp] theorem insertInQueue_time (s : TimerState) (t u : TimeoutId) (now : Time) :
    (s.insertInQueue t now).time u = s.time u := by
  simp [time]

/-- An entry is inserted after those that are not later than it. -/
theorem pairwise_insert (time : TimeoutId → Time) (t : TimeoutId) {queue : List TimeoutId}
    (ordered : queue.Pairwise fun a b => time a ≤ time b) :
    ((queue.takeWhile fun curr => decide (time curr ≤ time t)) ++
      t :: queue.dropWhile fun curr => decide (time curr ≤ time t)).Pairwise
        fun a b => time a ≤ time b := by
  induction queue with
  | nil => simp
  | cons head rest ih =>
    obtain ⟨first, ordered⟩ := List.pairwise_cons.mp ordered
    by_cases passed : time head ≤ time t
    · simp only [List.takeWhile_cons, List.dropWhile_cons, passed, decide_true, if_true,
        List.cons_append]
      refine List.pairwise_cons.mpr ⟨fun u mem => ?_, ih ordered⟩
      rcases List.mem_append.mp mem with before | after
      · exact first u (List.takeWhile_subset _ before)
      · rcases List.mem_cons.mp after with rfl | later
        · exact passed
        · exact first u (List.dropWhile_subset _ later)
    · have above : time t ≤ time head := UInt64.le_of_lt (UInt64.not_le.mp passed)
      simp only [List.takeWhile_cons, List.dropWhile_cons, passed, decide_false, Bool.false_eq_true,
        if_false, List.nil_append]
      refine List.pairwise_cons.mpr ⟨fun u mem => ?_, List.pairwise_cons.mpr ⟨first, ordered⟩⟩
      rcases List.mem_cons.mp mem with rfl | later
      · exact above
      · exact UInt64.le_trans above (first u later)

theorem Ordered.insertInQueue {s : TimerState} (ordered : s.Ordered) (t : TimeoutId) (now : Time) :
    (s.insertInQueue t now).Ordered := by
  simp only [Ordered, insertInQueue_queue, insertInQueue_time]
  exact pairwise_insert s.time t ordered

/-- The two scans of `removeFromQueue` pass the first entries of the queue. -/
theorem scanned_append_drop (s : TimerState) (time : Time) (proc : Option Addr) :
    s.scanned time proc ++ s.queue.drop (s.scanned time proc).length = s.queue := by
  have first : s.scanned time proc <+: s.queue := by
    refine ⟨(s.queue.dropWhile fun curr => decide (s.time curr < time)).dropWhile fun curr =>
      decide (s.time curr = time ∧ (s.timeout curr).proc ≠ proc), ?_⟩
    rw [scanned, List.append_assoc, List.takeWhile_append_dropWhile,
      List.takeWhile_append_dropWhile]
  exact (List.prefix_iff_eq_append.mp first)

/-- What `removeFromQueue` leaves is what was there, in its order. -/
theorem removeFromQueue_sublist (s : TimerState) (time : Time) (proc : Option Addr) :
    (s.removeFromQueue time proc).2.queue.Sublist s.queue := by
  have whole := s.scanned_append_drop time proc
  simp only [removeFromQueue]
  split
  · exact List.Sublist.refl _
  · rename_i curr after reached
    rw [reached] at whole
    split
    · have shorter : (s.scanned time proc ++ after).Sublist (s.scanned time proc ++ curr :: after) :=
        List.Sublist.append_left (List.sublist_cons_self curr after) _
      rwa [whole] at shorter
    · exact List.Sublist.refl _

/-- The scans of `removeFromQueue` pass no entry with the time and the process looked for. -/
theorem mem_scanned {s : TimerState} {time : Time} {proc : Option Addr} {t : TimeoutId}
    (mem : t ∈ s.scanned time proc) (same : s.time t = time) : (s.timeout t).proc ≠ proc := by
  rcases List.mem_append.mp mem with earlier | equal
  · have below := List.mem_takeWhile_imp earlier
    rw [same] at below
    simp at below
  · have passed := List.mem_takeWhile_imp equal
    exact (of_decide_eq_true passed).2

/-- What comes after the entries that are earlier than a time is not earlier. -/
theorem le_of_mem_dropWhile (time : TimeoutId → Time) (limit : Time) {queue : List TimeoutId}
    (ordered : queue.Pairwise fun a b => time a ≤ time b) :
    ∀ t ∈ queue.dropWhile fun curr => decide (time curr < limit), limit ≤ time t := by
  induction queue with
  | nil => exact nofun
  | cons head rest ih =>
    obtain ⟨first, ordered⟩ := List.pairwise_cons.mp ordered
    by_cases earlier : time head < limit
    · simpa only [List.dropWhile_cons, earlier, decide_true, if_true] using ih ordered
    · simp only [List.dropWhile_cons, earlier, decide_false, Bool.false_eq_true, if_false]
      have above : limit ≤ time head := UInt64.not_lt.mp earlier
      rintro t mem
      rcases List.mem_cons.mp mem with rfl | behind
      · exact above
      · exact UInt64.le_trans above (first t behind)

/-- Where the scans of `removeFromQueue` stop. -/
theorem drop_scanned (s : TimerState) (time : Time) (proc : Option Addr) :
    s.queue.drop (s.scanned time proc).length =
      (s.queue.dropWhile fun t => decide (s.time t < time)).dropWhile fun t =>
        decide (s.time t = time ∧ (s.timeout t).proc ≠ proc) := by
  rw [← List.append_cancel_left_eq (s.scanned time proc), s.scanned_append_drop, scanned,
    List.append_assoc, List.takeWhile_append_dropWhile, List.takeWhile_append_dropWhile]

/-- The entry that the scans of `removeFromQueue` stop at, and those after it, are later if it is not
the one looked for. -/
theorem later_of_scanned {s : TimerState} (ordered : s.Ordered) {time : Time} {proc : Option Addr}
    {curr : TimeoutId} {after : List TimeoutId}
    (reached : s.queue.drop (s.scanned time proc).length = curr :: after)
    (other : ¬ (s.time curr = time ∧ (s.timeout curr).proc = proc)) :
    ∀ t ∈ curr :: after, time < s.time t := by
  have left : curr :: after = (s.queue.dropWhile fun t => decide (s.time t < time)).dropWhile fun t =>
      decide (s.time t = time ∧ (s.timeout t).proc ≠ proc) := by
    rw [← reached, drop_scanned]
  have sorted : (curr :: after).Pairwise fun a b => s.time a ≤ s.time b := by
    rw [← reached]
    exact ordered.sublist (List.drop_sublist _ _)
  have notEarlier : time ≤ s.time curr := by
    have mem : curr ∈ curr :: after := List.mem_cons_self
    rw [left] at mem
    exact le_of_mem_dropWhile s.time time ordered curr (List.dropWhile_subset _ mem)
  have notEqual : s.time curr ≠ time := by
    have head := congrArg List.head? left
    rw [← List.find?_not_eq_head?_dropWhile] at head
    have stopped := List.find?_some head.symm
    intro same
    have passed : (s.timeout curr).proc ≠ proc := fun expected => other ⟨same, expected⟩
    simp [same, passed] at stopped
  have later : time < s.time curr :=
    UInt64.lt_of_le_of_ne notEarlier fun same => notEqual same.symm
  intro t mem
  rcases List.mem_cons.mp mem with rfl | behind
  · exact later
  · exact UInt64.lt_of_lt_of_le later (List.rel_of_pairwise_cons sorted behind)

/-- The entry has the time and the process that `removeFromQueue` looks for. -/
def sought (s : TimerState) (time : Time) (proc : Option Addr) (t : TimeoutId) : Bool :=
  decide (s.time t = time ∧ (s.timeout t).proc = proc)

/-- What `removeFromQueue` comes to: the first entry looked for is taken out and returned. Where there
is none, nothing is taken out, and an entry that is later is returned if there is one. -/
inductive Removal (s : TimerState) (time : Time) (proc : Option Addr) :
    Option TimeoutId × TimerState → Prop where
  /-- The first entry with the time and the process. -/
  | found (before : List TimeoutId) (curr : TimeoutId) (after : List TimeoutId)
      (split : s.queue = before ++ curr :: after) (first : ∀ t ∈ before, ¬s.sought time proc t)
      (is : s.sought time proc curr) :
      Removal s time proc (some curr, { s with queue := before ++ after })
  /-- No such entry, and one that is later. -/
  | passed (curr : TimeoutId) (missing : ∀ t ∈ s.queue, ¬s.sought time proc t) (mem : curr ∈ s.queue)
      (later : time < s.time curr) : Removal s time proc (some curr, s)
  /-- No such entry, and none that is later. -/
  | absent (missing : ∀ t ∈ s.queue, ¬s.sought time proc t) (last : ∀ t ∈ s.queue, s.time t ≤ time) :
      Removal s time proc (none, s)

/-- The scans of `removeFromQueue` pass no entry that is later. -/
theorem scanned_le {s : TimerState} {time : Time} {proc : Option Addr} {t : TimeoutId}
    (mem : t ∈ s.scanned time proc) : s.time t ≤ time := by
  rcases List.mem_append.mp mem with earlier | equal
  · have below := List.mem_takeWhile_imp earlier
    exact UInt64.le_of_lt (of_decide_eq_true below)
  · have passed := List.mem_takeWhile_imp equal
    rw [(of_decide_eq_true passed).1]
    exact UInt64.le_refl _

theorem removeFromQueue_removal {s : TimerState} (ordered : s.Ordered) (time : Time)
    (proc : Option Addr) : Removal s time proc (s.removeFromQueue time proc) := by
  have whole := s.scanned_append_drop time proc
  have passed : ∀ t ∈ s.scanned time proc, ¬s.sought time proc t := fun t mem is =>
    mem_scanned mem (of_decide_eq_true is).1 (of_decide_eq_true is).2
  simp only [removeFromQueue]
  split
  · rename_i none
    rw [none, List.append_nil] at whole
    exact .absent (fun t mem => passed t (whole ▸ mem)) fun t mem => scanned_le (whole ▸ mem)
  · rename_i curr after reached
    split
    · rename_i found
      rw [reached] at whole
      exact .found _ curr after whole.symm passed (decide_eq_true found)
    · rename_i other
      have later := later_of_scanned ordered reached other
      refine .passed curr (fun t mem is => ?_) ?_ (later curr List.mem_cons_self)
      · rw [← whole, reached] at mem
        rcases List.mem_append.mp mem with before | from_here
        · exact passed t before is
        · have above := later t from_here
          rw [(of_decide_eq_true is).1] at above
          exact UInt64.lt_irrefl _ above
      · rw [← whole, reached]
        exact List.mem_append_right _ List.mem_cons_self

/-- `removeFromQueue` takes out an entry with the time and the process looked for, if there is
one. -/
theorem removeFromQueue_cases {s : TimerState} (ordered : s.Ordered) (time : Time)
    (proc : Option Addr) :
    (∃ before curr after, s.queue = before ++ curr :: after ∧ s.time curr = time ∧
      (s.timeout curr).proc = proc ∧
      (s.removeFromQueue time proc).2 = { s with queue := before ++ after }) ∨
    (s.removeFromQueue time proc).2 = s ∧ ∀ t ∈ s.queue, s.time t = time → (s.timeout t).proc ≠ proc := by
  have removal := removeFromQueue_removal ordered time proc
  generalize s.removeFromQueue time proc = result at removal
  cases removal with
  | found before curr after split first is =>
    obtain ⟨same, own⟩ := of_decide_eq_true is
    exact Or.inl ⟨before, curr, after, split, same, own, rfl⟩
  | passed curr missing mem later =>
    exact Or.inr ⟨rfl, fun t mem same own => missing t mem (decide_eq_true ⟨same, own⟩)⟩
  | absent missing last =>
    exact Or.inr ⟨rfl, fun t mem same own => missing t mem (decide_eq_true ⟨same, own⟩)⟩

/-- An insertion is the stable one: the entry comes after all that are not later. -/
theorem insertInQueue_orderedInsert (s : TimerState) (t : TimeoutId) (now : Time) :
    (s.insertInQueue t now).queue = s.queue.orderedInsert (fun a b => s.time a < s.time b) t := by
  rw [insertInQueue_queue, List.orderedInsert_eq_take_drop]
  simp only [UInt64.not_lt]

/-- A removal is the erasure of the first entry looked for. -/
theorem removeFromQueue_eraseP {s : TimerState} (ordered : s.Ordered) (time : Time)
    (proc : Option Addr) :
    (s.removeFromQueue time proc).2.queue = s.queue.eraseP (s.sought time proc) := by
  have removal := removeFromQueue_removal ordered time proc
  generalize s.removeFromQueue time proc = result at removal
  cases removal with
  | found before curr after split first is =>
    rw [split, List.eraseP_append_right _ first, List.eraseP_cons_of_pos is]
  | passed curr missing mem later => exact (List.eraseP_of_forall_not missing).symm
  | absent missing last => exact (List.eraseP_of_forall_not missing).symm

/-- An insertion adds one entry. -/
theorem mem_insertInQueue {s : TimerState} {t u : TimeoutId} {now : Time} :
    u ∈ (s.insertInQueue t now).queue ↔ u = t ∨ u ∈ s.queue := by
  have whole : s.queue.takeWhile (fun curr => decide (s.time curr ≤ s.time t)) ++
      s.queue.dropWhile (fun curr => decide (s.time curr ≤ s.time t)) = s.queue :=
    List.takeWhile_append_dropWhile
  rw [insertInQueue_queue, List.mem_append, List.mem_cons, or_left_comm, ← List.mem_append, whole]

end TimerState

end Microcsp
