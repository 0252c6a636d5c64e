import Microcsp.Library.Transition
import Microcsp.Library.Walk
import Microcsp.TimerQueue

/-!
# The timeout queue in memory

The queue of `timer.c` with its links: the three operations walk along them with a trailing pointer
and store into one or two of them. Elsewhere the queue is the list that the links spell; here the
operations on the links are shown to be those on the list, in every sequence of calls.
-/

open Library

namespace Microcsp

/-- The state of `timer.c` with the link of each `Timeout`. -/
structure TimerLinks where
  /-- The `Timeout` objects without their links. -/
  timeout : TimeoutId → Timeout
  /-- `next` of each `Timeout`. -/
  next : TimeoutId → Option TimeoutId
  /-- `timerQ.head` -/
  head : Option TimeoutId
  /-- The armed one-shot timer. -/
  timer : Option Shot

namespace TimerLinks

/-- The time of an entry. -/
def time (s : TimerLinks) (t : TimeoutId) : Time := (s.timeout t).time

/-- Store one link. -/
def setNext (s : TimerLinks) (t : TimeoutId) (next : Option TimeoutId) : TimerLinks :=
  { s with next := Function.update s.next t next }

/-- `set_timer_single(TIMER_TIMEOUT, interval)` -/
def setTimerSingle (s : TimerLinks) (now interval : Time) : TimerLinks :=
  let interval := if interval > 0 then interval else 0
  { s with timer := if interval = 0 then none else some ⟨now, interval⟩ }

/-- The end of `insertInQueue` at the place the loop comes to; `now` is the reading taken after an
insertion at the head. -/
def insertAt (s : TimerLinks) (timeout : TimeoutId) (now : Time) (prev curr : Option TimeoutId) :
    TimerLinks :=
  match prev, curr with
  | none, none =>
    ({ s with head := some timeout }.setNext timeout none).setTimerSingle now (s.time timeout - now)
  | none, some curr =>
    ({ s with head := some timeout }.setNext timeout (some curr)).setTimerSingle now
      (s.time timeout - now)
  | some prev, some curr => (s.setNext prev (some timeout)).setNext timeout (some curr)
  | some prev, none => (s.setNext prev (some timeout)).setNext timeout none

/-- `insertInQueue`, with a number of steps for its loop; nothing is returned when they do not do. -/
def insertInQueue (s : TimerLinks) (fuel : Nat) (timeout : TimeoutId) (now : Time) :
    Option TimerLinks :=
  (walk s.next (fun curr => decide (s.time timeout ≥ s.time curr)) fuel none s.head).map
    fun (prev, curr) => s.insertAt timeout now prev curr

/-- The end of `removeFromQueue` at the place the loops come to. -/
def removeAt (s : TimerLinks) (time : Time) (proc : Option Addr) (prev curr : Option TimeoutId) :
    Option TimeoutId × TimerLinks :=
  match curr with
  | none => (none, s)
  | some t =>
    if s.time t = time ∧ (s.timeout t).proc = proc then
      let unlinked := match prev with
        | some p => s.setNext p (s.next t)
        | none => s
      (some t, if unlinked.head = some t then { unlinked with head := unlinked.next t } else unlinked)
    else (some t, s)

/-- `removeFromQueue`, with a number of steps for each of its loops. -/
def removeFromQueue (s : TimerLinks) (fuel : Nat) (time : Time) (proc : Option Addr) :
    Option (Option TimeoutId × TimerLinks) :=
  (walk s.next (fun curr => decide (s.time curr < time)) fuel none s.head).bind fun (prev, curr) =>
    (walk s.next (fun curr => decide (s.time curr = time ∧ (s.timeout curr).proc ≠ proc)) fuel
      prev curr).map fun (prev, curr) => s.removeAt time proc prev curr

/-- `removeHead`; nothing is returned where it reads through a NULL pointer. -/
def removeHead (s : TimerLinks) : Option (TimeoutId × TimerLinks) :=
  s.head.map fun timeout => (timeout, { s with head := s.next timeout })

/-- The links spell the queue, and the rest is the same. -/
structure Spells (s : TimerLinks) (l : TimerState) : Prop where
  /-- The links from the head. -/
  chain : Chain s.next s.head l.queue
  /-- The objects. -/
  timeout : s.timeout = l.timeout
  /-- The timer. -/
  timer : s.timer = l.timer

namespace Spells

variable {s : TimerLinks} {l : TimerState} (spells : Spells s l)
include spells

theorem time_eq (t : TimeoutId) : s.time t = l.time t := by
  rw [TimerLinks.time, spells.timeout]
  rfl

/-- `insertInQueue` on the links is that on the list, for an object that is not queued. -/
theorem insertInQueue {t : TimeoutId} (absent : t ∉ l.queue) {fuel : Nat}
    (enough : l.queue.length ≤ fuel) (now : Time) :
    ∃ s', s.insertInQueue fuel t now = some s' ∧ Spells s' (l.insertInQueue t now) := by
  have walked := walk_eq spells.chain (fun curr => decide (s.time t ≥ s.time curr)) enough none
  have pass : (fun curr => decide (s.time t ≥ s.time curr)) =
      fun curr => decide (l.time curr ≤ l.time t) := by
    funext curr
    rw [spells.time_eq, spells.time_eq]
  have parts : (l.queue.takeWhile fun curr => decide (l.time curr ≤ l.time t)) ++
      (l.queue.dropWhile fun curr => decide (l.time curr ≤ l.time t)) = l.queue :=
    List.takeWhile_append_dropWhile
  have chain := spells.chain
  rw [← parts] at chain absent
  refine ⟨_, by rw [TimerLinks.insertInQueue, walked]; rfl, ?_⟩
  simp only [TimerState.insertInQueue, pass, Option.or_none]
  generalize (l.queue.takeWhile fun curr => decide (l.time curr ≤ l.time t)) = before at *
  generalize (l.queue.dropWhile fun curr => decide (l.time curr ≤ l.time t)) = after at *
  rcases List.eq_nil_or_concat' before with rfl | ⟨early, p, rfl⟩
  · have front := chain.insert_front absent
    rw [chain.head_eq] at front
    have timer : ∀ curr, (s.insertAt t now none curr).timer =
        (l.setTimerSingle now (l.time t - now)).timer := by
      intro curr
      rw [← spells.time_eq]
      cases curr <;> rfl
    refine ⟨?_, ?_, timer _⟩ <;> cases after
    · exact front
    · exact front
    · exact spells.timeout
    · exact spells.timeout
  · rw [List.append_assoc, List.singleton_append] at chain absent
    have behind := chain.insert_after absent
    have queue : early ++ p :: t :: after = (early ++ [p]) ++ t :: after := by
      rw [List.append_assoc, List.singleton_append]
    rw [queue] at behind
    obtain ⟨first, more, whole⟩ : ∃ first more, early ++ [p] = first :: more := by
      cases early <;> exact ⟨_, _, rfl⟩
    rw [List.getLast?_concat]
    rw [whole] at behind ⊢
    refine ⟨?_, ?_, ?_⟩ <;> cases after
    · exact behind
    · exact behind
    · exact spells.timeout
    · exact spells.timeout
    · exact spells.timer
    · exact spells.timer

/-- `removeFromQueue` on the links is that on the list, with the same result. -/
theorem removeFromQueue {fuel : Nat} (enough : l.queue.length ≤ fuel) (time : Time)
    (proc : Option Addr) :
    ∃ s', s.removeFromQueue fuel time proc = some ((l.removeFromQueue time proc).1, s') ∧
      Spells s' (l.removeFromQueue time proc).2 := by
  have earlier : (fun curr => decide (s.time curr < time)) =
      fun curr => decide (l.time curr < time) := by
    funext curr
    rw [spells.time_eq]
  have equal : (fun curr => decide (s.time curr = time ∧ (s.timeout curr).proc ≠ proc)) =
      fun curr => decide (l.time curr = time ∧ (l.timeout curr).proc ≠ proc) := by
    funext curr
    rw [spells.time_eq, spells.timeout]
  have first := walk_eq spells.chain (fun curr => decide (l.time curr < time)) enough none
  have parts : (l.queue.takeWhile fun curr => decide (l.time curr < time)) ++
      (l.queue.dropWhile fun curr => decide (l.time curr < time)) = l.queue :=
    List.takeWhile_append_dropWhile
  have left : Chain s.next (l.queue.dropWhile fun curr => decide (l.time curr < time)).head?
      (l.queue.dropWhile fun curr => decide (l.time curr < time)) := by
    have chain := spells.chain
    rw [← parts] at chain
    exact chain.rest
  have fewer : (l.queue.dropWhile fun curr => decide (l.time curr < time)).length ≤ fuel :=
    Nat.le_trans (List.dropWhile_sublist _).length_le enough
  have second := walk_eq left
    (fun curr => decide (l.time curr = time ∧ (l.timeout curr).proc ≠ proc)) fewer
    (l.queue.takeWhile fun curr => decide (l.time curr < time)).getLast?
  rw [← l.drop_scanned, ← List.getLast?_append] at second
  have walked : s.removeFromQueue fuel time proc = some (s.removeAt time proc
      (l.scanned time proc).getLast? (l.queue.drop (l.scanned time proc).length).head?) := by
    simp only [TimerLinks.removeFromQueue, earlier, equal, first, Option.or_none,
      Option.bind_some, second]
    rfl
  rw [walked]
  have chain := spells.chain
  have whole := l.scanned_append_drop time proc
  simp only [TimerState.removeFromQueue]
  cases reached : l.queue.drop (l.scanned time proc).length with
  | nil => exact ⟨s, rfl, spells⟩
  | cons curr after =>
    rw [reached] at whole
    rw [← whole] at chain
    simp only [List.head?_cons, removeAt, spells.time_eq, spells.timeout]
    by_cases found : l.time curr = time ∧ (l.timeout curr).proc = proc
    · rw [if_pos found, if_pos found]
      refine ⟨_, rfl, ?_⟩
      generalize l.scanned time proc = before at chain
      rcases List.eq_nil_or_concat' before with rfl | ⟨early, p, rfl⟩
      · have head : s.head = some curr := chain.head_eq
        simp only [List.getLast?_nil, head, if_true, List.nil_append]
        exact ⟨chain.behind, spells.timeout, spells.timer⟩
      · have later : s.head ≠ some curr := by
          intro same
          have nodup := chain.nodup
          rw [chain.head_eq] at same
          cases early with
          | nil =>
            obtain rfl : p = curr := by simpa using same
            simp at nodup
          | cons b early =>
            obtain rfl : b = curr := by simpa using same
            simp at nodup
        rw [List.append_assoc, List.singleton_append] at chain
        have behind := chain.remove_after
        simp only [List.getLast?_concat, setNext, if_neg later]
        rw [List.append_assoc, List.singleton_append]
        exact ⟨behind, spells.timeout, spells.timer⟩
    · rw [if_neg found, if_neg found]
      exact ⟨s, rfl, spells⟩

/-- `removeHead` on the links is that on the list, for a queue that is not empty. -/
theorem removeHead {t : TimeoutId} {rest : List TimeoutId} (queue : l.queue = t :: rest) :
    ∃ s', s.removeHead = some (t, s') ∧ Spells s' l.removeHead := by
  have chain := spells.chain
  rw [queue] at chain
  have head : s.head = some t := chain.head_eq
  refine ⟨{ s with head := s.next t }, by rw [TimerLinks.removeHead, head]; rfl, ?_, spells.timeout,
    spells.timer⟩
  rw [TimerState.removeHead, queue]
  rw [head] at chain
  cases chain with
  | cons chain => exact chain

end Spells

/-- The list that the links spell. -/
def listed (s : TimerLinks) (queue : List TimeoutId) : TimerState := ⟨s.timeout, queue, s.timer⟩

theorem spells_listed {s : TimerLinks} {queue : List TimeoutId}
    (chain : Chain s.next s.head queue) : Spells s (s.listed queue) := ⟨chain, rfl, rfl⟩

/-! ## What `removeFromQueue` reports -/

/-- The result of a removal from one queue that leaves another says what was removed. -/
structure Reports (s : TimerLinks) (time : Time) (proc : Option Addr)
    (queue : List TimeoutId) (result : Option TimeoutId) (queue' : List TimeoutId) : Prop where
  /-- NULL is returned exactly where the queue is unchanged. -/
  nothing : result = none ↔ queue' = queue
  /-- An entry that is returned has the time and the process, was there and is no longer. -/
  entry : ∀ t, result = some t →
    s.time t = time ∧ (s.timeout t).proc = proc ∧ t ∈ queue ∧ t ∉ queue'

/-- In every ordered queue, `removeFromQueue` reports what it removed exactly where there is an entry
with the time and the process, or none is later. -/
theorem removal_reported_iff {s : TimerLinks} {queue : List TimeoutId}
    (chain : Chain s.next s.head queue) (ordered : queue.Pairwise fun a b => s.time a ≤ s.time b)
    {fuel : Nat} (enough : queue.length ≤ fuel) (time : Time) (proc : Option Addr) :
    ∃ result s' queue', s.removeFromQueue fuel time proc = some (result, s') ∧
      Chain s'.next s'.head queue' ∧
      (Reports s time proc queue result queue' ↔
        (∃ t ∈ queue, s.time t = time ∧ (s.timeout t).proc = proc) ∨
          ∀ t ∈ queue, s.time t ≤ time) := by
  obtain ⟨s', removed, spells⟩ := (spells_listed chain).removeFromQueue enough time proc
  refine ⟨_, s', _, removed, spells.chain, ?_⟩
  have sorted : (s.listed queue).Ordered := ordered
  have removal := TimerState.removeFromQueue_removal sorted time proc
  generalize (s.listed queue).removeFromQueue time proc = result at removal
  cases removal with
  | found before curr after split first is =>
    have whole : queue = before ++ curr :: after := split
    have sought : s.time curr = time ∧ (s.timeout curr).proc = proc := of_decide_eq_true is
    have mem : curr ∈ queue := by
      rw [whole]
      exact List.mem_append_right _ List.mem_cons_self
    have gone : curr ∉ before ++ after := by
      have nodup := chain.nodup
      rw [whole] at nodup
      exact (List.nodup_middle.mp nodup).notMem
    refine iff_of_true ⟨iff_of_false nofun fun same => ?_, fun t is => ?_⟩
      (Or.inl ⟨curr, mem, sought⟩)
    · have same : before ++ after = queue := same
      rw [same] at gone
      exact gone mem
    · obtain rfl : curr = t := Option.some.inj is
      exact ⟨sought.1, sought.2, mem, gone⟩
  | passed curr missing mem later =>
    refine iff_of_false (fun reports => ?_) ?_
    · have none := reports.nothing.mpr rfl
      cases none
    · rintro (⟨t, is, sought⟩ | last)
      · exact missing t is (decide_eq_true sought)
      · exact UInt64.not_le.mpr later (last curr mem)
  | absent missing last => exact iff_of_true ⟨iff_of_true rfl rfl, nofun⟩ (Or.inr last)

/-- Two entries in this order, of process 1024 at 100 and of process 1064 at 200. -/
def twoEntries : TimerLinks where
  timeout t := if t = 0 then ⟨some 1024, 100⟩ else ⟨some 1064, 200⟩
  next t := if t = 0 then some 1 else none
  head := some 0
  timer := none

theorem twoEntries_chain : Chain twoEntries.next twoEntries.head [0, 1] := .cons (.cons .nil)

theorem twoEntries_ordered : [0, 1].Pairwise fun a b => twoEntries.time a ≤ twoEntries.time b := by
  simp [twoEntries, time]

/-- The second entry is looked for and removed. -/
theorem removal_reported_iff_second :
    ∃ result s' queue', twoEntries.removeFromQueue 2 200 (some 1064) = some (result, s') ∧
      Chain s'.next s'.head queue' ∧
      (Reports twoEntries 200 (some 1064) [0, 1] result queue' ↔
        (∃ t ∈ [0, 1], twoEntries.time t = 200 ∧ (twoEntries.timeout t).proc = some 1064) ∨
          ∀ t ∈ [0, 1], twoEntries.time t ≤ 200) :=
  removal_reported_iff twoEntries_chain twoEntries_ordered (by decide) 200 (some 1064)

/-- An entry at 150 is looked for; there is none, and the entry at 200 is returned and stays. -/
theorem removal_not_reported : ∃ s', twoEntries.removeFromQueue 2 150 (some 1064) = some (some 1, s') ∧
    Chain s'.next s'.head [0, 1] ∧ ¬Reports twoEntries 150 (some 1064) [0, 1] (some 1) [0, 1] := by
  refine ⟨twoEntries, rfl, twoEntries_chain, fun reports => ?_⟩
  have none := reports.nothing.mpr rfl
  cases none

/-! ## Sequences of calls -/

/-- The calls on the queue, and stores into a `Timeout` by its owner. -/
inductive TimerOp where
  /-- `insertInQueue` -/
  | insert (fuel : Nat) (timeout : TimeoutId) (now : Time)
  /-- `removeFromQueue` -/
  | remove (fuel : Nat) (time : Time) (proc : Option Addr)
  /-- `removeHead` -/
  | removeHead
  /-- `time` and `proc` are stored. -/
  | set (timeout : TimeoutId) (value : Timeout)

/-- One call that returns. -/
def timerStep (op : TimerOp) (s : TimerLinks) : Option TimerLinks :=
  match op with
  | .insert fuel timeout now => s.insertInQueue fuel timeout now
  | .remove fuel time proc => (s.removeFromQueue fuel time proc).map Prod.snd
  | .removeHead => s.removeHead.map Prod.snd
  | .set timeout value => some { s with timeout := Function.update s.timeout timeout value }

/-- An entry with the number of insertions before its own. -/
structure Inserted where
  /-- The entry. -/
  timeout : TimeoutId
  /-- When it was inserted. -/
  stamp : Nat
  deriving DecidableEq, Repr

/-- Entries are in the order of their times, and for equal times in that of their insertions. -/
def Inserted.Before (time : TimeoutId → Time) (x y : Inserted) : Prop :=
  time x.timeout < time y.timeout ∨ time x.timeout = time y.timeout ∧ x.stamp < y.stamp

/-- What the calls are for. -/
structure Agenda where
  /-- The entries. -/
  entries : List Inserted
  /-- The number of insertions so far. -/
  insertions : Nat
  deriving DecidableEq, Repr

/-- The calls on the list: an insertion behind the entries that are not later, the erasure of the
first entry with the time and the process, and the removal of the first entry. -/
def noteAgenda (op : TimerOp) (before _ : TimerLinks) (a : Agenda) : Agenda :=
  match op with
  | .insert _ timeout _ =>
    let earlier := fun x y : Inserted => before.time x.timeout < before.time y.timeout
    ⟨a.entries.orderedInsert earlier ⟨timeout, a.insertions⟩, a.insertions + 1⟩
  | .remove _ time proc =>
    let sought := fun x : Inserted =>
      decide (before.time x.timeout = time ∧ (before.timeout x.timeout).proc = proc)
    { a with entries := a.entries.eraseP sought }
  | .removeHead => { a with entries := a.entries.tail }
  | .set _ _ => a

/-- The calls in memory with the list they are for. -/
def agendaStep : TimerOp → TimerLinks × Agenda → Option (TimerLinks × Agenda) :=
  observed timerStep noteAgenda

/-- An entry is inserted and changed only while it is not queued, and the head is removed only of a
queue that is not empty. -/
def Proper (op : TimerOp) (both : TimerLinks × Agenda) : Prop :=
  match op with
  | .insert _ timeout _ => timeout ∉ both.2.entries.map Inserted.timeout
  | .remove _ _ _ => True
  | .removeHead => both.2.entries ≠ []
  | .set timeout _ => timeout ∉ both.2.entries.map Inserted.timeout

instance (op : TimerOp) (both : TimerLinks × Agenda) : Decidable (Proper op both) :=
  match op with
  | .insert _ timeout _ =>
    inferInstanceAs (Decidable (timeout ∉ both.2.entries.map Inserted.timeout))
  | .remove _ _ _ => inferInstanceAs (Decidable True)
  | .removeHead => inferInstanceAs (Decidable (both.2.entries ≠ []))
  | .set timeout _ => inferInstanceAs (Decidable (timeout ∉ both.2.entries.map Inserted.timeout))

/-- The steps that a call is given for its loops are enough for this many entries. -/
def TimerOp.Enough (op : TimerOp) (entries : Nat) : Prop :=
  match op with
  | .insert fuel _ _ => entries ≤ fuel
  | .remove fuel _ _ => entries ≤ fuel
  | _ => True

/-- The links are those of the list. -/
structure Follows (s : TimerLinks) (a : Agenda) : Prop where
  /-- They spell it and come to an end. -/
  chain : Chain s.next s.head (a.entries.map Inserted.timeout)
  /-- No entry is there twice. -/
  nodup : (a.entries.map Inserted.timeout).Nodup
  /-- The list is in the order of the times, and for equal times in that of the insertions. -/
  order : a.entries.Pairwise (Inserted.Before s.time)
  /-- Every call returns when its loops may take as many steps as there are entries. -/
  returns : ∀ op, Proper op (s, a) → op.Enough a.entries.length → ∃ s', timerStep op s = some s'

/-- More steps do not change what `insertInQueue` comes to. -/
theorem insertInQueue_of_le {s s' : TimerLinks} {fuel more : Nat} (le : fuel ≤ more)
    {t : TimeoutId} {now : Time} (inserted : s.insertInQueue fuel t now = some s') :
    s.insertInQueue more t now = some s' := by
  obtain ⟨reached, walked, is⟩ := Option.map_eq_some_iff.mp inserted
  exact Option.map_eq_some_iff.mpr ⟨reached, walk_of_le le walked, is⟩

/-- More steps do not change what `removeFromQueue` comes to. -/
theorem removeFromQueue_of_le {s : TimerLinks} {fuel more : Nat} (le : fuel ≤ more) {time : Time}
    {proc : Option Addr} {result : Option TimeoutId × TimerLinks}
    (removed : s.removeFromQueue fuel time proc = some result) :
    s.removeFromQueue more time proc = some result := by
  obtain ⟨⟨prev, curr⟩, first, rest⟩ := Option.bind_eq_some_iff.mp removed
  obtain ⟨reached, second, is⟩ := Option.map_eq_some_iff.mp rest
  refine Option.bind_eq_some_iff.mpr ⟨(prev, curr), walk_of_le le first, ?_⟩
  exact Option.map_eq_some_iff.mpr ⟨reached, walk_of_le le second, is⟩

/-- An entry that precedes another one is not later. -/
theorem Inserted.Before.le {time : TimeoutId → Time} {x y : Inserted}
    (before : Inserted.Before time x y) : time x.timeout ≤ time y.timeout := by
  rcases before with earlier | ⟨same, -⟩
  · exact UInt64.le_of_lt earlier
  · exact UInt64.le_of_eq same

/-- The insertion of the youngest entry keeps the order. -/
theorem pairwise_orderedInsert {time : TimeoutId → Time} {x : Inserted} {entries : List Inserted}
    (order : entries.Pairwise (Inserted.Before time)) (youngest : ∀ y ∈ entries, y.stamp < x.stamp) :
    (entries.orderedInsert (fun x y => time x.timeout < time y.timeout) x).Pairwise
      (Inserted.Before time) := by
  induction entries with
  | nil => exact List.pairwise_singleton _ _
  | cons y rest ih =>
    obtain ⟨first, others⟩ := List.pairwise_cons.mp order
    rw [List.orderedInsert_cons]
    by_cases earlier : time x.timeout < time y.timeout
    · rw [if_pos earlier]
      refine List.pairwise_cons.mpr ⟨fun z mem => Or.inl ?_, order⟩
      rcases List.mem_cons.mp mem with rfl | behind
      · exact earlier
      · exact UInt64.lt_of_lt_of_le earlier (first z behind).le
    · rw [if_neg earlier]
      refine List.pairwise_cons.mpr ⟨fun z mem => ?_, ih others fun z mem =>
        youngest z (List.mem_cons_of_mem _ mem)⟩
      rcases (List.mem_orderedInsert _).mp mem with rfl | behind
      · by_cases same : time y.timeout = time z.timeout
        · exact Or.inr ⟨same, youngest y List.mem_cons_self⟩
        · exact Or.inl (UInt64.lt_of_le_of_ne (UInt64.not_lt.mp earlier) same)
      · exact first z behind

/-- The invariant of a sequence of calls. -/
structure OnAgenda (s : TimerLinks) (a : Agenda) : Prop where
  /-- The links spell the list. -/
  chain : Chain s.next s.head (a.entries.map Inserted.timeout)
  /-- The order of the list. -/
  order : a.entries.Pairwise (Inserted.Before s.time)
  /-- Insertions so far. -/
  past : ∀ x ∈ a.entries, x.stamp < a.insertions

namespace OnAgenda

variable {s s' : TimerLinks} {a : Agenda} (inv : OnAgenda s a)
include inv

/-- The list is in the order of the times. -/
theorem ordered : (s.listed (a.entries.map Inserted.timeout)).Ordered :=
  List.pairwise_map.mpr (inv.order.imp Inserted.Before.le)

/-- A new entry goes behind those that are not later. -/
theorem insert {fuel : Nat} {t : TimeoutId} {now : Time}
    (absent : t ∉ a.entries.map Inserted.timeout)
    (inserted : s.insertInQueue fuel t now = some s') :
    OnAgenda s' (noteAgenda (.insert fuel t now) s s' a) := by
  have more := insertInQueue_of_le (Nat.le_max_left fuel a.entries.length) inserted
  have spells := spells_listed inv.chain
  obtain ⟨_, made, spells'⟩ := spells.insertInQueue absent
    (by simp [TimerLinks.listed] : _ ≤ max fuel a.entries.length) now
  obtain rfl := Option.some.inj (more.symm.trans made)
  have times : s'.time = s.time := by
    funext u
    rw [spells'.time_eq, TimerState.insertInQueue_time, spells.time_eq]
  have chain := spells'.chain
  rw [TimerState.insertInQueue_orderedInsert] at chain
  constructor
  · simp only [noteAgenda]
    have mapped := List.map_orderedInsert (fun x y : Inserted => s.time x.timeout < s.time y.timeout)
      (fun x y => s.time x < s.time y) Inserted.timeout a.entries ⟨t, a.insertions⟩
      (fun _ _ => Iff.rfl) fun _ _ => Iff.rfl
    rw [mapped]
    exact chain
  · rw [times]
    exact pairwise_orderedInsert inv.order inv.past
  · intro x mem
    rcases (List.mem_orderedInsert _).mp mem with rfl | before
    · exact Nat.lt_succ_self _
    · exact Nat.lt_succ_of_lt (inv.past x before)

/-- The first entry with the time and the process is erased. -/
theorem remove {fuel : Nat} {time : Time} {proc : Option Addr} {result : Option TimeoutId}
    (removed : s.removeFromQueue fuel time proc = some (result, s')) :
    OnAgenda s' (noteAgenda (.remove fuel time proc) s s' a) := by
  have more := removeFromQueue_of_le (Nat.le_max_left fuel a.entries.length) removed
  have spells := spells_listed inv.chain
  obtain ⟨_, made, spells'⟩ := spells.removeFromQueue
    (by simp [TimerLinks.listed] : _ ≤ max fuel a.entries.length) time proc
  obtain ⟨-, rfl⟩ := Prod.mk.inj (Option.some.inj (more.symm.trans made))
  have times : s'.time = s.time := by
    funext u
    rw [spells'.time_eq, TimerState.time, TimerState.removeFromQueue_timeout]
    rfl
  have chain := spells'.chain
  rw [TimerState.removeFromQueue_eraseP inv.ordered] at chain
  have fewer : (noteAgenda (.remove fuel time proc) s s' a).entries.Sublist a.entries :=
    List.eraseP_sublist
  refine ⟨?_, ?_, fun x mem => inv.past x (fewer.subset mem)⟩
  · simp only [TimerLinks.listed, List.eraseP_map] at chain
    exact chain
  · rw [times]
    exact inv.order.sublist fewer

/-- The first entry is removed. -/
theorem removeHead {t : TimeoutId} (removed : s.removeHead = some (t, s')) :
    OnAgenda s' (noteAgenda .removeHead s s' a) := by
  have chain := inv.chain
  obtain ⟨first, head, is⟩ := Option.map_eq_some_iff.mp removed
  obtain ⟨rfl, rfl⟩ := Prod.mk.inj is
  rw [head] at chain
  refine ⟨?_, inv.order.tail, fun x mem => inv.past x (List.mem_of_mem_tail mem)⟩
  simp only [noteAgenda, List.map_tail]
  generalize a.entries.map Inserted.timeout = queue at chain
  cases chain with
  | cons chain => exact chain

/-- An object that is not queued may be changed. -/
theorem set {t : TimeoutId} (absent : t ∉ a.entries.map Inserted.timeout) (value : Timeout) :
    OnAgenda { s with timeout := Function.update s.timeout t value } a := by
  refine ⟨inv.chain, inv.order.imp_of_mem fun {x y} left right before => ?_, inv.past⟩
  have kept : ∀ x ∈ a.entries, (Function.update s.timeout t value x.timeout) =
      s.timeout x.timeout := by
    intro x mem
    apply Function.update_of_ne
    rintro rfl
    exact absent (List.mem_map_of_mem mem)
  simpa only [Inserted.Before, time, kept x left, kept y right] using before

/-- The calls return. -/
theorem follows : Follows s a where
  chain := inv.chain
  nodup := inv.chain.nodup
  order := inv.order
  returns op proper enough := by
    have spells := spells_listed inv.chain
    have length : (s.listed (a.entries.map Inserted.timeout)).queue.length = a.entries.length := by
      simp [TimerLinks.listed]
    cases op with
    | insert fuel t now =>
      obtain ⟨s', made, -⟩ := spells.insertInQueue proper (length.le.trans enough) now
      exact ⟨s', made⟩
    | remove fuel time proc =>
      obtain ⟨s', made, -⟩ := spells.removeFromQueue (length.le.trans enough) time proc
      exact ⟨s', by simp only [timerStep, made, Option.map_some]⟩
    | removeHead =>
      obtain ⟨x, rest, cells⟩ := List.exists_cons_of_ne_nil proper
      have queue : (s.listed (a.entries.map Inserted.timeout)).queue =
          x.timeout :: rest.map Inserted.timeout := by
        rw [cells]
        rfl
      obtain ⟨s', made, -⟩ := spells.removeHead queue
      exact ⟨s', by simp only [timerStep, made, Option.map_some]⟩
    | set t value => exact ⟨_, rfl⟩

end OnAgenda

/-- Whatever calls are made on the empty queue, its links are those of the list that the calls are
for. -/
theorem timeout_queue_refines {s : TimerLinks} (empty : s.head = none) {insertions : Nat}
    {last : TimerLinks × Agenda} (run : Run agendaStep Proper (s, ⟨[], insertions⟩) last) :
    Follows last.1 last.2 := by
  have inv : OnAgenda last.1 last.2 := by
    refine run.invariant (fun both => OnAgenda both.1 both.2) ⟨?_, .nil, by simp⟩ ?_
    · rw [empty]
      exact .nil
    · rintro op ⟨s, a⟩ ⟨s', a'⟩ inv proper stepped
      obtain ⟨stepped, noted⟩ := observed_eq_some.mp stepped
      obtain rfl : a' = noteAgenda op s s' a := noted
      cases op with
      | insert fuel t now => exact inv.insert proper stepped
      | remove fuel time proc =>
        obtain ⟨⟨result, s''⟩, removed, rfl⟩ := Option.map_eq_some_iff.mp stepped
        exact inv.remove removed
      | removeHead =>
        obtain ⟨⟨t, s''⟩, removed, rfl⟩ := Option.map_eq_some_iff.mp stepped
        exact inv.removeHead removed
      | set t value =>
        obtain rfl := Option.some.inj stepped
        exact inv.set proper value
  exact inv.follows

/-- Entries at 200, 100 and again 100 are inserted, and that of process 1064 at 100 is removed. -/
theorem timeout_queue_refines_three : ∃ last : TimerLinks × Agenda, Follows last.1 last.2 ∧
    last.2.entries = [⟨1, 1⟩, ⟨0, 0⟩] := by
  obtain ⟨last, run, checked⟩ := exists_run_of_executeUnder
    [.set 0 ⟨some 1024, 200⟩, .set 1 ⟨some 1024, 100⟩, .set 2 ⟨some 1064, 100⟩, .insert 0 0 50,
      .insert 1 1 50, .insert 2 2 50, .remove 3 100 (some 1064)]
    (fun both : TimerLinks × Agenda => decide (both.2.entries = [⟨1, 1⟩, ⟨0, 0⟩]))
    (by decide +kernel :
      (executeUnder agendaStep (fun op both => decide (Proper op both)) _
        (⟨fun _ => ⟨none, 0⟩, fun _ => none, none, none⟩, ⟨[], 0⟩)).any _ = true)
  have allowed : Run agendaStep Proper
      (⟨fun _ => ⟨none, 0⟩, fun _ => none, none, none⟩, ⟨[], 0⟩) last :=
    run.mono fun _ _ checked => of_decide_eq_true checked
  exact ⟨last, timeout_queue_refines rfl allowed, of_decide_eq_true checked⟩

end TimerLinks

end Microcsp
