import Mathlib.Data.List.TakeWhile
import Microcsp.Process

/-!
# What the scheduler is for

An abstract scheduler over any type of processes: ready queues by priority, the processes that are
in progress, innermost first, and the scheduling state of each process. Its purpose is that a
process which can run is in exactly one place: in the queue of its priority or in progress.

`ready` is as the code has it. It appends every process that is not enabling, whatever its state,
and appending a process that is in its queue already cuts the queue off before it. What is needed of
the process for the queues to stay right is a condition below.
-/

namespace Microcsp

universe u

/-- The abstract state. -/
structure Sched (P : Type u) where
  /-- The ready queue of each priority. -/
  queue : Nat → List P
  /-- The processes in progress, innermost first. -/
  held : List P
  /-- The processes there are. -/
  live : P → Prop
  /-- Their scheduling states. -/
  state : P → PState
  /-- Their priorities. -/
  pri : P → Nat

/-- The abstract actions. -/
inductive SchedAct (P : Type u) where
  /-- Nothing. -/
  | skip
  /-- Take the first process of a queue. -/
  | take (level : Nat)
  /-- Create a process and make it ready. -/
  | create (p : P) (pri : Nat)
  /-- Make a process ready. -/
  | ready (p : P)
  /-- A process in progress gets another state. -/
  | mark (p : P) (state : PState)
  /-- The innermost process waits. -/
  | leave
  /-- The innermost process has terminated. -/
  | release (p : P)

namespace Sched

variable {P : Type u} [DecidableEq P]

/-- Append a process to its queue. -/
def enqueue (s : Sched P) (p : P) : Sched P :=
  { s with
    queue := Function.update s.queue (s.pri p)
      ((s.queue (s.pri p)).takeWhile (fun q => decide (q ≠ p)) ++ [p]) }

/-- Change the state of a process. -/
def mark (s : Sched P) (p : P) (state : PState) : Sched P :=
  { s with state := Function.update s.state p state }

/-- A new process, which is in no queue yet. -/
def create (s : Sched P) (p : P) (pri : Nat) : Sched P where
  queue := s.queue
  held := s.held
  live q := q = p ∨ s.live q
  state := Function.update s.state p .initial
  pri := Function.update s.pri p pri

/-- The state after an action. -/
def next (s : Sched P) : SchedAct P → Sched P
  | .skip => s
  | .take level =>
    match s.queue level with
    | [] => s
    | p :: rest => { s with queue := Function.update s.queue level rest, held := p :: s.held }
  | .create p pri => (s.create p pri).enqueue p
  | .ready p =>
    if s.state p = .enabling then s.mark p .ready else (s.mark p .ready).enqueue p
  | .mark p state => s.mark p state
  | .leave => { s with held := s.held.tail }
  | .release p => { s with held := s.held.tail, live := fun q => s.live q ∧ q ≠ p }

/-- When an action is possible. -/
def Possible (s : Sched P) : SchedAct P → Prop
  | .create p _ => ¬ s.live p
  | .leave => ∃ p, s.held.head? = some p ∧ s.state p = .waiting
  | .release p => s.held.head? = some p ∧ s.state p = .done
  | .mark p _ => p ∈ s.held
  | _ => True

/-! ## Levels -/

/-- The ready queues hold live processes, each at the level of its priority. -/
structure Leveled (s : Sched P) : Prop where
  /-- A queued process is live. -/
  live : ∀ level, ∀ p ∈ s.queue level, s.live p
  /-- It is at its own level. -/
  level : ∀ level, ∀ p ∈ s.queue level, s.pri p = level

/-- Only a live process is made ready, and only one that is live and in no queue is released. -/
def Safe (s : Sched P) : SchedAct P → Prop
  | .ready p => s.live p
  | .release p => s.live p ∧ ∀ level, p ∉ s.queue level
  | _ => True

/-- A queued process was queued before or has just been appended. -/
theorem of_mem_enqueue {s : Sched P} {p q : P} {level : Nat} (mem : q ∈ (s.enqueue p).queue level) :
    q ∈ s.queue level ∨ q = p ∧ level = s.pri p := by
  by_cases own : level = s.pri p
  · subst own
    simp only [enqueue, Function.update_self] at mem
    rcases List.mem_append.mp mem with before | last
    · exact Or.inl (List.takeWhile_subset _ before)
    · exact Or.inr ⟨List.mem_singleton.mp last, rfl⟩
  · simp only [enqueue, Function.update_of_ne own] at mem
    exact Or.inl mem

/-- Appending a live process keeps the levels. -/
theorem Leveled.enqueue {s : Sched P} (leveled : Leveled s) {p : P} (live : s.live p) :
    Leveled (s.enqueue p) where
  live level q mem := by
    rcases of_mem_enqueue mem with before | ⟨rfl, -⟩
    · exact leveled.live level q before
    · exact live
  level level q mem := by
    rcases of_mem_enqueue mem with before | ⟨rfl, rfl⟩
    · exact leveled.level level q before
    · rfl

/-- A new process that is in no queue yet. -/
theorem Leveled.create {s : Sched P} (leveled : Leveled s) {p : P} (fresh : ¬ s.live p) (pri : Nat) :
    Leveled (s.create p pri) where
  live level q mem := Or.inr (leveled.live level q mem)
  level level q mem := by
    have other : q ≠ p := fun same => fresh (same ▸ leveled.live level q mem)
    exact (Function.update_of_ne other _ _).trans (leveled.level level q mem)

/-- Every safe action keeps the levels. -/
theorem Leveled.next {s : Sched P} (leveled : Leveled s) {a : SchedAct P} (possible : s.Possible a)
    (safe : s.Safe a) : Leveled (s.next a) := by
  cases a with
  | skip => exact leveled
  | take level =>
    simp only [Sched.next]
    split
    · exact leveled
    · rename_i p rest queue
      have fewer : ∀ i q, q ∈ Function.update s.queue level rest i → q ∈ s.queue i := by
        intro i q mem
        by_cases own : i = level
        · subst own
          simp only [Function.update_self] at mem
          simp [queue, mem]
        · simpa only [Function.update_of_ne own] using mem
      exact ⟨fun i q mem => leveled.live i q (fewer i q mem),
        fun i q mem => leveled.level i q (fewer i q mem)⟩
  | create p pri => exact (leveled.create possible pri).enqueue (Or.inl rfl)
  | ready p =>
    have marked : Leveled (s.mark p .ready) := ⟨leveled.live, leveled.level⟩
    simp only [Sched.next]
    split
    · exact marked
    · exact marked.enqueue safe
  | mark p state => exact ⟨leveled.live, leveled.level⟩
  | leave => exact ⟨leveled.live, leveled.level⟩
  | release p =>
    refine ⟨fun level q mem => ⟨leveled.live level q mem, ?_⟩, leveled.level⟩
    rintro rfl
    exact safe.2 level mem

/-- Only its release ends the life of a process. -/
theorem live_next {s : Sched P} {a : SchedAct P} {q : P} (live : s.live q) (other : a ≠ .release q) :
    (s.next a).live q := by
  cases a with
  | take level =>
    simp only [Sched.next]
    split <;> exact live
  | create p pri => exact Or.inr live
  | ready p =>
    simp only [Sched.next]
    split <;> exact live
  | release p => exact ⟨live, fun same => other (same ▸ rfl)⟩
  | _ => exact live

/-! ## Preemption -/

/-- Processes in progress preempt each other in the order of their priorities. -/
structure Rising (s : Sched P) : Prop extends Leveled s where
  /-- A process in progress is live. -/
  held : ∀ p ∈ s.held, s.live p
  /-- The priorities fall from the innermost process to the outermost. -/
  falling : s.held.Pairwise (fun p q => s.pri q < s.pri p)

/-- Only a process above all those in progress is taken, only a live process is made ready, and
only one that is in no queue is released. -/
def MayPreempt (s : Sched P) : SchedAct P → Prop
  | .take level => ∀ p ∈ s.held, s.pri p < level
  | .ready p => s.live p
  | .release p => ∀ level, p ∉ s.queue level
  | _ => True

omit [DecidableEq P] in
/-- Where processes preempt in order the condition makes actions safe. -/
theorem Rising.safe {s : Sched P} (rising : Rising s) {a : SchedAct P} (possible : s.Possible a)
    (may : s.MayPreempt a) : s.Safe a := by
  cases a with
  | ready p => exact may
  | release p => exact ⟨rising.held p (List.mem_of_mem_head? possible.1), may⟩
  | _ => trivial

/-- Every action under the condition keeps the order. -/
theorem Rising.next {s : Sched P} (rising : Rising s) {a : SchedAct P} (possible : s.Possible a)
    (may : s.MayPreempt a) : Rising (s.next a) := by
  have leveled : Leveled (s.next a) := rising.toLeveled.next possible (rising.safe possible may)
  cases a with
  | skip => exact rising
  | take level =>
    simp only [Sched.next] at leveled ⊢
    split
    · exact rising
    · rename_i p rest queue
      rw [queue] at leveled
      have mem : p ∈ s.queue level := by simp [queue]
      refine ⟨leveled, List.forall_mem_cons.mpr ⟨rising.live level p mem, rising.held⟩,
        List.pairwise_cons.mpr ⟨fun q held => ?_, rising.falling⟩⟩
      change s.pri q < s.pri p
      rw [rising.level level p mem]
      exact may q held
  | create p pri =>
    have same : ∀ q ∈ s.held, Function.update s.pri p pri q = s.pri q := fun q held =>
      Function.update_of_ne (fun is : q = p => possible (is ▸ rising.held q held)) _ _
    refine ⟨leveled, fun q held => Or.inr (rising.held q held), ?_⟩
    refine rising.falling.imp_of_mem fun {q r} left right less => ?_
    change Function.update s.pri p pri r < Function.update s.pri p pri q
    rw [same q left, same r right]
    exact less
  | ready p =>
    simp only [Sched.next] at leveled ⊢
    split
    · exact ⟨⟨rising.live, rising.level⟩, rising.held, rising.falling⟩
    · rename_i other
      rw [if_neg other] at leveled
      exact ⟨leveled, rising.held, rising.falling⟩
  | mark p state => exact ⟨leveled, rising.held, rising.falling⟩
  | leave =>
    exact ⟨leveled, fun q mem => rising.held q (List.mem_of_mem_tail mem),
      rising.falling.sublist (List.tail_sublist _)⟩
  | release p =>
    obtain ⟨outer, held⟩ := List.head?_eq_some_iff.mp possible.1
    have falling := rising.falling
    rw [held] at falling
    have below := (List.pairwise_cons.mp falling).1
    refine ⟨leveled, fun q mem => ⟨rising.held q (List.mem_of_mem_tail mem), ?_⟩,
      rising.falling.sublist (List.tail_sublist _)⟩
    rintro rfl
    change q ∈ s.held.tail at mem
    rw [held] at mem
    exact Nat.lt_irrefl _ (below q mem)

/-! ## Ownership -/

/-- A process is in its own queue or in progress, not in both and not twice. -/
structure Owned (s : Sched P) : Prop extends Leveled s where
  /-- A queued process is not in progress. -/
  idle : ∀ level, ∀ p ∈ s.queue level, p ∉ s.held
  /-- It is queued once. -/
  once : ∀ level, (s.queue level).Nodup
  /-- A process is in progress once. -/
  single : s.held.Nodup
  /-- A process in progress is live. -/
  held : ∀ p ∈ s.held, s.live p

/-- A process in progress is made ready only while it is enabling. -/
def MayReady (s : Sched P) : SchedAct P → Prop
  | .ready p => s.live p ∧ (p ∈ s.held → s.state p = .enabling)
  | _ => True

omit [DecidableEq P] in
/-- Where processes are owned the condition makes actions safe. -/
theorem Owned.safe {s : Sched P} (owned : Owned s) {a : SchedAct P} (possible : s.Possible a)
    (may : s.MayReady a) : s.Safe a := by
  cases a with
  | ready p => exact may.1
  | release p =>
    have held : p ∈ s.held := List.mem_of_mem_head? possible.1
    exact ⟨owned.held p held, fun level mem => owned.idle level p mem held⟩
  | _ => trivial

/-- Appending a live process that is not in progress keeps ownership. -/
theorem Owned.enqueue {s : Sched P} (owned : Owned s) {p : P} (live : s.live p) (free : p ∉ s.held) :
    Owned (s.enqueue p) where
  toLeveled := owned.toLeveled.enqueue live
  idle level q mem := by
    rcases of_mem_enqueue mem with before | ⟨rfl, -⟩
    · exact owned.idle level q before
    · exact free
  once level := by
    by_cases own : level = s.pri p
    · subst own
      simp only [Sched.enqueue, Function.update_self]
      refine List.nodup_append.mpr ⟨(owned.once _).sublist (List.takeWhile_sublist _),
        List.nodup_singleton p, ?_⟩
      intro q before r last
      obtain rfl := List.mem_singleton.mp last
      simpa using List.mem_takeWhile_imp before
    · simpa only [Sched.enqueue, Function.update_of_ne own] using owned.once level
  single := owned.single
  held := owned.held

/-- Every action under the condition keeps ownership. -/
theorem Owned.next {s : Sched P} (owned : Owned s) {a : SchedAct P} (possible : s.Possible a)
    (may : s.MayReady a) : Owned (s.next a) := by
  have leveled : Leveled (s.next a) := owned.toLeveled.next possible (owned.safe possible may)
  cases a with
  | skip => exact owned
  | take level =>
    simp only [Sched.next] at leveled ⊢
    split
    · exact owned
    · rename_i p rest queue
      rw [queue] at leveled
      have mem : p ∈ s.queue level := by simp [queue]
      have pri := owned.level level p mem
      have once := owned.once level
      rw [queue] at once
      obtain ⟨absent, once⟩ := List.nodup_cons.mp once
      refine ⟨leveled, ?_, ?_, List.nodup_cons.mpr ⟨owned.idle level p mem, owned.single⟩,
        List.forall_mem_cons.mpr ⟨owned.live level p mem, owned.held⟩⟩
      · intro i q mem
        simp only [List.mem_cons, not_or]
        by_cases own : i = level
        · subst own
          simp only [Function.update_self] at mem
          exact ⟨fun same => absent (same ▸ mem), owned.idle i q (by simp [queue, mem])⟩
        · simp only [Function.update_of_ne own] at mem
          exact ⟨fun same => own ((owned.level i q mem).symm.trans (same ▸ pri)),
            owned.idle i q mem⟩
      · intro i
        by_cases own : i = level
        · subst own
          simpa only [Function.update_self] using once
        · simpa only [Function.update_of_ne own] using owned.once i
  | create p pri =>
    have free : p ∉ s.held := fun mem => possible (owned.held p mem)
    have created : Owned (s.create p pri) := ⟨owned.toLeveled.create possible pri, owned.idle,
      owned.once, owned.single, fun q mem => Or.inr (owned.held q mem)⟩
    exact created.enqueue (Or.inl rfl) free
  | ready p =>
    obtain ⟨live, enabling⟩ := may
    have marked : Owned (s.mark p .ready) :=
      ⟨⟨owned.live, owned.level⟩, owned.idle, owned.once, owned.single, owned.held⟩
    simp only [Sched.next]
    split
    · exact marked
    · rename_i other
      exact marked.enqueue live fun mem => other (enabling mem)
  | mark p state => exact ⟨leveled, owned.idle, owned.once, owned.single, owned.held⟩
  | leave =>
    exact ⟨leveled, fun level q mem held => owned.idle level q mem (List.mem_of_mem_tail held),
      owned.once, owned.single.sublist (List.tail_sublist _),
      fun q mem => owned.held q (List.mem_of_mem_tail mem)⟩
  | release p =>
    obtain ⟨outer, held⟩ := List.head?_eq_some_iff.mp possible.1
    have single := owned.single
    rw [held] at single
    obtain ⟨gone, -⟩ := List.nodup_cons.mp single
    refine ⟨leveled, fun level q mem held => owned.idle level q mem (List.mem_of_mem_tail held),
      owned.once, owned.single.sublist (List.tail_sublist _),
      fun q mem => ⟨owned.held q (List.mem_of_mem_tail mem), ?_⟩⟩
    rintro rfl
    change q ∈ s.held.tail at mem
    rw [held] at mem
    exact gone mem

/-! ## Exact ownership -/

/-- The queues hold exactly the processes that can run and are not in progress. -/
structure Exact (s : Sched P) : Prop extends Owned s where
  /-- A queued process can run. -/
  runnable : ∀ level, ∀ p ∈ s.queue level, s.state p = .initial ∨ s.state p = .ready
  /-- A process that is not in progress waits or is queued. -/
  placed : ∀ p, s.live p → p ∉ s.held → s.state p = .waiting ∨ p ∈ s.queue (s.pri p)

/-- A process is made ready only while it is enabling, while it waits and is not in progress, or
where it is the last of its queue already, so that appending it again changes nothing. -/
def MayReadyExactly (s : Sched P) : SchedAct P → Prop
  | .ready p => s.live p ∧ (s.state p = .enabling ∨ s.state p = .waiting ∧ p ∉ s.held ∨
      (s.queue (s.pri p)).getLast? = some p)
  | _ => True

omit [DecidableEq P] in
/-- The condition for exact ownership is one for ownership. -/
theorem Exact.mayReady {s : Sched P} (exact : Exact s) {a : SchedAct P}
    (may : s.MayReadyExactly a) : s.MayReady a := by
  cases a with
  | ready p =>
    refine ⟨may.1, fun held => ?_⟩
    rcases may.2 with enabling | ⟨-, free⟩ | last
    · exact enabling
    · exact absurd held free
    · exact absurd held (exact.idle _ p (List.mem_of_getLast? last))
  | _ => trivial

/-- Appending a process that is not queued, or is last in its queue, adds it and loses none. -/
theorem mem_enqueue {s : Sched P} {p : P} (once : (s.queue (s.pri p)).Nodup)
    (place : p ∉ s.queue (s.pri p) ∨ (s.queue (s.pri p)).getLast? = some p) (level : Nat) (q : P) :
    q ∈ (s.enqueue p).queue level ↔ q ∈ s.queue level ∨ q = p ∧ level = s.pri p := by
  by_cases own : level = s.pri p
  · subst own
    have kept : ∀ l : List P, p ∉ l → l.takeWhile (fun q => decide (q ≠ p)) = l := fun l absent =>
      List.takeWhile_eq_self_iff.mpr fun q mem => by
        simpa using fun same : q = p => absent (same ▸ mem)
    rcases place with absent | last
    · simp only [Sched.enqueue, Function.update_self]
      rw [kept _ absent]
      simp
    · obtain ⟨front, queue⟩ := List.getLast?_eq_some_iff.mp last
      rw [queue] at once
      have absent : p ∉ front := by
        intro mem
        exact (List.nodup_append.mp once).2.2 p mem p List.mem_cons_self rfl
      have cut : (front ++ [p]).takeWhile (fun q => decide (q ≠ p)) = front := by
        rw [List.takeWhile_append_of_pos fun q mem => by
          simpa using fun same : q = p => absent (same ▸ mem)]
        simp
      simp only [Sched.enqueue, Function.update_self, queue]
      rw [cut]
      simp
  · simp [Sched.enqueue, own]

/-- Appending a process that can run and is not in progress keeps exact ownership. -/
theorem Exact.enqueue {s : Sched P} (exact' : Exact s) {p : P} {live : P → Prop} {pri : P → Nat}
    {state : PState} (owned : Owned { s.mark p state with live := live, pri := pri })
    (known : live p) (free : p ∉ s.held) (others : ∀ q, q ≠ p → live q → s.live q ∧ pri q = s.pri q)
    (runnable : state = .initial ∨ state = .ready)
    (place : p ∉ s.queue (pri p) ∨ (s.queue (pri p)).getLast? = some p) :
    Exact ({ s.mark p state with live := live, pri := pri }.enqueue p) := by
  have mem := mem_enqueue (owned.once _) place
  refine ⟨owned.enqueue known free, fun level q queued => ?_, fun q liveq freeq => ?_⟩
  · rcases (mem level q).mp queued with before | ⟨rfl, -⟩
    · change Function.update s.state p state q = _ ∨ Function.update s.state p state q = _
      by_cases same : q = p
      · rw [same, Function.update_self]
        exact runnable
      · rw [Function.update_of_ne same]
        exact exact'.runnable level q before
    · change Function.update s.state q state q = _ ∨ Function.update s.state q state q = _
      rw [Function.update_self]
      exact runnable
  · by_cases same : q = p
    · subst same
      exact Or.inr ((mem _ q).mpr (Or.inr ⟨rfl, rfl⟩))
    · obtain ⟨before, level⟩ := others q same liveq
      change Function.update s.state p state q = _ ∨ _
      rw [Function.update_of_ne same]
      rcases exact'.placed q before freeq with waiting | queued
      · exact Or.inl waiting
      · refine Or.inr ((mem _ q).mpr (Or.inl ?_))
        change q ∈ s.queue (pri q)
        rw [level]
        exact queued

/-- A process in progress may get any state. -/
theorem Exact.markHeld {s : Sched P} (exact' : Exact s) {p : P} (held : p ∈ s.held)
    (state : PState) : Exact (s.mark p state) := by
  have other : ∀ q, q ∉ s.held → q ≠ p := fun q free same => free (same ▸ held)
  refine ⟨⟨⟨exact'.live, exact'.level⟩, exact'.idle, exact'.once, exact'.single, exact'.held⟩,
    fun level q mem => ?_, fun q live free => ?_⟩
  · change Function.update s.state p state q = _ ∨ Function.update s.state p state q = _
    rw [Function.update_of_ne (other q (exact'.idle level q mem))]
    exact exact'.runnable level q mem
  · change Function.update s.state p state q = _ ∨ _
    rw [Function.update_of_ne (other q free)]
    exact exact'.placed q live free

/-- Every action under the condition keeps exact ownership. -/
theorem Exact.next {s : Sched P} (exact' : Exact s) {a : SchedAct P} (possible : s.Possible a)
    (may : s.MayReadyExactly a) : Exact (s.next a) := by
  have owned : Owned (s.next a) := exact'.toOwned.next possible (exact'.mayReady may)
  cases a with
  | skip => exact exact'
  | take level =>
    simp only [Sched.next] at owned ⊢
    split
    · exact exact'
    · rename_i p rest queue
      rw [queue] at owned
      refine ⟨owned, fun i q mem => ?_, fun q live free => ?_⟩
      · by_cases own : i = level
        · subst own
          simp only [Function.update_self] at mem
          exact exact'.runnable i q (by simp [queue, mem])
        · simp only [Function.update_of_ne own] at mem
          exact exact'.runnable i q mem
      · simp only [List.mem_cons, not_or] at free
        rcases exact'.placed q live free.2 with waiting | queued
        · exact Or.inl waiting
        · refine Or.inr ?_
          by_cases own : s.pri q = level
          · rw [own, queue] at queued
            simp only [own, Function.update_self]
            exact (List.mem_cons.mp queued).resolve_left free.1
          · simpa only [Function.update_of_ne own] using queued
  | create p pri =>
    have absent : ∀ level, p ∉ s.queue level := fun level mem =>
      possible (exact'.live level p mem)
    have created : Owned (s.create p pri) := ⟨exact'.toLeveled.create possible pri, exact'.idle,
      exact'.once, exact'.single, fun q mem => Or.inr (exact'.held q mem)⟩
    refine exact'.enqueue created (Or.inl rfl) (fun mem => possible (exact'.held p mem)) ?_
      (Or.inl rfl) (Or.inl (absent _))
    rintro q other (same | live)
    · exact absurd same other
    · exact ⟨live, Function.update_of_ne other _ _⟩
  | ready p =>
    have enabling := (exact'.mayReady may).2
    obtain ⟨live, place⟩ := may
    have marked : Owned (s.mark p .ready) :=
      ⟨⟨exact'.live, exact'.level⟩, exact'.idle, exact'.once, exact'.single, exact'.held⟩
    simp only [Sched.next]
    split
    · rename_i state
      have held : p ∈ s.held := by
        by_contra free
        rcases exact'.placed p live free with waiting | queued
        · rw [state] at waiting
          cases waiting
        · rcases exact'.runnable _ p queued with can | can <;> rw [state] at can <;> cases can
      exact exact'.markHeld held .ready
    · rename_i other
      have free : p ∉ s.held := fun held => other (enabling held)
      refine exact'.enqueue marked live free (fun q _ live => ⟨live, rfl⟩) (Or.inr rfl) ?_
      rcases place with state | ⟨waiting, -⟩ | last
      · exact absurd state other
      · refine Or.inl fun queued => ?_
        rcases exact'.runnable _ p queued with can | can <;> rw [waiting] at can <;> cases can
      · exact Or.inr last
  | mark p state => exact exact'.markHeld possible state
  | leave =>
    obtain ⟨p, first, waiting⟩ := possible
    obtain ⟨outer, held⟩ := List.head?_eq_some_iff.mp first
    refine ⟨owned, exact'.runnable, fun q live free => ?_⟩
    by_cases same : q = p
    · subst same
      exact Or.inl waiting
    · refine exact'.placed q live fun mem => ?_
      change q ∉ s.held.tail at free
      rw [held] at mem free
      exact free ((List.mem_cons.mp mem).resolve_left same)
  | release p =>
    obtain ⟨first, -⟩ := possible
    obtain ⟨outer, held⟩ := List.head?_eq_some_iff.mp first
    refine ⟨owned, exact'.runnable, fun q live free => exact'.placed q live.1 fun mem => ?_⟩
    change q ∉ s.held.tail at free
    rw [held] at mem free
    exact free ((List.mem_cons.mp mem).resolve_left live.2)

end Sched

end Microcsp
