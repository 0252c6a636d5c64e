import Microcsp.ReadyQueues
import Microcsp.Scheduler

/-!
# The scheduler in memory

How the ready queues, the priority mask, the free lists and the link words that they share make up
an abstract scheduler, and that each operation on them is one of its actions. A record is live from
the time it is filled to the time it is released, and at most one list is threaded through it.
-/

open Library

namespace Microcsp

/-- The process that an activation of `schedule` has taken and not yet given up. -/
def Act.holds : Act → Option Addr
  | .schedule _ p _ => some p
  | .select _ (.took (some p)) => some p
  | _ => none

/-- The event is one of the allocator. -/
@[simp] def Event.ofMemory : Event → Bool
  | .alloc _ => true
  | .release _ => true
  | _ => false

/-- Other events leave the allocated records alone. -/
@[simp] theorem allocated_cons {e : Event} (other : e.ofMemory = false) (log : List Event) :
    allocated (e :: log) = allocated log := by
  funext p
  cases e <;> first | rfl | cases other

theorem allocated_alloc (log : List Event) (p : Addr) :
    allocated (.alloc p :: log) = Function.update (allocated log) p true := by
  funext q
  simp only [allocated, Function.update_apply, eq_comm]

theorem allocated_release (log : List Event) (p : Addr) :
    allocated (.release p :: log) = Function.update (allocated log) p false := by
  funext q
  simp only [allocated, Function.update_apply, eq_comm]

/-- What the scheduler works on. -/
@[ext] structure View where
  /-- The allocator with the link words. -/
  mem : Memory
  /-- The ready queues. -/
  readyQ : Nat → ReadyQ
  /-- The priority mask. -/
  mask : BitVec 8
  /-- The scheduling states. -/
  state : Addr → PState
  /-- The priorities. -/
  pri : Addr → Nat
  /-- The allocated records. -/
  allocated : Addr → Bool
  /-- The processes in progress, innermost first. -/
  held : List Addr
  /-- The records that are allocated and not yet filled. -/
  reserved : List Addr

/-- What the scheduler works on in a state of the machine. -/
def view (stack : List Act) (g : Globals) : View where
  mem := g.mem
  readyQ := g.readyQ
  mask := g.priorityMask
  state p := (g.proc p).state
  pri p := (g.proc p).pri
  allocated := allocated g.log
  held := stack.filterMap Act.holds
  reserved := stack.filterMap Act.reserves

namespace View

variable (v : View)

/-- The record holds a process. -/
def live (p : Addr) : Prop := v.allocated p = true ∧ p ∉ v.reserved

/-- The abstract scheduler with these queues. -/
def sched (queue : Nat → List Addr) : Sched Addr where
  queue := queue
  held := v.held
  live := v.live
  state := v.state
  pri := v.pri

/-- `take` from a queue with this head. -/
def take (level : Nat) (p : Addr) : View :=
  let next := v.mem.link p
  { v with
    readyQ := Function.update v.readyQ level
      ⟨next, if next = none then none else (v.readyQ level).tail⟩
    mask := if next = none then v.mask &&& ~~~levelMask level else v.mask
    held := p :: v.held }

/-- `append` -/
def append (p : Addr) : View :=
  let queue := v.readyQ (v.pri p)
  let link := match queue.tail with
    | none => v.mem.link
    | some last => Function.update v.mem.link last (some p)
  { v with
    readyQ := Function.update v.readyQ (v.pri p) ⟨queue.head.or (some p), some p⟩
    mem := { v.mem with link := Function.update link p none }
    mask := if queue.head = none then v.mask ||| levelMask (v.pri p) else v.mask }

/-- The initialisation of the record that was reserved last. -/
def fill (record : Addr) (pri : Nat) : View :=
  { v with
    mem := v.mem.setLink record none
    state := Function.update v.state record .initial
    pri := Function.update v.pri record pri
    reserved := v.reserved.tail }

/-- `allocate_mem` with its result. -/
def allocate (record : Addr) (mem : Memory) : View :=
  { v with
    mem := mem
    allocated := Function.update v.allocated record true
    reserved := record :: v.reserved }

/-- `release_mem` for the innermost process. -/
def release (index : Nat) (p : Addr) : View :=
  { v with
    mem := v.mem.releaseMem index p
    allocated := Function.update v.allocated p false
    held := v.held.tail }

variable {v}

/-- A record is not live before it is filled. -/
theorem live_allocate {record : Addr} {mem : Memory} (fresh : v.allocated record = false) :
    (v.allocate record mem).live = v.live := by
  funext p
  by_cases same : p = record
  · subst same
    simp [live, allocate, fresh]
  · simp [live, allocate, same]

/-- A record that is released is not live. -/
theorem live_release {index : Nat} {p q : Addr} :
    (v.release index p).live q ↔ v.live q ∧ q ≠ p := by
  by_cases same : q = p
  · subst same
    simp [live, release]
  · simp [live, release, same]

end View

/-! ## The representation -/

/-- The queues and free lists are these. -/
structure Represents (queue free : Nat → List Addr) (v : View) : Prop where
  /-- The ready queues. -/
  fifo : ∀ i, Fifo v.mem.link (v.readyQ i).head (v.readyQ i).tail (queue i)
  /-- The mask has a bit for each level with ready processes. -/
  mask : ∀ i, v.mask.getLsbD i = true ↔ queue i ≠ []
  /-- Priorities are within bounds. -/
  bound : ∀ p, v.live p → v.pri p ≤ priMax
  /-- The free lists. -/
  chain : ∀ i, Chain v.mem.link (v.mem.procmemlist i) (free i)
  /-- A free record was allocated once and is so no longer. -/
  freed : ∀ i, ∀ p ∈ free i, v.allocated p = false ∧ p < v.mem.tail
  /-- A record is in one free list. -/
  apart : ∀ i j p, p ∈ free i → p ∈ free j → i = j
  /-- The rest of the arena is above all records. -/
  below : ∀ p, v.allocated p = true → p < v.mem.tail
  /-- A record that is not yet filled is allocated. -/
  reserved : ∀ p ∈ v.reserved, v.allocated p = true
  /-- No record is reserved twice. -/
  distinct : v.reserved.Nodup

namespace Represents

variable {queue free : Nat → List Addr} {v : View} (rep : Represents queue free v)
include rep

/-- States do not matter. -/
theorem setState (state : Addr → PState) : Represents queue free { v with state := state } :=
  { rep with }

/-- Nor do the processes in progress. -/
theorem setHeld (held : List Addr) : Represents queue free { v with held := held } :=
  { rep with }

/-- The ready queues alone. -/
theorem levels : Levels v.mem.link v.readyQ v.mask queue := ⟨rep.fifo, rep.mask⟩

/-- A process that is queued is in no free list. -/
theorem not_free {p : Addr} (live : v.live p) (i : Nat) : p ∉ free i := fun mem => by
  have freed := (rep.freed i p mem).1
  rw [live.1] at freed
  cases freed

/-- A level without a head is empty. -/
theorem queue_eq_nil {level : Nat} (head : (v.readyQ level).head = none) : queue level = [] := by
  have fifo := rep.fifo level
  rw [head] at fifo
  exact fifo.eq_nil

/-- `take` removes the first process of the queue. -/
theorem take {level : Nat} {p : Addr} (head : (v.readyQ level).head = some p) :
    ∃ rest, queue level = p :: rest ∧
      Represents (Function.update queue level rest) free (v.take level p) := by
  obtain ⟨rest, cells, taken⟩ := rep.levels.take head
  exact ⟨rest, cells, { rep with fifo := taken.fifo, mask := taken.mask }⟩

/-- `append` adds a live process to its queue. -/
theorem append (leveled : (v.sched queue).Leveled) {p : Addr} (live : v.live p) :
    Represents ((v.sched queue).enqueue p).queue free (v.append p) := by
  have fifo := rep.fifo (v.pri p)
  have queued : ∀ i q, q ∈ queue i → v.live q ∧ v.pri q = i := fun i q mem =>
    ⟨leveled.live i q mem, leveled.level i q mem⟩
  have apart : ∀ i, i ≠ v.pri p → p ∉ queue i ∧ ∀ q ∈ queue (v.pri p), q ∉ queue i := by
    intro i other
    constructor
    · intro mem
      exact other (queued i p mem).2.symm
    · intro q own mem
      exact other ((queued i q mem).2.symm.trans (queued _ q own).2)
  have appended := rep.levels.append (rep.bound p live) apart
  refine { rep with
    fifo := appended.fifo
    mask := appended.mask
    chain := fun i => (rep.chain i).congr fun q mem => ?_ }
  -- the links that are stored are those of `p` and of the last process of its queue
  have unlisted : ¬v.live q := fun live => rep.not_free live i mem
  have other : q ≠ p := by
    rintro rfl
    exact unlisted live
  simp only [View.append, Function.update_of_ne other]
  cases tail : (v.readyQ (v.pri p)).tail with
  | none => rfl
  | some last =>
    have queuedLast : last ∈ queue (v.pri p) := List.mem_of_getLast? (fifo.last.symm.trans tail)
    have other : q ≠ last := by
      rintro rfl
      exact unlisted (queued _ _ queuedLast).1
    simp only [Function.update_of_ne other]

/-- The initialisation of a record makes it live. -/
theorem fill (leveled : (v.sched queue).Leveled) {record : Addr} {rest : List Addr}
    (next : v.reserved = record :: rest) {pri : Nat} (bound : pri ≤ priMax) :
    Represents queue free (v.fill record pri) ∧ ¬ v.live record ∧
      (v.fill record pri).sched queue = (v.sched queue).create record pri := by
  have unfilled : ¬ v.live record := fun live => live.2 (by simp [next])
  have known : v.allocated record = true := rep.reserved record (by simp [next])
  obtain ⟨once, distinct⟩ := List.nodup_cons.mp (next ▸ rep.distinct)
  have live : ∀ q, (v.fill record pri).live q ↔ q = record ∨ v.live q := by
    intro q
    simp only [View.live, View.fill, next, List.tail_cons, List.mem_cons]
    by_cases same : q = record
    · subst same
      simp [known, once]
    · simp [same]
  have unlinked : ∀ q, q ≠ record → (v.fill record pri).mem.link q = v.mem.link q := fun q ne =>
    Function.update_of_ne ne _ _
  refine ⟨{ rep with
    fifo := fun i => (rep.fifo i).congr fun q mem => unlinked q fun same =>
      unfilled (same ▸ leveled.live i q mem)
    bound := fun q filled => ?_
    chain := fun i => (rep.chain i).congr fun q mem => unlinked q fun same => ?_
    reserved := fun q mem => rep.reserved q (List.mem_of_mem_tail mem)
    distinct := rep.distinct.sublist (List.tail_sublist _) }, unfilled, ?_⟩
  · by_cases same : q = record
    · subst same
      simpa [View.fill] using bound
    · simpa [View.fill, same] using rep.bound q (((live q).mp filled).resolve_left same)
  · subst same
    have freed := (rep.freed i q mem).1
    rw [known] at freed
    cases freed
  · have same : (v.fill record pri).live = fun q => q = record ∨ v.live q :=
      funext fun q => propext (live q)
    simp only [View.sched, same]
    rfl

/-- A record that is neither allocated nor free any more becomes reserved. -/
theorem reserve {free' : Nat → List Addr} {record : Addr} {mem : Memory}
    (link : mem.link = v.mem.link) (chain : ∀ i, Chain mem.link (mem.procmemlist i) (free' i))
    (fewer : ∀ i, ∀ p ∈ free' i, p ∈ free i ∧ p ≠ record) (fresh : v.allocated record = false)
    (tail : v.mem.tail ≤ mem.tail) (below : record < mem.tail) :
    Represents queue free' (v.allocate record mem) where
  fifo i := by
    simp only [View.allocate, link]
    exact rep.fifo i
  mask := rep.mask
  bound p live := rep.bound p (by rwa [View.live_allocate fresh] at live)
  chain := chain
  freed i p mem := by
    obtain ⟨was, other⟩ := fewer i p mem
    obtain ⟨freed, before⟩ := rep.freed i p was
    exact ⟨(Function.update_of_ne other _ _).trans freed, Nat.lt_of_lt_of_le before tail⟩
  apart i j p left right := rep.apart i j p (fewer i p left).1 (fewer j p right).1
  below p known := by
    by_cases same : p = record
    · exact same ▸ below
    · refine Nat.lt_of_lt_of_le (rep.below p ?_) tail
      simpa [View.allocate, same] using known
  reserved p mem := by
    simp only [View.allocate, Function.update_apply]
    split
    · rfl
    · rename_i other
      exact rep.reserved p ((List.mem_cons.mp mem).resolve_left other)
  distinct := by
    refine List.nodup_cons.mpr ⟨fun mem => ?_, rep.distinct⟩
    rw [rep.reserved record mem] at fresh
    cases fresh

/-- `allocate_mem` returns a record that is not allocated. -/
theorem allocate {index : Nat} {record : Addr} {mem : Memory} (known : index < nalloc)
    (made : v.mem.allocateMem index = some (record, mem)) :
    v.allocated record = false ∧ ∃ free', Represents queue free' (v.allocate record mem) := by
  cases first : v.mem.procmemlist index with
  | none =>
    obtain ⟨rfl, tail, link, heads⟩ := Memory.allocateMem_fresh made first
    have further : v.mem.tail < mem.tail := by
      rw [tail]
      exact Nat.lt_add_of_pos_right (procmemlen_pos known)
    have fresh : v.allocated v.mem.tail = false := by
      by_contra taken
      exact Nat.lt_irrefl _ (rep.below _ (by simpa using taken))
    refine ⟨fresh, free, rep.reserve link (fun i => ?_) (fun i p mem => ⟨mem, ?_⟩) fresh
      further.le further⟩
    · rw [link, heads]
      exact rep.chain i
    · rintro rfl
      exact Nat.lt_irrefl _ (rep.freed i _ mem).2
  | some block =>
    simp only [Memory.allocateMem, first, Option.some.injEq, Prod.mk.injEq] at made
    obtain ⟨rfl, rfl⟩ := made
    have chain := rep.chain index
    rw [first] at chain
    generalize cells : free index = list at chain
    cases chain with
    | @cons _ rest chain =>
      obtain ⟨once, -⟩ := List.nodup_cons.mp (Chain.cons chain).nodup
      have mem : block ∈ free index := by simp [cells]
      obtain ⟨fresh, below⟩ := rep.freed index block mem
      refine ⟨fresh, Function.update free index rest, rep.reserve rfl (fun i => ?_)
        (fun i p left => ?_) fresh (Nat.le_refl _) below⟩
      · by_cases same : i = index
        · subst same
          simpa using chain
        · simpa [same] using rep.chain i
      · by_cases same : i = index
        · subst same
          simp only [Function.update_self] at left
          exact ⟨by simp [cells, left], fun is => once (is ▸ left)⟩
        · simp only [Function.update_of_ne same] at left
          exact ⟨left, fun is => same (rep.apart i index block (is ▸ left) mem)⟩

/-- `release_mem` takes a live process that is in no queue. -/
theorem release {p : Addr} (live : v.live p) (absent : ∀ i, p ∉ queue i) (index : Nat) :
    ∃ free', Represents queue free' (v.release index p) := by
  have unlinked : ∀ q, q ≠ p → (v.release index p).mem.link q = v.mem.link q := fun q ne =>
    Function.update_of_ne ne _ _
  have elsewhere : ∀ i, Chain (v.release index p).mem.link (v.mem.procmemlist i) (free i) := fun i =>
    (rep.chain i).congr fun q mem => unlinked q fun same => rep.not_free live i (same ▸ mem)
  -- the released record is the new first cell of one list
  have member : ∀ i q, q ∈ Function.update free index (p :: free index) i ↔
      q ∈ free i ∨ q = p ∧ i = index := by
    intro i q
    by_cases same : i = index
    · subst same
      simp [or_comm]
    · simp [same]
  refine ⟨Function.update free index (p :: free index), { rep with
    fifo := fun i => (rep.fifo i).congr fun q mem => unlinked q fun same => absent i (same ▸ mem)
    bound := fun q released => rep.bound q (View.live_release.mp released).1
    chain := fun i => ?_
    freed := fun i q mem => ?_
    apart := fun i j q left right => ?_
    below := fun q known => ?_
    reserved := fun q mem => ?_ }⟩
  · by_cases same : i = index
    · subst same
      have next : (v.release i p).mem.link p = v.mem.procmemlist i := Function.update_self ..
      have after := elsewhere i
      rw [← next] at after
      simpa [View.release, Memory.releaseMem] using Chain.cons after
    · simp only [View.release, Memory.releaseMem, Function.update_of_ne same]
      exact elsewhere i
  · rcases (member i q).mp mem with was | ⟨rfl, -⟩
    · obtain ⟨freed, before⟩ := rep.freed i q was
      have other : q ≠ p := fun same => rep.not_free live i (same ▸ was)
      exact ⟨(Function.update_of_ne other _ _).trans freed, before⟩
    · exact ⟨Function.update_self .., rep.below q live.1⟩
  · rcases (member i q).mp left with one | ⟨rfl, rfl⟩ <;>
      rcases (member j q).mp right with two | ⟨same, rfl⟩
    · exact rep.apart i j q one two
    · exact absurd (same ▸ one) (rep.not_free live i)
    · exact absurd two (rep.not_free live j)
    · rfl
  · by_cases same : q = p
    · exact same ▸ rep.below p live.1
    · exact rep.below q (by simpa [View.release, same] using known)
  · have other : q ≠ p := fun same => live.2 (same ▸ mem)
    exact (Function.update_of_ne other _ _).trans (rep.reserved q mem)

end Represents

end Microcsp
