import Mathlib.Data.List.TakeWhile
import Microcsp.Queue

/-!
# The ready queues

Eight queues share one link field of the process records, each has a head and a tail pointer, and
a mask says which have a first process. `append` and `take` keep the three in step, and what they
keep in step is a list for each level. `take` leaves the link of the process it returns in place,
which does no harm because `append` resets it.
-/

open Library

namespace Microcsp

/-! ## The mask -/

theorem getLsbD_levelMask {level : Nat} (bound : level ≤ priMax) (i : Nat) :
    (levelMask level).getLsbD i = decide (i = level) := by
  have inside : level < 8 := Nat.lt_succ_of_le bound
  rw [levelMask, BitVec.getLsbD_twoPow]
  by_cases same : i = level
  · simp [same, inside]
  · simp [same, Ne.symm same]

/-- No bit is above the one that `highest_ready` finds. -/
theorem le_highestReady {mask : BitVec 8} {i : Nat} (bit : mask.getLsbD i = true) :
    i ≤ highestReady mask := by
  have bound : i < 8 := BitVec.lt_of_getLsbD bit
  have all : ∀ mask : BitVec 8, ∀ i < 8, mask.getLsbD i = true → i ≤ highestReady mask := by
    decide +kernel
  exact all mask i bound bit

/-- It finds a bit unless there is none. -/
theorem highestReady_found (mask : BitVec 8) :
    highestReady mask = 0 ∨ mask.getLsbD (highestReady mask) = true := by
  revert mask
  decide +kernel

/-- It finds nothing above a level that no bit is above. -/
theorem highestReady_le {mask : BitVec 8} {level : Nat}
    (above : ∀ i, level < i → mask.getLsbD i = false) : highestReady mask ≤ level := by
  rcases highestReady_found mask with zero | bit
  · omega
  · by_contra high
    rw [above _ (by omega)] at bit
    cases bit

/-! ## The queues -/

/-- The heads, tails and links spell these lists, and the mask has a bit for each that is not
empty. -/
structure Levels (link : Addr → Option Addr) (readyQ : Nat → ReadyQ) (mask : BitVec 8)
    (queue : Nat → List Addr) : Prop where
  /-- The queue of each level. -/
  fifo : ∀ i, Fifo link (readyQ i).head (readyQ i).tail (queue i)
  /-- The mask has a bit for each level with ready processes. -/
  mask : ∀ i, mask.getLsbD i = true ↔ queue i ≠ []

namespace Levels

variable {link : Addr → Option Addr} {readyQ : Nat → ReadyQ} {mask : BitVec 8}
  {queue : Nat → List Addr} (levels : Levels link readyQ mask queue)
include levels

/-- Levels with ready processes are within bounds. -/
theorem level_le {level : Nat} (ready : queue level ≠ []) : level ≤ priMax := by
  have bit := (levels.mask level).mpr ready
  exact Nat.le_of_lt_succ (BitVec.lt_of_getLsbD bit)

/-- `highest_ready` finds the highest queue that is not empty, or zero. -/
theorem highest : (queue (highestReady mask) ≠ [] ∨ highestReady mask = 0) ∧
    ∀ i, queue i ≠ [] → i ≤ highestReady mask := by
  refine ⟨?_, fun i ready => le_highestReady ((levels.mask i).mpr ready)⟩
  rcases highestReady_found mask with zero | bit
  · exact Or.inr zero
  · exact Or.inl ((levels.mask _).mp bit)

/-- `take` removes the first process of the queue. -/
theorem take {level : Nat} {p : Addr} (head : (readyQ level).head = some p) :
    ∃ rest, queue level = p :: rest ∧
      Levels link
        (Function.update readyQ level
          ⟨link p, if link p = none then none else (readyQ level).tail⟩)
        (if link p = none then mask &&& ~~~levelMask level else mask)
        (Function.update queue level rest) := by
  have fifo := levels.fifo level
  rw [head] at fifo
  obtain ⟨rest, cells⟩ := fifo.eq_cons
  rw [cells] at fifo
  have bound : level ≤ priMax := levels.level_le (by simp [cells])
  refine ⟨rest, cells, fun i => ?_, fun i => ?_⟩
  · by_cases same : i = level
    · subst same
      simp only [Function.update_self]
      cases next : link p with
      | none =>
        rw [fifo.pop_last next]
        exact Fifo.empty _
      | some second => exact fifo.pop next
    · simp only [Function.update_of_ne same]
      exact levels.fifo i
  · have before := levels.mask i
    cases next : link p with
    | none =>
      rw [fifo.pop_last next]
      by_cases same : i = level
      · subst same
        simp [getLsbD_levelMask bound]
      · have other : mask.getLsbD i = true ∧ i < 8 ↔ mask.getLsbD i = true :=
          ⟨And.left, fun bit => ⟨bit, BitVec.lt_of_getLsbD bit⟩⟩
        simpa [getLsbD_levelMask bound, same, other] using before
    | some second =>
      by_cases same : i = level
      · subst same
        have more : rest ≠ [] := by
          have popped := (fifo.pop next).chain
          rintro rfl
          cases popped
        simp only [reduceCtorEq, if_false, Function.update_self]
        exact ⟨fun _ => more, fun _ => before.mpr (by simp [cells])⟩
      · simpa [same] using before

/-- `append` puts a process at the end of the queue, which loses what stood behind it there. It
must be in no other queue, and no process in two of them. -/
theorem append {level : Nat} (bound : level ≤ priMax) {p : Addr}
    (apart : ∀ i, i ≠ level → p ∉ queue i ∧ ∀ q ∈ queue level, q ∉ queue i) :
    let base := match (readyQ level).tail with
      | none => link
      | some last => Function.update link last (some p)
    Levels (Function.update base p none)
      (Function.update readyQ level ⟨(readyQ level).head.or (some p), some p⟩)
      (if (readyQ level).head = none then mask ||| levelMask level else mask)
      (Function.update queue level
        ((queue level).takeWhile (fun q => decide (q ≠ p)) ++ [p])) := by
  intro base
  have fifo := levels.fifo level
  -- the links that are stored are those of `p` and of the last process of its queue
  have stored : ∀ q, q ≠ p → q ∉ queue level → Function.update base p none q = link q := by
    intro q other absent
    rw [Function.update_of_ne other]
    simp only [base]
    split
    · rfl
    · rename_i last tail
      have mem : last ∈ queue level := List.mem_of_getLast? (fifo.last.symm.trans tail)
      exact Function.update_of_ne (fun same : q = last => absent (same ▸ mem)) _ _
  have first : (readyQ level).head = none ↔ queue level = [] := by
    rw [fifo.head_eq]
    exact List.head?_eq_none_iff
  have pushed : Fifo (Function.update base p none) ((readyQ level).head.or (some p)) (some p)
      ((queue level).takeWhile (fun q => decide (q ≠ p)) ++ [p]) := by
    simp only [base]
    cases tail : (readyQ level).tail with
    | none =>
      rw [tail] at fifo
      obtain ⟨head, made⟩ := fifo.push_empty p
      simpa only [head, Option.none_or] using made
    | some last =>
      rw [tail] at fifo
      obtain ⟨head, made⟩ := fifo.push p
      obtain ⟨one, head⟩ := Option.ne_none_iff_exists'.mp head
      simpa only [head, Option.some_or] using made
  refine ⟨fun i => ?_, fun i => ?_⟩
  · by_cases same : i = level
    · subst same
      simpa only [Function.update_self] using pushed
    · simp only [Function.update_of_ne same]
      obtain ⟨absent, disjoint⟩ := apart i same
      refine (levels.fifo i).congr fun q mem => stored q ?_ fun own => disjoint q own mem
      rintro rfl
      exact absent mem
  · have before := levels.mask i
    by_cases same : i = level
    · subst same
      simp only [Function.update_self]
      split
      · simp [getLsbD_levelMask bound]
      · rename_i head
        have ready : queue i ≠ [] := fun empty => head (first.mpr empty)
        simp [before.mpr ready]
    · simp only [Function.update_of_ne same]
      split
      · simpa [getLsbD_levelMask bound, same] using before
      · exact before

end Levels

/-! ## Whole calls -/

/-- A step of the running code that goes on, followed by a run. -/
theorem run_next {act act' : Act} {rest : List Act} {g g' : Globals} {last : State}
    (made : exec act g = .next act' g') (run : Run step Always ⟨act' :: rest, g', none⟩ last) :
    Run step Always ⟨act :: rest, g, none⟩ last := by
  have stepped : step .run ⟨act :: rest, g, none⟩ = some ⟨act' :: rest, g', none⟩ := by
    simp [step, made, Result.apply]
  exact Run.head trivial stepped run

/-- A step of the running code that returns. -/
theorem run_ret {act : Act} {rest : List Act} {g g' : Globals} {v : Value}
    (made : exec act g = .ret v g') :
    Run step Always ⟨act :: rest, g, none⟩ ⟨returnTo v rest, g', none⟩ := by
  have stepped : step .run ⟨act :: rest, g, none⟩ = some ⟨returnTo v rest, g', none⟩ := by
    simp [step, made, Result.apply]
  exact Run.head trivial stepped (.refl _)

/-- The statements of `take` come to the whole. -/
theorem take_runs (g : Globals) (pri : Nat) (rest : List Act) :
    Run step Always ⟨.take pri .head :: rest, g, none⟩
      ⟨returnTo (.proc (g.takeHead pri).1) rest, (g.takeHead pri).2, none⟩ := by
  unfold Globals.takeHead
  cases head : (g.readyQ pri).head with
  | none => exact run_ret (by simp only [exec, execTake, head])
  | some p =>
    refine run_next (by simp only [exec, execTake, head]; rfl) (run_next rfl ?_)
    simp only [Globals.takeNext, Globals.takeTest]
    cases next : ((g.setHead pri (g.mem.link p)).readyQ pri).head with
    | some second => exact run_ret (by simp only [exec, execTake, next])
    | none =>
      refine run_next (by simp only [exec, execTake, next]; rfl) (run_next rfl ?_)
      exact run_ret rfl

/-- The statements of `append` come to the whole. -/
theorem append_runs (g : Globals) (p : Addr) (rest : List Act) :
    Run step Always ⟨.append p .link :: rest, g, none⟩
      ⟨returnTo .unit rest, g.appendLink p, none⟩ := by
  have test : ∀ g : Globals, Run step Always ⟨.append p .test :: rest, g, none⟩
      ⟨returnTo .unit rest, g.appendTest p, none⟩ := by
    intro g
    unfold Globals.appendTest
    cases head : (g.readyQ (g.proc p).pri).head with
    | some first => exact run_ret (by simp only [exec, execAppend, head])
    | none =>
      refine run_next (by simp only [exec, execAppend, head]; rfl) (run_next rfl ?_)
      exact run_ret rfl
  have tail : ∀ g : Globals, Run step Always ⟨.append p .tail :: rest, g, none⟩
      ⟨returnTo .unit rest, g.appendTail p, none⟩ := by
    intro g
    exact run_next rfl (run_next rfl (test _))
  unfold Globals.appendLink
  cases last : (g.readyQ (g.proc p).pri).tail with
  | none => exact run_next (by simp only [exec, execAppend, last]) (tail g)
  | some q => exact run_next (by simp only [exec, execAppend, last]) (tail _)

/-- The calls that work on the ready queues. -/
inductive QueueOp where
  /-- `append` -/
  | append (p : Addr)
  /-- `take` -/
  | take (pri : Nat)
  deriving DecidableEq, Repr

/-- A call, with interrupts disabled from its start to its end. -/
def queueStep (op : QueueOp) (g : Globals) : Option Globals :=
  match op with
  | .append p => some (g.appendLink p)
  | .take pri => some (g.takeHead pri).2

/-- What the calls are for: one list for each level, with additions at the end and removals at the
front. -/
def noteQueue (op : QueueOp) (before _ : Globals) (queue : Nat → List Addr) : Nat → List Addr :=
  match op with
  | .append p =>
    let pri := (before.proc p).pri
    Function.update queue pri (queue pri ++ [p])
  | .take pri => Function.update queue pri (queue pri).tail

/-- The calls in memory with the lists they are for. -/
def listedStep : QueueOp → Globals × (Nat → List Addr) → Option (Globals × (Nat → List Addr)) :=
  observed queueStep noteQueue

/-- A process is appended that is in no queue, and levels are within bounds. -/
def Callable (op : QueueOp) (both : Globals × (Nat → List Addr)) : Prop :=
  match op with
  | .append p => (both.1.proc p).pri ≤ priMax ∧ ∀ i ≤ priMax, p ∉ both.2 i
  | .take pri => pri ≤ priMax

instance (op : QueueOp) (both : Globals × (Nat → List Addr)) : Decidable (Callable op both) :=
  match op with
  | .append p =>
    inferInstanceAs (Decidable ((both.1.proc p).pri ≤ priMax ∧ ∀ i ≤ priMax, p ∉ both.2 i))
  | .take pri => inferInstanceAs (Decidable (pri ≤ priMax))

/-- The ready queues are these lists. -/
structure Spelled (g : Globals) (queue : Nat → List Addr) : Prop where
  /-- The links from each head spell the list of the level, which repeats no process. -/
  spelled : ∀ i ≤ priMax, Chain g.mem.link (g.readyQ i).head (queue i) ∧ (queue i).Nodup
  /-- Each ends at the tail, which has no link. -/
  ends : ∀ i ≤ priMax, (g.readyQ i).tail = (queue i).getLast? ∧
    ∀ last, (g.readyQ i).tail = some last → g.mem.link last = none
  /-- No process is in two of them. -/
  apart : ∀ i ≤ priMax, ∀ j ≤ priMax, ∀ p ∈ queue i, p ∈ queue j → i = j
  /-- Head, tail and mask agree on which are empty. -/
  empty : ∀ i ≤ priMax, ((g.readyQ i).head = none ↔ (g.readyQ i).tail = none) ∧
    ((g.readyQ i).tail = none ↔ g.priorityMask.getLsbD i = false)
  /-- `take` returns the first of a list, if there is one. -/
  take : ∀ i ≤ priMax, (g.takeHead i).1 = (queue i).head?
  /-- `highest_ready` returns the highest level whose list is not empty, or zero. -/
  highest : (queue (highestReady g.priorityMask) ≠ [] ∨ highestReady g.priorityMask = 0) ∧
    ∀ i ≤ priMax, queue i ≠ [] → i ≤ highestReady g.priorityMask

/-- The invariant: the queues are the lists, and each process is in the list of its priority. -/
structure InLists (g : Globals) (queue : Nat → List Addr) : Prop where
  /-- Heads, tails, links and mask. -/
  levels : Levels g.mem.link g.readyQ g.priorityMask queue
  /-- Where a process is. -/
  level : ∀ i, ∀ p ∈ queue i, (g.proc p).pri = i

namespace InLists

variable {g : Globals} {queue : Nat → List Addr}

/-- `append` puts the process at the end of its list, which loses what stood behind it there. -/
theorem requeue (inv : InLists g queue) {p : Addr} (bound : (g.proc p).pri ≤ priMax) :
    InLists (g.appendLink p) (Function.update queue (g.proc p).pri
      ((queue (g.proc p).pri).takeWhile (fun q => decide (q ≠ p)) ++ [p])) := by
  have apart : ∀ i, i ≠ (g.proc p).pri →
      p ∉ queue i ∧ ∀ q ∈ queue (g.proc p).pri, q ∉ queue i := by
    intro i other
    constructor
    · intro mem
      exact other (inv.level i p mem).symm
    · intro q own mem
      exact other ((inv.level i q mem).symm.trans (inv.level _ q own))
  have appended := inv.levels.append bound apart
  rw [Globals.appendLink_eq]
  refine ⟨appended, fun i q mem => ?_⟩
  by_cases same : i = (g.proc p).pri
  · subst same
    rw [Function.update_self] at mem
    rcases List.mem_append.mp mem with before | own
    · exact inv.level _ q (List.takeWhile_subset _ before)
    · rw [List.mem_singleton.mp own]
      rfl
  · rw [Function.update_of_ne same] at mem
    exact inv.level i q mem

/-- `append` adds a process that is in no list at the end of its own. -/
theorem append (inv : InLists g queue) {p : Addr} (bound : (g.proc p).pri ≤ priMax)
    (absent : p ∉ queue (g.proc p).pri) :
    InLists (g.appendLink p)
      (Function.update queue (g.proc p).pri (queue (g.proc p).pri ++ [p])) := by
  have whole : (queue (g.proc p).pri).takeWhile (fun q => decide (q ≠ p)) =
      queue (g.proc p).pri := by
    rw [List.takeWhile_eq_self_iff]
    intro q mem
    refine decide_eq_true ?_
    rintro rfl
    exact absent mem
  have requeued := inv.requeue bound
  rwa [whole] at requeued

/-- The queues are in one way only lists. -/
theorem unique (inv : InLists g queue) {others : Nat → List Addr} (other : InLists g others) :
    queue = others := by
  funext i
  exact (inv.levels.fifo i).chain.unique (other.levels.fifo i).chain

/-- `take` removes the first process of the list, if there is one. -/
theorem take (inv : InLists g queue) (pri : Nat) :
    InLists (g.takeHead pri).2 (Function.update queue pri (queue pri).tail) := by
  rw [Globals.takeHead_eq]
  cases head : (g.readyQ pri).head with
  | none =>
    have fifo := inv.levels.fifo pri
    rw [head] at fifo
    have same : Function.update queue pri (queue pri).tail = queue := by
      rw [fifo.eq_nil, List.tail_nil, ← fifo.eq_nil, Function.update_eq_self]
    rw [same]
    exact inv
  | some p =>
    obtain ⟨rest, cells, taken⟩ := inv.levels.take head
    have rest_eq : (queue pri).tail = rest := by rw [cells, List.tail_cons]
    rw [rest_eq]
    refine ⟨taken, fun i q mem => ?_⟩
    by_cases same : i = pri
    · subst same
      rw [Function.update_self] at mem
      exact inv.level i q (cells ▸ List.mem_cons_of_mem _ mem)
    · rw [Function.update_of_ne same] at mem
      exact inv.level i q mem

/-- The lists say all about the queues. -/
theorem listed (inv : InLists g queue) : Spelled g queue where
  spelled i _ := ⟨(inv.levels.fifo i).chain, (inv.levels.fifo i).chain.nodup⟩
  ends i _ := by
    have fifo := inv.levels.fifo i
    exact ⟨fifo.last, fun last is => fifo.chain.link_last (fifo.last.symm.trans is)⟩
  apart i _ j _ p left right := (inv.level i p left).symm.trans (inv.level j p right)
  empty i _ := by
    have fifo := inv.levels.fifo i
    have bit := inv.levels.mask i
    rw [fifo.head_eq, fifo.last, List.head?_eq_none_iff, List.getLast?_eq_none_iff,
      ← Bool.not_eq_true, bit, not_not]
    exact ⟨Iff.rfl, Iff.rfl⟩
  take i _ := by
    rw [Globals.takeHead_eq, ← (inv.levels.fifo i).head_eq]
    cases (g.readyQ i).head <;> rfl
  highest := by
    obtain ⟨found, above⟩ := inv.levels.highest
    exact ⟨found, fun i _ => above i⟩

end InLists

/-- The queues are empty when `sched_init` has run; the links may be anything. -/
theorem inLists_of_sched_init {g₀ g : Globals} (pristine : Pristine g₀) {m : Memory}
    (left : execMain .schedInit { g₀ with mem := m } = .next (.main .idleAlloc) g) :
    InLists g fun _ => [] := by
  simp only [execMain, Result.next.injEq, true_and] at left
  subst left
  have queues : ∀ i, (if priMin ≤ i ∧ i ≤ priMax then ⟨none, none⟩ else g₀.readyQ i) =
      (⟨none, none⟩ : ReadyQ) := by
    intro i
    split
    · rfl
    · exact pristine.queues i
  refine ⟨⟨fun i => ?_, fun i => ?_⟩, fun i p mem => ?_⟩
  · simp only [queues]
    exact Fifo.empty _
  · simp [pristine.mask]
  · cases mem

/-- Whatever processes are appended and taken after `sched_init`, the ready queues are the lists
that the calls are for. -/
theorem ready_queues_refine {g₀ g : Globals} (pristine : Pristine g₀) {m : Memory}
    (left : execMain .schedInit { g₀ with mem := m } = .next (.main .idleAlloc) g)
    {last : Globals × (Nat → List Addr)}
    (run : Run listedStep Callable (g, fun _ => []) last) : Spelled last.1 last.2 := by
  have inv : InLists last.1 last.2 := by
    refine run.invariant (fun both => InLists both.1 both.2) (inLists_of_sched_init pristine left) ?_
    rintro op ⟨g, queue⟩ ⟨g', queue'⟩ inv allowed stepped
    obtain ⟨stepped, noted⟩ := observed_eq_some.mp stepped
    obtain rfl : queue' = noteQueue op g g' queue := noted
    cases op with
    | append p =>
      obtain rfl : g.appendLink p = g' := Option.some.inj stepped
      exact inv.append allowed.1 (allowed.2 _ allowed.1)
    | take pri =>
      obtain rfl : (g.takeHead pri).2 = g' := Option.some.inj stepped
      exact inv.take pri
  exact inv.listed

/-- Before `sched_init`, with a record of priority 2 and otherwise records of priority 1. -/
def twoLevels : Globals :=
  { (zeroBoot 0).g with
    proc := fun p => { (zeroBoot 0).g.proc p with pri := if p = 1104 then 2 else 1 } }

theorem twoLevels_pristine : Pristine twoLevels := by
  constructor <;> simp [twoLevels, zeroBoot, boot, allSignals]

/-- Two processes of one level and one of another are appended, and the first of the level and then
the other is taken, so that the one behind it is alone. -/
theorem ready_queues_refine_two : ∃ last : Globals × (Nat → List Addr),
    Spelled last.1 last.2 ∧ last.2 1 = [1064] ∧ last.2 2 = [] ∧
      last.1.readyQ 1 = ⟨some 1064, some 1064⟩ := by
  obtain ⟨g, left⟩ : ∃ g, execMain .schedInit { twoLevels with mem := twoLevels.mem } =
      .next (.main .idleAlloc) g := ⟨_, rfl⟩
  have executed : (executeUnder listedStep (fun op both => decide (Callable op both))
      [.append 1024, .append 1104, .append 1064, .take 1, .take 2] (g, fun _ => [])).any
      (fun both => decide (both.2 1 = [1064] ∧ both.2 2 = [] ∧
        both.1.readyQ 1 = ⟨some 1064, some 1064⟩)) = true := by
    simp only [execMain, Result.next.injEq, true_and] at left
    subst left
    decide +kernel
  obtain ⟨last, run, checked⟩ := exists_run_of_executeUnder _ _ executed
  have allowed : Run listedStep Callable (g, fun _ => []) last :=
    run.mono fun _ _ checked => of_decide_eq_true checked
  exact ⟨last, ready_queues_refine twoLevels_pristine left allowed, of_decide_eq_true checked⟩

end Microcsp
