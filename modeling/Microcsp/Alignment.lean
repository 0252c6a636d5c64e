import Microcsp.Allocation

/-!
# The addresses of blocks

Blocks are cut where the one before ends, so their addresses are those of whole words as long as
the lengths before them are. Two lengths of the table, 58 and 70, are not, and what was cut off
once comes back through its free list for ever.
-/

open Library

namespace Microcsp

/-- The size of a pointer in the 32-bit build. -/
def wordSize : Nat := 4

/-- What the client's calls have shown. -/
structure Returns where
  /-- The addresses that `allocate_mem` returned, the last one first. -/
  returned : List Addr
  /-- Whenever a block was cut, the lengths of all blocks cut before were those of whole words. -/
  inLine : Bool
  deriving DecidableEq

/-- The length of a block is that of whole words. -/
def Block.whole (b : Block) : Bool := decide (wordSize ∣ procmemlen.getD b.index 0)

/-- A block is cut only where every block before it has a length of whole words. -/
def cutsInLine (op : MemOp) (s : MemState) : Bool :=
  match op with
  | .allocate index => (s.mem.procmemlist index).isSome || s.cut.all Block.whole
  | _ => true

/-- Keep account of a call: an allocated block is the first live one after it. -/
def noteReturn (op : MemOp) (before after : MemState) (r : Returns) : Returns :=
  match op with
  | .allocate _ =>
    ⟨(after.live.head?.map Block.addr).toList ++ r.returned, r.inLine && cutsInLine op before⟩
  | _ => r

/-- The allocator with the account of its client's calls. -/
def returnStep : MemOp → MemState × Returns → Option (MemState × Returns) :=
  observed memStep noteReturn

/-- The client after `memory_init`. -/
def Returns.fresh (m : Memory) (arena : Addr) (memlen : Nat) : MemState × Returns :=
  (.fresh m arena memlen, ⟨[], true⟩)

/-- The only lengths that are not those of whole words are 58 and 70. -/
theorem whole_iff {b : Block} (bound : b.index < nalloc) :
    b.whole = true ↔ b.index ≠ 7 ∧ b.index ≠ 9 := by
  have table : ∀ index < nalloc,
      decide (wordSize ∣ procmemlen.getD index 0) = true ↔ index ≠ 7 ∧ index ≠ 9 := by decide
  exact table b.index bound

/-- What the account says about the blocks that were cut. -/
structure Tallied (s : MemState) (r : Returns) : Prop where
  /-- The addresses that were returned are those of the blocks that were cut. -/
  addresses : ∀ a, a ∈ r.returned ↔ ∃ b ∈ s.cut, b.addr = a
  /-- The order of the cuts. -/
  inLine : r.inLine = true ↔ ∀ b ∈ s.cut.tail, b.whole = true

namespace Tallied

variable {arena memlen : Nat} {free : Nat → List Addr} {s s' : MemState} {r : Returns} {op : MemOp}

/-- Only `allocate_mem` cuts blocks. -/
theorem cut_of_not_allocate (stepped : memStep op s = some s')
    (other : ∀ index, op ≠ .allocate index) : s'.cut = s.cut := by
  cases op with
  | allocate index => exact absurd rfl (other index)
  | release index addr =>
    simp only [memStep] at stepped
    split at stepped
    · obtain rfl := Option.some.inj stepped
      rfl
    · cases stepped
  | store addr next =>
    simp only [memStep] at stepped
    split at stepped
    · obtain rfl := Option.some.inj stepped
      rfl
    · cases stepped

/-- `allocate_mem` returns a block of a free list, or one that it cuts. -/
theorem cut_of_allocate {index : Nat} (stepped : memStep (.allocate index) s = some s') :
    ∃ addr, s'.live = ⟨addr, index⟩ :: s.live ∧ index < nalloc ∧
      (s.mem.procmemlist index = some addr ∧ s'.cut = s.cut ∨
        s.mem.procmemlist index = none ∧ s'.cut = ⟨addr, index⟩ :: s.cut) := by
  simp only [memStep] at stepped
  split at stepped
  · rename_i bound
    obtain ⟨⟨addr, mem⟩, allocated, rfl⟩ := Option.map_eq_some_iff.mp stepped
    refine ⟨addr, rfl, bound, ?_⟩
    cases head : s.mem.procmemlist index with
    | none => exact .inr ⟨rfl, by simp⟩
    | some first =>
      simp only [Memory.allocateMem, head, Option.some.injEq, Prod.mk.injEq] at allocated
      obtain ⟨rfl, -⟩ := allocated
      exact .inl ⟨rfl, by simp⟩
  · cases stepped

/-- A block at the head of a free list was cut once. -/
theorem mem_cut_of_free (ok : AllocOk arena memlen free s) {index : Nat} {addr : Addr}
    (bound : index < nalloc) (head : s.mem.procmemlist index = some addr) :
    (⟨addr, index⟩ : Block) ∈ s.cut := by
  have chain := ok.chain index bound
  rw [head] at chain
  have first : addr ∈ free index := by
    generalize free index = others at chain
    cases chain
    exact List.mem_cons_self
  have among : (⟨addr, index⟩ : Block) ∈ freeBlocks free := mem_freeBlocks.mpr ⟨bound, first⟩
  exact ok.accounted.mem_iff.mp (List.mem_append_right _ among)

/-- The tail after a cut are the blocks cut before. -/
theorem tail_whole {b : Block} {cut : List Block} :
    (∀ c ∈ (b :: cut).tail, c.whole = true) ↔ cut.all Block.whole = true := by
  rw [List.tail_cons, List.all_eq_true]

/-- Every call keeps the account. -/
theorem step (acc : Tallied s r) (ok : AllocOk arena memlen free s)
    (stepped : memStep op s = some s') : Tallied s' (noteReturn op s s' r) := by
  cases op with
  | release index addr =>
    have same := cut_of_not_allocate stepped (by simp)
    exact ⟨same ▸ acc.addresses, same ▸ acc.inLine⟩
  | store addr next =>
    have same := cut_of_not_allocate stepped (by simp)
    exact ⟨same ▸ acc.addresses, same ▸ acc.inLine⟩
  | allocate index =>
    obtain ⟨addr, live, bound, ⟨head, cut⟩ | ⟨head, cut⟩⟩ := cut_of_allocate stepped
    · have mem := mem_cut_of_free ok bound head
      constructor
      · intro a
        simp only [noteReturn, live, List.head?_cons, Option.map_some, Option.toList_some,
          List.singleton_append, List.mem_cons, acc.addresses, cut]
        constructor
        · rintro (rfl | known)
          · exact ⟨_, mem, rfl⟩
          · exact known
        · exact Or.inr
      · simpa only [noteReturn, cutsInLine, head, Option.isSome_some, Bool.true_or, Bool.and_true,
          cut] using acc.inLine
    · constructor
      · intro a
        simp only [noteReturn, live, List.head?_cons, Option.map_some, Option.toList_some,
          List.singleton_append, List.mem_cons, acc.addresses, cut, exists_eq_or_imp]
        exact or_congr_left eq_comm
      · have before : s.cut.all Block.whole = true → r.inLine = true := fun whole =>
          acc.inLine.mpr fun b mem => List.all_eq_true.mp whole b (List.mem_of_mem_tail mem)
        rw [cut, tail_whole]
        simp only [noteReturn, cutsInLine, head, Option.isSome_none, Bool.false_or,
          Bool.and_eq_true]
        exact ⟨And.right, fun whole => ⟨before whole, whole⟩⟩

end Tallied

/-- The invariant of a client's calls. -/
theorem tallied_of_run {m : Memory} {arena memlen : Nat} {last : MemState × Returns}
    (run : Run returnStep Always (Returns.fresh m arena memlen) last) :
    (∃ free, AllocOk arena memlen free last.1) ∧ Tallied last.1 last.2 := by
  refine run.invariant
    (fun both => (∃ free, AllocOk arena memlen free both.1) ∧ Tallied both.1 both.2) ?_ ?_
  · exact ⟨⟨_, .fresh m arena memlen⟩, ⟨by simp [Returns.fresh, MemState.fresh],
      by simp [Returns.fresh, MemState.fresh]⟩⟩
  · rintro op before after ⟨⟨free, ok⟩, acc⟩ - stepped
    obtain ⟨stepped, noted⟩ := observed_eq_some.mp stepped
    exact ⟨ok.step stepped, noted ▸ acc.step ok stepped⟩

/-- In every sequence of calls in an arena that starts at a word, all blocks returned start at a
word exactly where no block was cut after one of 58 or 70 bytes. -/
theorem blocks_aligned_iff {m : Memory} {arena memlen : Nat} {last : MemState × Returns}
    (aligned : wordSize ∣ arena) (run : Run returnStep Always (Returns.fresh m arena memlen) last) :
    (∀ a ∈ last.2.returned, wordSize ∣ a) ↔ last.2.inLine = true := by
  obtain ⟨⟨free, ok⟩, acc⟩ := tallied_of_run run
  have starts := ok.carved.dvd_starts_iff aligned
  rw [acc.inLine]
  calc (∀ a ∈ last.2.returned, wordSize ∣ a)
    _ ↔ ∀ s ∈ last.1.cut.map Block.segment, wordSize ∣ s.start := by
      simp only [acc.addresses, List.forall_mem_map, Block.segment]
      exact ⟨fun all b mem => all b.addr ⟨b, mem, rfl⟩, fun all a ⟨b, mem, is⟩ => is ▸ all b mem⟩
    _ ↔ ∀ s ∈ (last.1.cut.map Block.segment).tail, wordSize ∣ s.length := starts
    _ ↔ ∀ b ∈ last.1.cut.tail, b.whole = true := by
      simp only [← List.map_tail, List.forall_mem_map, Block.segment, Block.whole,
        decide_eq_true_eq]

/-- Two blocks of 24 bytes, one released and allocated again. -/
theorem blocks_aligned_iff_whole : ∃ last : MemState × Returns,
    last.2.returned = [1000, 1024, 1000] ∧
      ((∀ a ∈ last.2.returned, wordSize ∣ a) ↔ last.2.inLine = true) := by
  obtain ⟨last, run, checked⟩ := exists_run_of_execute
    [.allocate 3, .allocate 3, .release 3 1000, .allocate 3]
    (fun both : MemState × Returns => decide (both.2.returned = [1000, 1024, 1000]))
    (by decide +kernel : (execute returnStep _
      (Returns.fresh ⟨fun _ => none, fun _ => none, 0, 0⟩ 1000 100)).any _ = true)
  exact ⟨last, of_decide_eq_true checked, blocks_aligned_iff (by decide) run⟩

/-- A block of 58 bytes is cut, then one of 24, which is released and allocated again. -/
theorem blocks_not_aligned : ¬∀ last : MemState × Returns,
    Run returnStep Always (Returns.fresh ⟨fun _ => none, fun _ => none, 0, 0⟩ 1000 100) last →
      ∀ a ∈ last.2.returned, wordSize ∣ a := by
  intro claimed
  obtain ⟨last, run, checked⟩ := exists_run_of_execute
    [.allocate 7, .allocate 3, .release 3 1058, .allocate 3]
    (fun both : MemState × Returns => decide (both.2.returned = [1058, 1058, 1000]))
    (by decide +kernel : (execute returnStep _
      (Returns.fresh ⟨fun _ => none, fun _ => none, 0, 0⟩ 1000 100)).any _ = true)
  have aligned := claimed last run 1058 (by simp [of_decide_eq_true checked])
  exact absurd aligned (by decide)

end Microcsp
