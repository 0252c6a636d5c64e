import Mathlib.Data.List.Flatten
import Microcsp.Library.Transition
import Microcsp.Library.LinkedFifo
import Microcsp.Library.Carving
import Microcsp.Memory

/-!
# The allocator over whole runs

A client allocates blocks, stores into the first words of those it has, and releases them with the
index it asked for. Blocks are cut off the arena one after the other and never put together again,
so each block that was ever cut is either with the client or on the free list of its own index.
-/

open Library

namespace Microcsp

/-- A block of the arena with the index it was asked for. -/
structure Block where
  /-- Its address. -/
  addr : Addr
  /-- Its memory class. -/
  index : Nat
  deriving DecidableEq, Repr

/-- The bytes of a block. -/
def Block.segment (b : Block) : Segment := ⟨b.addr, procmemlen.getD b.index 0⟩

/-- The allocator with what its client has. -/
structure MemState where
  /-- The allocator. -/
  mem : Memory
  /-- The blocks that were allocated and not released since. -/
  live : List Block
  /-- The blocks that were ever cut off the arena, the last one first. -/
  cut : List Block

/-- What the client does. -/
inductive MemOp where
  /-- `allocate_mem` -/
  | allocate (index : Nat)
  /-- `release_mem` -/
  | release (index : Nat) (addr : Addr)
  /-- A store into the first word of a block. -/
  | store (addr : Addr) (next : Option Addr)
  deriving DecidableEq, Repr

/-- One call that succeeds. A released block is live and was obtained with the same index, and a
store goes to a live block. -/
def memStep (op : MemOp) (s : MemState) : Option MemState :=
  match op with
  | .allocate index =>
    if index < nalloc then
      (s.mem.allocateMem index).map fun (addr, mem) =>
        let cut := if s.mem.procmemlist index = none then ⟨addr, index⟩ :: s.cut else s.cut
        ⟨mem, ⟨addr, index⟩ :: s.live, cut⟩
    else none
  | .release index addr =>
    if ⟨addr, index⟩ ∈ s.live then
      some { s with mem := s.mem.releaseMem index addr, live := s.live.erase ⟨addr, index⟩ }
    else none
  | .store addr next =>
    if s.live.any (·.addr = addr) then some { s with mem := s.mem.setLink addr next } else none

/-- After `memory_init` nothing is allocated. -/
def MemState.fresh (m : Memory) (arena : Addr) (memlen : Nat) : MemState :=
  ⟨m.memoryInit arena memlen, [], []⟩

/-- The blocks on the free lists. -/
def freeBlocks (free : Nat → List Addr) : List Block :=
  (List.range nalloc).flatMap fun i => (free i).map fun addr => ⟨addr, i⟩

/-! ## The free lists together -/

section Free

variable {free : Nat → List Addr} {b : Block} {index : Nat}

theorem mem_freeBlocks : b ∈ freeBlocks free ↔ b.index < nalloc ∧ b.addr ∈ free b.index := by
  simp only [freeBlocks, List.mem_flatMap, List.mem_range, List.mem_map]
  constructor
  · rintro ⟨i, bound, addr, mem, rfl⟩
    exact ⟨bound, mem⟩
  · rintro ⟨bound, mem⟩
    exact ⟨b.index, bound, b.addr, mem, rfl⟩

/-- A block put on its free list is one more free block. -/
theorem freeBlocks_push (bound : index < nalloc) (addr : Addr) :
    (freeBlocks (Function.update free index (addr :: free index))).Perm
      (⟨addr, index⟩ :: freeBlocks free) := by
  obtain ⟨before, after, split⟩ := List.append_of_mem (List.mem_range.mpr bound)
  have nodup : (before ++ index :: after).Nodup := split ▸ List.nodup_range
  have others : ∀ part : List Nat, index ∉ part →
      (part.flatMap fun i => (Function.update free index (addr :: free index) i).map fun addr =>
        (⟨addr, i⟩ : Block)) = part.flatMap fun i => (free i).map fun addr => ⟨addr, i⟩ := by
    intro part absent
    refine List.flatMap_congr fun i mem => ?_
    rw [Function.update_of_ne fun same : i = index => absent (same ▸ mem)]
  obtain ⟨-, second, apart⟩ := List.nodup_append.mp nodup
  have early : index ∉ before := fun mem => apart index mem index List.mem_cons_self rfl
  have late : index ∉ after := (List.nodup_cons.mp second).1
  simp only [freeBlocks, split, List.flatMap_append, List.flatMap_cons, others before early,
    others after late, Function.update_self, List.map_cons, List.cons_append]
  exact List.perm_middle

end Free

/-! ## The invariant -/

/-- The blocks that were cut lie one after the other from the start of the arena, and each is live
or free. -/
structure AllocOk (arena memlen : Nat) (free : Nat → List Addr) (s : MemState) : Prop where
  /-- The free lists. -/
  chain : ∀ i < nalloc, Chain s.mem.link (s.mem.procmemlist i) (free i)
  /-- Each block that was cut is live or free. -/
  accounted : (s.live ++ freeBlocks free).Perm s.cut
  /-- Every block belongs to a memory class. -/
  bound : ∀ b ∈ s.cut, b.index < nalloc
  /-- How the arena was cut. -/
  carved : Carved arena (s.cut.map Block.segment) s.mem.tail
  /-- What is left of it. -/
  room : s.mem.tail + s.mem.taillen = arena + memlen

namespace AllocOk

variable {arena memlen : Nat} {free : Nat → List Addr} {s : MemState}

/-- Every block was cut at an address of its own. -/
theorem addresses (ok : AllocOk arena memlen free s) : (s.cut.map Block.addr).Nodup := by
  have apart := List.pairwise_map.mp ok.carved.apart
  refine List.pairwise_map.mpr (apart.imp_of_mem fun {a b} first second apart => ?_)
  exact apart.start_ne (procmemlen_pos (ok.bound a first)) (procmemlen_pos (ok.bound b second))

/-- A live block is on no free list. -/
theorem live_not_free (ok : AllocOk arena memlen free s) {b : Block} (live : b ∈ s.live) {i : Nat}
    (bound : i < nalloc) : b.addr ∉ free i := by
  intro mem
  have nodup : ((s.live ++ freeBlocks free).map Block.addr).Nodup :=
    (ok.accounted.map Block.addr).nodup_iff.mpr ok.addresses
  rw [List.map_append] at nodup
  have apart := (List.nodup_append.mp nodup).2.2
  exact apart b.addr (List.mem_map_of_mem live) b.addr
    (List.mem_map.mpr ⟨⟨b.addr, i⟩, mem_freeBlocks.mpr ⟨bound, mem⟩, rfl⟩) rfl

/-- Nothing is cut off the arena at first. -/
theorem fresh (m : Memory) (arena memlen : Nat) :
    AllocOk arena memlen (fun _ => []) (.fresh m arena memlen) where
  chain := fun _ _ => .nil
  accounted := by
    have none : freeBlocks (fun _ => []) = [] := List.flatMap_eq_nil_iff.mpr fun _ _ => rfl
    rw [none]
    exact .refl _
  bound := by simp [MemState.fresh]
  carved := rfl
  room := rfl

/-- `allocate_mem` takes the first block of a free list. -/
theorem take (ok : AllocOk arena memlen free s) {index : Nat} (bound : index < nalloc) {addr : Addr}
    (head : s.mem.procmemlist index = some addr) :
    ∃ free', AllocOk arena memlen free' ⟨{ s.mem with
      procmemlist := Function.update s.mem.procmemlist index (s.mem.link addr) },
      ⟨addr, index⟩ :: s.live, s.cut⟩ := by
  have chain := ok.chain index bound
  rw [head] at chain
  cases own : free index with
  | nil =>
    rw [own] at chain
    cases chain
  | cons first rest =>
    rw [own] at chain
    cases chain with
    | cons chain =>
      refine ⟨Function.update free index rest, fun i within => ?_, ?_, ok.bound, ok.carved, ok.room⟩
      · by_cases same : i = index
        · subst same
          simpa using chain
        · simpa [Function.update_of_ne same] using ok.chain i within
      · have pushed := @freeBlocks_push (Function.update free index rest) index bound addr
        rw [Function.update_self, Function.update_idem, ← own, Function.update_eq_self] at pushed
        have taken : (⟨addr, index⟩ :: (s.live ++ freeBlocks (Function.update free index rest))).Perm
            (s.live ++ freeBlocks free) :=
          List.perm_middle.symm.trans (List.Perm.append_left s.live pushed.symm)
        exact taken.trans ok.accounted

/-- `allocate_mem` cuts a block off the rest of the arena. -/
theorem carve (ok : AllocOk arena memlen free s) {index : Nat} (bound : index < nalloc)
    (room : procmemlen.getD index 0 ≤ s.mem.taillen) :
    AllocOk arena memlen free ⟨{ s.mem with
      tail := s.mem.tail + procmemlen.getD index 0
      taillen := s.mem.taillen - procmemlen.getD index 0 },
      ⟨s.mem.tail, index⟩ :: s.live, ⟨s.mem.tail, index⟩ :: s.cut⟩ where
  chain := ok.chain
  accounted := List.Perm.cons _ ok.accounted
  bound := List.forall_mem_cons.mpr ⟨bound, ok.bound⟩
  carved := ⟨rfl, ok.carved⟩
  room := by
    calc s.mem.tail + procmemlen.getD index 0 + (s.mem.taillen - procmemlen.getD index 0)
      _ = s.mem.tail + s.mem.taillen := by rw [Nat.add_assoc, Nat.add_sub_cancel' room]
      _ = arena + memlen := ok.room

/-- `release_mem` puts a live block at the head of its free list. -/
theorem release (ok : AllocOk arena memlen free s) {index : Nat} {addr : Addr}
    (live : ⟨addr, index⟩ ∈ s.live) : ∃ free', AllocOk arena memlen free'
      { s with mem := s.mem.releaseMem index addr, live := s.live.erase ⟨addr, index⟩ } := by
  have bound : index < nalloc :=
    ok.bound ⟨addr, index⟩ (ok.accounted.mem_iff.mp (List.mem_append_left _ live))
  refine ⟨Function.update free index (addr :: free index), fun i within => ?_, ?_, ok.bound,
    ok.carved, ok.room⟩
  · have others : Chain (Function.update s.mem.link addr (s.mem.procmemlist index))
        (s.mem.procmemlist i) (free i) :=
      (ok.chain i within).update _ (ok.live_not_free live within)
    by_cases same : i = index
    · subst same
      have linked : Chain (Function.update s.mem.link addr (s.mem.procmemlist i)) (some addr)
          (addr :: free i) := by
        refine .cons ?_
        rw [Function.update_self]
        exact others
      simpa [Memory.releaseMem, Memory.setLink] using linked
    · simpa [Memory.releaseMem, Memory.setLink, Function.update_of_ne same] using others
  · calc (s.live.erase ⟨addr, index⟩ ++ freeBlocks (Function.update free index (addr :: free index)))
        |>.Perm (s.live.erase ⟨addr, index⟩ ++ ⟨addr, index⟩ :: freeBlocks free) :=
          List.Perm.append_left _ (freeBlocks_push bound addr)
      List.Perm _ (⟨addr, index⟩ :: (s.live.erase ⟨addr, index⟩ ++ freeBlocks free)) := List.perm_middle
      List.Perm _ (s.live ++ freeBlocks free) :=
          List.Perm.append_right _ (List.perm_cons_erase live).symm
      List.Perm _ s.cut := ok.accounted

/-- A store into a live block touches no free list. -/
theorem store (ok : AllocOk arena memlen free s) {b : Block} (live : b ∈ s.live)
    (next : Option Addr) :
    AllocOk arena memlen free { s with mem := s.mem.setLink b.addr next } where
  chain := fun i within => (ok.chain i within).update next (ok.live_not_free live within)
  accounted := ok.accounted
  bound := ok.bound
  carved := ok.carved
  room := ok.room

/-- Every call keeps the invariant. -/
theorem step (ok : AllocOk arena memlen free s) {op : MemOp} {s' : MemState}
    (stepped : memStep op s = some s') : ∃ free', AllocOk arena memlen free' s' := by
  cases op with
  | allocate index =>
    simp only [memStep] at stepped
    split at stepped
    · rename_i bound
      obtain ⟨⟨addr, mem⟩, allocated, rfl⟩ := Option.map_eq_some_iff.mp stepped
      cases head : s.mem.procmemlist index with
      | some first =>
        simp only [Memory.allocateMem, head, Option.some.injEq, Prod.mk.injEq] at allocated
        obtain ⟨rfl, rfl⟩ := allocated
        simpa using ok.take bound head
      | none =>
        simp only [Memory.allocateMem, head] at allocated
        split at allocated
        · rename_i room
          simp only [Option.some.injEq, Prod.mk.injEq] at allocated
          obtain ⟨rfl, rfl⟩ := allocated
          exact ⟨free, by simpa using ok.carve bound room⟩
        · cases allocated
    · cases stepped
  | release index addr =>
    simp only [memStep] at stepped
    split at stepped
    · rename_i live
      obtain rfl := Option.some.inj stepped
      exact ok.release live
    · cases stepped
  | store addr next =>
    simp only [memStep] at stepped
    split at stepped
    · rename_i live
      obtain rfl := Option.some.inj stepped
      obtain ⟨b, mem, own⟩ := List.any_eq_true.mp live
      obtain rfl : b.addr = addr := of_decide_eq_true own
      exact ⟨free, ok.store mem next⟩
    · cases stepped

end AllocOk

/-! ## The result -/

/-- The live blocks, the blocks on the free lists and the rest of the arena are the arena. -/
structure Integrity (arena memlen : Nat) (free : Nat → List Addr) (s : MemState) : Prop where
  /-- The free lists are finite and return to no block. -/
  chain : ∀ i < nalloc, Chain s.mem.link (s.mem.procmemlist i) (free i) ∧ (free i).Nodup
  /-- The parts do not overlap, lie inside the arena and make it up. -/
  parts : Partition arena memlen
    (⟨s.mem.tail, s.mem.taillen⟩ :: (s.live ++ freeBlocks free).map Block.segment)
  /-- A block has the class it was first cut with, and was cut once. -/
  classes : (∀ b ∈ s.live ++ freeBlocks free, b ∈ s.cut) ∧ (s.cut.map Block.addr).Nodup
  /-- Memory is out only where neither the free list nor the rest of the arena has a block. -/
  fails : ∀ i < nalloc, s.mem.allocateMem i = none →
    free i = [] ∧ s.mem.taillen < procmemlen.getD i 0

theorem AllocOk.integrity {arena memlen : Nat} {free : Nat → List Addr} {s : MemState}
    (ok : AllocOk arena memlen free s) : Integrity arena memlen free s where
  chain := fun i bound => ⟨ok.chain i bound, (ok.chain i bound).nodup⟩
  parts := (ok.carved.partition ok.room).perm
    (List.Perm.cons _ (ok.accounted.symm.map Block.segment))
  classes := ⟨fun b mem => ok.accounted.mem_iff.mp mem, ok.addresses⟩
  fails := by
    intro i bound failed
    simp only [Memory.allocateMem] at failed
    split at failed
    · cases failed
    · rename_i head
      split at failed
      · cases failed
      · rename_i short
        have chain := ok.chain i bound
        rw [head] at chain
        cases own : free i with
        | nil => exact ⟨rfl, Nat.lt_of_not_le short⟩
        | cons first rest =>
          rw [own] at chain
          cases chain

/-- In every sequence of calls the allocator keeps the arena in order. -/
theorem arena_in_order {m : Memory} {arena memlen : Nat} {last : MemState}
    (run : Run memStep Always (.fresh m arena memlen) last) :
    ∃ free, Integrity arena memlen free last := by
  have ok : ∃ free, AllocOk arena memlen free last :=
    run.invariant (fun s => ∃ free, AllocOk arena memlen free s) ⟨_, .fresh m arena memlen⟩
      fun _ _ _ ⟨_, ok⟩ _ stepped => ok.step stepped
  obtain ⟨free, ok⟩ := ok
  exact ⟨free, ok.integrity⟩

/-- Two blocks are cut, both are released, the client having stored into one, and the one that was
released last is allocated again. -/
theorem arena_in_order_after_reuse : ∃ last : MemState, (∃ free, Integrity 1000 100 free last) ∧
    last.live = [⟨1000, 4⟩] ∧ last.mem.procmemlist 4 = some 1032 ∧ last.mem.tail = 1064 := by
  obtain ⟨last, run, checked⟩ := exists_run_of_execute
    [.allocate 4, .allocate 4, .store 1000 (some 1032), .release 4 1032, .release 4 1000, .allocate 4]
    (fun s : MemState => s.live == [⟨1000, 4⟩] && s.mem.procmemlist 4 == some 1032 &&
      s.mem.tail == 1064)
    (by decide +kernel : (execute memStep _
      (.fresh ⟨fun _ => none, fun _ => none, 0, 0⟩ 1000 100)).any _ = true)
  simp only [Bool.and_eq_true, beq_iff_eq] at checked
  exact ⟨last, arena_in_order run, checked.1.1, checked.1.2, checked.2⟩

end Microcsp
