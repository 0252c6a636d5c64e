import Mathlib.Logic.Function.Basic
import Mathlib.Data.Option.Basic

/-!
# Process memory

`memory.c`: blocks of sixteen fixed lengths, cut from one arena and recycled through one free
list a length. The link of a free list is the first word of the free block, and the first word
of a process record is its ready-queue link, so one map of link words serves both.
-/

namespace Microcsp

/-- The address of a block of the arena, which is the address of the process record in it. -/
abbrev Addr := Nat

/-- `NALLOC` -/
def nalloc : Nat := 16

/-- `procmemlen`, the block length of each index in bytes. -/
def procmemlen : List Nat := [8, 12, 16, 24, 32, 40, 56, 58, 64, 70, 80, 96, 112, 128, 160, 192]

/-- What the search of `procmemlen` comes to. -/
inductive MemIndex where
  /-- The index of the first sufficient length. -/
  | found (index : Nat)
  /-- A zero length ended the search: `error("No memory block large enough")`. -/
  | tooLarge
  /-- The search ran past the last entry and reads outside the table. -/
  | outside
  deriving DecidableEq, Repr

/-- The loop of `find_mem_index` from an index and the lengths that remain. -/
def findMemIndexFrom (size : Nat) : Nat → List Nat → MemIndex
  | _, [] => .outside
  | i, len :: rest =>
    if len = 0 then .tooLarge
    else if size ≤ len then .found i
    else findMemIndexFrom size (i + 1) rest

/-- `find_mem_index` -/
def findMemIndex (size : Nat) : MemIndex := findMemIndexFrom size 0 procmemlen

/-- The state of `memory.c` and the link words of all blocks. -/
structure Memory where
  /-- The first word of each block: `next` of a process record, `next` of a free block. -/
  link : Addr → Option Addr
  /-- `procmemlist`, the head of each free list. -/
  procmemlist : Nat → Option Addr
  /-- `tail`, where the part of the arena that was never allocated starts. -/
  tail : Addr
  /-- `taillen`, its length in bytes. -/
  taillen : Nat

namespace Memory

/-- Write one link word. -/
def setLink (m : Memory) (block : Addr) (next : Option Addr) : Memory :=
  { m with link := Function.update m.link block next }

/-- The body of `allocate_mem` between its DISABLE and its ENABLE. Nothing is returned where
the source calls `error("Out of memory")`. -/
def allocateMem (m : Memory) (index : Nat) : Option (Addr × Memory) :=
  match m.procmemlist index with
  | some block =>
    some (block, { m with procmemlist := Function.update m.procmemlist index (m.link block) })
  | none =>
    let len := procmemlen.getD index 0
    if len ≤ m.taillen then
      some (m.tail, { m with tail := m.tail + len, taillen := m.taillen - len })
    else none

/-- The body of `release_mem` between its DISABLE and its ENABLE. -/
def releaseMem (m : Memory) (index : Nat) (addr : Addr) : Memory :=
  { m.setLink addr (m.procmemlist index) with
    procmemlist := Function.update m.procmemlist index (some addr) }

/-- `memory_init`; the arena is what `Malloc` returned. -/
def memoryInit (m : Memory) (arena : Addr) (memlen : Nat) : Memory :=
  { m with procmemlist := fun _ => none, tail := arena, taillen := memlen }

/-- With an empty free list the block is cut off the arena. -/
theorem allocateMem_fresh {m m' : Memory} {index : Nat} {record : Addr}
    (allocated : m.allocateMem index = some (record, m')) (free : m.procmemlist index = none) :
    record = m.tail ∧ m'.tail = m.tail + procmemlen.getD index 0 ∧ m'.link = m.link ∧
      m'.procmemlist = m.procmemlist := by
  simp only [allocateMem, free] at allocated
  split at allocated
  · obtain ⟨rfl, rfl⟩ := Prod.mk.inj (Option.some.inj allocated)
    exact ⟨rfl, rfl, rfl, rfl⟩
  · cases allocated

end Memory

/-- Every memory class has a length. -/
theorem procmemlen_pos {index : Nat} (bound : index < nalloc) : 0 < procmemlen.getD index 0 := by
  revert bound
  revert index
  decide

/-- The index found is one of the indices that are left. -/
theorem findMemIndexFrom_bound {size first index : Nat} {lengths : List Nat}
    (found : findMemIndexFrom size first lengths = .found index) :
    index < first + lengths.length := by
  induction lengths generalizing first with
  | nil => cases found
  | cons len rest ih =>
    simp only [findMemIndexFrom] at found
    split at found
    · cases found
    · split at found
      · cases found
        simp
      · have bound := ih found
        simp only [List.length_cons]
        omega

/-- The index found is that of a memory class. -/
theorem findMemIndex_bound {size index : Nat} (found : findMemIndex size = .found index) :
    index < nalloc := by
  simpa [procmemlen, nalloc] using findMemIndexFrom_bound found

end Microcsp
