import Mathlib.Data.List.Perm.Basic
import Mathlib.Data.List.Pairwise
import Mathlib.Data.List.Nodup
import Mathlib.Algebra.BigOperators.Group.List.Basic
import Mathlib.Algebra.Ring.Nat

/-!
# Cutting an interval into segments

Segments that are cut off an interval one after the other, each where the one before it ends, are
apart from each other and from what is left, and all together are the interval. Nothing of this
depends on the order in which the segments are listed. Nothing below mentions a particular system.
-/

namespace Library

/-- An interval of addresses. -/
structure Segment where
  /-- The first address. -/
  start : Nat
  /-- The number of addresses. -/
  length : Nat
  deriving DecidableEq, Repr

/-- Two segments have no address in common. -/
def Segment.Apart (a b : Segment) : Prop :=
  a.start + a.length ≤ b.start ∨ b.start + b.length ≤ a.start

theorem Segment.Apart.symm {a b : Segment} (apart : a.Apart b) : b.Apart a := Or.symm apart

/-- Segments that are apart and not empty start at different addresses. -/
theorem Segment.Apart.start_ne {a b : Segment} (apart : a.Apart b) (first : 0 < a.length)
    (second : 0 < b.length) : a.start ≠ b.start := by
  rcases apart with before | after <;> omega

/-- The segments make up the interval of this size from this address on. -/
structure Partition (base size : Nat) (segments : List Segment) : Prop where
  /-- No two of them overlap. -/
  apart : segments.Pairwise Segment.Apart
  /-- They lie inside. -/
  inside : ∀ s ∈ segments, base ≤ s.start ∧ s.start + s.length ≤ base + size
  /-- Their lengths add up. -/
  total : (segments.map Segment.length).sum = size

/-- The order in which the segments are listed does not matter. -/
theorem Partition.perm {base size : Nat} {segments others : List Segment}
    (parts : Partition base size segments) (perm : segments.Perm others) :
    Partition base size others where
  apart := (perm.pairwise_iff Segment.Apart.symm).mp parts.apart
  inside := fun s mem => parts.inside s (perm.mem_iff.mpr mem)
  total := (perm.map Segment.length).sum_eq.symm.trans parts.total

/-- The segments, the last one first, were cut one after the other, and the next would start
here. -/
def Carved (base : Nat) : List Segment → Nat → Prop
  | [], next => next = base
  | s :: older, next => s.start + s.length = next ∧ Carved base older s.start

namespace Carved

variable {base next : Nat} {segments : List Segment}

/-- The segments lie between the base and the next one. -/
theorem inside (carved : Carved base segments next) :
    base ≤ next ∧ ∀ s ∈ segments, base ≤ s.start ∧ s.start + s.length ≤ next := by
  induction segments generalizing next with
  | nil => exact ⟨Nat.le_of_eq carved.symm, by simp⟩
  | cons s older ih =>
    obtain ⟨ends, carved⟩ := carved
    obtain ⟨low, inner⟩ := ih carved
    refine ⟨by omega, List.forall_mem_cons.mpr ⟨⟨low, by omega⟩, fun r mem => ?_⟩⟩
    have := inner r mem
    omega

/-- No two of them overlap. -/
theorem apart (carved : Carved base segments next) : segments.Pairwise Segment.Apart := by
  induction segments generalizing next with
  | nil => exact List.Pairwise.nil
  | cons s older ih =>
    obtain ⟨-, carved⟩ := carved
    exact List.pairwise_cons.mpr ⟨fun r mem => Or.inr (carved.inside.2 r mem).2, ih carved⟩

/-- Their lengths add up. -/
theorem total (carved : Carved base segments next) :
    base + (segments.map Segment.length).sum = next := by
  induction segments generalizing next with
  | nil => exact carved.symm
  | cons s older ih =>
    obtain ⟨ends, carved⟩ := carved
    have below := ih carved
    simp only [List.map_cons, List.sum_cons]
    omega

/-- The segments start at multiples of a number, as the base does, exactly where the lengths of all
but the last one are multiples of it. -/
theorem dvd_starts_iff {d : Nat} (dvd : d ∣ base) (carved : Carved base segments next) :
    (∀ s ∈ segments, d ∣ s.start) ↔ ∀ s ∈ segments.tail, d ∣ s.length := by
  induction segments generalizing next with
  | nil => simp
  | cons s older ih =>
    obtain ⟨-, carved⟩ := carved
    have below := ih carved
    cases older with
    | nil =>
      obtain rfl : s.start = base := carved
      simpa using dvd
    | cons r rest =>
      obtain ⟨meets, -⟩ := carved
      constructor
      · intro starts
        have later := below.mp fun t mem => starts t (List.mem_cons_of_mem _ mem)
        refine List.forall_mem_cons.mpr ⟨?_, later⟩
        have here : d ∣ r.start + r.length := meets ▸ starts s List.mem_cons_self
        exact (Nat.dvd_add_right (starts r (by simp))).mp here
      · intro lengths
        have earlier := below.mpr fun t mem => lengths t (List.mem_cons_of_mem _ mem)
        refine List.forall_mem_cons.mpr ⟨?_, earlier⟩
        rw [← meets]
        exact Nat.dvd_add (earlier r List.mem_cons_self) (lengths r List.mem_cons_self)

/-- With what is left they make up the interval. -/
theorem partition {left size : Nat} (carved : Carved base segments next)
    (room : next + left = base + size) : Partition base size (⟨next, left⟩ :: segments) where
  apart := List.pairwise_cons.mpr ⟨fun r mem => Or.inr (carved.inside.2 r mem).2, carved.apart⟩
  inside := by
    obtain ⟨low, inner⟩ := carved.inside
    refine List.forall_mem_cons.mpr ⟨⟨low, Nat.le_of_eq room⟩, fun r mem => ?_⟩
    have := inner r mem
    omega
  total := by
    have sum := carved.total
    simp only [List.map_cons, List.sum_cons]
    omega

end Carved

end Library
