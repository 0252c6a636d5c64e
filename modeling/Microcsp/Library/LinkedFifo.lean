import Mathlib.Data.List.Basic
import Mathlib.Data.List.Nodup
import Mathlib.Data.List.TakeWhile
import Mathlib.Logic.Function.Basic

/-!
# Singly linked queues

Cells that are linked through a map of link words, and the queue that a head and a tail pointer
make of them. A chain determines its cells and cannot repeat one, so the list it spells is the
abstract value of the structure. Appending a cell that is in the queue already cuts the queue off
before it. Nothing below mentions a particular system.
-/

namespace Library

universe u

variable {α : Type u}

/-- The cells from the first one along the links are those of the list, and the last has no link. -/
inductive Chain (link : α → Option α) : Option α → List α → Prop where
  /-- No cell. -/
  | nil : Chain link none []
  /-- A cell and what it links to. -/
  | cons {a : α} {rest : List α} : Chain link (link a) rest → Chain link (some a) (a :: rest)

namespace Chain

variable {link link' : α → Option α} {first : Option α} {cells : List α}

/-- The first cell determines the others. -/
theorem unique {others : List α} (chain : Chain link first cells)
    (other : Chain link first others) : cells = others := by
  induction chain generalizing others with
  | nil => cases other; rfl
  | cons _ ih =>
    cases other with
    | cons rest => rw [ih rest]

/-- A cell of a chain starts a chain that is no longer. -/
theorem of_mem {a : α} (chain : Chain link first cells) (mem : a ∈ cells) :
    ∃ rest, Chain link (some a) rest ∧ rest.length ≤ cells.length := by
  induction chain with
  | nil => cases mem
  | cons rest ih =>
    rcases List.mem_cons.mp mem with rfl | later
    · exact ⟨_, cons rest, Nat.le_refl _⟩
    · obtain ⟨suffix', chain, shorter⟩ := ih later
      exact ⟨suffix', chain, Nat.le_succ_of_le shorter⟩

/-- A chain does not come back to a cell. -/
theorem nodup (chain : Chain link first cells) : cells.Nodup := by
  induction chain with
  | nil => exact List.nodup_nil
  | cons rest ih =>
    refine List.nodup_cons.mpr ⟨fun mem => ?_, ih⟩
    obtain ⟨again, chain, shorter⟩ := rest.of_mem mem
    have same := (cons rest).unique chain
    rw [← same] at shorter
    exact absurd shorter (Nat.not_succ_le_self _)

/-- Links of other cells do not matter. -/
theorem congr (chain : Chain link first cells) (same : ∀ a ∈ cells, link' a = link a) :
    Chain link' first cells := by
  induction chain with
  | nil => exact nil
  | cons rest ih =>
    have first := same _ List.mem_cons_self
    exact cons (first ▸ ih fun a mem => same a (List.mem_cons_of_mem _ mem))

/-- The last cell of a chain has no link. -/
theorem link_last {last : α} (chain : Chain link first cells) (is : cells.getLast? = some last) :
    link last = none := by
  induction chain with
  | nil => cases is
  | @cons a rest chain ih =>
    cases rest with
    | nil =>
      obtain rfl : a = last := by simpa using is
      generalize link a = next at chain
      cases chain
      rfl
    | cons b more =>
      rw [List.getLast?_cons_cons] at is
      exact ih is

variable [DecidableEq α]

/-- A link word that is stored elsewhere does not matter. -/
theorem update (chain : Chain link first cells) {a : α} (next : Option α) (other : a ∉ cells) :
    Chain (Function.update link a next) first cells :=
  chain.congr fun c mem => Function.update_of_ne (fun same : c = a => other (same ▸ mem)) _ _

/-- Linking the last cell to a new one and cutting the new one's own link: if the cell was in the
chain already, what came after it is lost. -/
theorem append {last b : α} (chain : Chain link first cells) (tail : cells.getLast? = some last) :
    Chain (Function.update (Function.update link last (some b)) b none) first
      (cells.takeWhile (fun a => decide (a ≠ b)) ++ [b]) := by
  have alone : Chain (Function.update (Function.update link last (some b)) b none) (some b) [b] := by
    refine cons ?_
    rw [Function.update_self]
    exact nil
  induction chain with
  | nil => cases tail
  | @cons a rest chain ih =>
    by_cases same : a = b
    · subst same
      simpa using alone
    · simp only [List.takeWhile_cons, ne_eq, same, not_false_eq_true, decide_true, if_true,
        List.cons_append]
      refine cons ?_
      rw [Function.update_of_ne same]
      cases rest with
      | nil =>
        obtain rfl : a = last := by simpa using tail
        rw [Function.update_self]
        exact alone
      | cons next others =>
        have tail : (next :: others).getLast? = some last := by simpa using tail
        have other : a ≠ last := fun is =>
          (List.nodup_cons.mp (cons chain).nodup).1 (is ▸ List.mem_of_getLast? tail)
        rw [Function.update_of_ne other]
        exact ih tail

end Chain

/-- A head and a tail pointer represent the queue of the cells of the list. -/
structure Fifo (link : α → Option α) (head tail : Option α) (cells : List α) : Prop where
  /-- The cells are linked in this order. -/
  chain : Chain link head cells
  /-- The tail pointer is that of the last cell. -/
  last : tail = cells.getLast?

namespace Fifo

variable {link link' : α → Option α} {head tail : Option α} {cells : List α}

/-- The empty queue. -/
theorem empty (link : α → Option α) : Fifo link none none [] := ⟨.nil, rfl⟩

/-- A queue without a head is empty. -/
theorem eq_nil (fifo : Fifo link none tail cells) : cells = [] := by
  cases fifo.chain
  rfl

/-- A head pointer is that of the first cell. -/
theorem eq_cons {a : α} (fifo : Fifo link (some a) tail cells) : ∃ rest, cells = a :: rest := by
  cases fifo.chain
  exact ⟨_, rfl⟩

/-- The head pointer is that of the first cell. -/
theorem head_eq (fifo : Fifo link head tail cells) : head = cells.head? := by
  cases fifo.chain <;> rfl

/-- Links of other cells do not matter. -/
theorem congr (fifo : Fifo link head tail cells) (same : ∀ a ∈ cells, link' a = link a) :
    Fifo link' head tail cells := ⟨fifo.chain.congr same, fifo.last⟩

/-- Removal of the first cell, when there are more. -/
theorem pop {a next : α} {rest : List α} (fifo : Fifo link (some a) tail (a :: rest))
    (more : link a = some next) : Fifo link (some next) tail rest := by
  obtain ⟨chain, last⟩ := fifo
  cases chain with
  | cons chain =>
    rw [more] at chain
    refine ⟨chain, ?_⟩
    cases chain
    rw [last, List.getLast?_cons_cons]

/-- Removal of the only cell. -/
theorem pop_last {a : α} {rest : List α} (fifo : Fifo link (some a) tail (a :: rest))
    (single : link a = none) : rest = [] := by
  cases fifo.chain with
  | cons chain =>
    rw [single] at chain
    cases chain
    rfl

variable [DecidableEq α]

/-- Appending to the empty queue. -/
theorem push_empty (b : α) (fifo : Fifo link head none cells) :
    head = none ∧ Fifo (Function.update link b none) (some b) (some b)
      (cells.takeWhile (fun a => decide (a ≠ b)) ++ [b]) := by
  obtain rfl : cells = [] := List.getLast?_eq_none_iff.mp fifo.last.symm
  refine ⟨fifo.head_eq, .cons ?_, rfl⟩
  rw [Function.update_self]
  exact .nil

/-- Appending to a queue that is not empty. -/
theorem push {last : α} (b : α) (fifo : Fifo link head (some last) cells) :
    head ≠ none ∧ Fifo (Function.update (Function.update link last (some b)) b none) head (some b)
      (cells.takeWhile (fun a => decide (a ≠ b)) ++ [b]) := by
  refine ⟨?_, fifo.chain.append fifo.last.symm, by simp⟩
  rw [fifo.head_eq]
  intro none
  obtain rfl : cells = [] := List.head?_eq_none_iff.mp none
  cases fifo.last

end Fifo

/-! ## Appending a cell that is there already -/

section Again

variable [DecidableEq α] {cells : List α} {b : α}

/-- Nothing changes exactly where the cell is the last one. -/
theorem takeWhile_append_eq_iff (nodup : cells.Nodup) :
    cells.takeWhile (fun a => decide (a ≠ b)) ++ [b] = cells ↔ cells.getLast? = some b := by
  constructor
  · intro same
    rw [← same, List.getLast?_concat]
  · intro last
    obtain ⟨before, rfl⟩ := List.getLast?_eq_some_iff.mp last
    have others : ∀ a ∈ before, decide (a ≠ b) = true := by
      intro a mem
      refine decide_eq_true ?_
      rintro rfl
      exact (List.nodup_append.mp nodup).2.2 a mem a (by simp) rfl
    rw [List.takeWhile_append_of_pos others]
    simp

/-- No cell is lost exactly where the cell is a new one or the last one. -/
theorem subset_takeWhile_append_iff (nodup : cells.Nodup) :
    (∀ a ∈ cells, a ∈ cells.takeWhile (fun a => decide (a ≠ b)) ++ [b]) ↔
      b ∉ cells ∨ cells.getLast? = some b := by
  constructor
  · intro kept
    by_contra lost
    obtain ⟨mem, notLast⟩ := not_or.mp lost
    obtain ⟨before, after, rfl⟩ := List.append_of_mem (not_not.mp mem)
    obtain ⟨-, later, apart⟩ := List.nodup_append.mp nodup
    obtain ⟨once, -⟩ := List.nodup_cons.mp later
    cases after with
    | nil => exact notLast (by simp)
    | cons a rest =>
      have others : ∀ c ∈ before, decide (c ≠ b) = true := by
        intro c own
        exact decide_eq_true fun same => apart c own b List.mem_cons_self same
      have found := kept a (by simp)
      rw [List.takeWhile_append_of_pos others] at found
      have new : a ≠ b := fun same => once (same ▸ List.mem_cons_self)
      have early : a ∈ before := by simpa [new] using found
      exact apart a early a (by simp) rfl
  · rintro (new | last)
    · intro a mem
      have whole : cells.takeWhile (fun a => decide (a ≠ b)) = cells := by
        rw [List.takeWhile_eq_self_iff]
        intro c own
        exact decide_eq_true fun same => new (same ▸ own)
      rw [whole]
      exact List.mem_append_left _ mem
    · rw [(takeWhile_append_eq_iff nodup).mpr last]
      exact fun _ mem => mem

end Again

end Library
