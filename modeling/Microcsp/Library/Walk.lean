import Mathlib.Data.List.TakeWhile
import Microcsp.Library.LinkedFifo

/-!
# Walking along a linked list

A loop that walks along the links with the cell before in its other hand, and what can be done at
the place it comes to: a new cell goes between the two, or the cell reached is taken out. The loop
of an arbitrary structure need not end, so the walk has a number of steps; on a chain the number of
its cells is enough. Nothing below mentions a particular system.
-/

namespace Library

universe u

variable {α : Type u}

/-- Walk on while there is a cell that passes. The cell before the place reached and the cell there
are the result, and nothing when the steps do not do. -/
def walk (link : α → Option α) (pass : α → Bool) :
    Nat → Option α → Option α → Option (Option α × Option α)
  | _, prev, none => some (prev, none)
  | 0, prev, some a => if pass a then none else some (prev, some a)
  | fuel + 1, prev, some a =>
    if pass a then walk link pass fuel (some a) (link a) else some (prev, some a)

/-- A walk that comes to its end does so with more steps too. -/
theorem walk_of_le {link : α → Option α} {pass : α → Bool} {fuel more : Nat} (le : fuel ≤ more)
    {prev first : Option α} {reached : Option α × Option α}
    (walked : walk link pass fuel prev first = some reached) :
    walk link pass more prev first = some reached := by
  induction fuel generalizing more prev first with
  | zero =>
    cases first with
    | none => cases more <;> exact walked
    | some a =>
      simp only [walk] at walked
      split at walked
      · cases walked
      · rename_i stops
        cases more <;> simpa only [walk, if_neg stops] using walked
  | succ fuel ih =>
    obtain ⟨more, rfl⟩ : ∃ n, more = n + 1 := Nat.exists_eq_add_one.mpr (by omega)
    cases first with
    | none => exact walked
    | some a =>
      simp only [walk] at walked ⊢
      split at walked
      · rename_i passes
        rw [if_pos passes]
        exact ih (by omega) walked
      · rename_i stops
        rw [if_neg stops]
        exact walked

/-- On a chain the walk comes to the first cell that does not pass. -/
theorem walk_eq {link : α → Option α} {first : Option α} {cells : List α}
    (chain : Chain link first cells) (pass : α → Bool) {fuel : Nat} (enough : cells.length ≤ fuel)
    (prev : Option α) :
    walk link pass fuel prev first =
      some ((cells.takeWhile pass).getLast?.or prev, (cells.dropWhile pass).head?) := by
  induction chain generalizing fuel prev with
  | nil => cases fuel <;> rfl
  | @cons a rest chain ih =>
    obtain ⟨fuel, rfl⟩ : ∃ n, fuel = n + 1 := Nat.exists_eq_add_one.mpr (by
      simp only [List.length_cons] at enough
      omega)
    have enough : rest.length ≤ fuel := by simpa using enough
    by_cases passes : pass a = true
    · simp only [walk, passes, if_true, ih enough, List.takeWhile_cons, List.dropWhile_cons,
        List.getLast?_cons, Option.some.injEq, Prod.mk.injEq, and_true]
      cases (rest.takeWhile pass).getLast? <;> rfl
    · simp only [walk, passes, Bool.false_eq_true, if_false, List.takeWhile_cons,
        List.dropWhile_cons, List.getLast?_nil, Option.none_or, List.head?_cons]

namespace Chain

variable {link link' : α → Option α} {first : Option α} {a : α} {before after : List α}

/-- The first cell of a chain is the first of the list. -/
theorem head_eq {cells : List α} (chain : Chain link first cells) : first = cells.head? := by
  cases chain <;> rfl

/-- The cells from a place on are a chain of their own. -/
theorem rest (chain : Chain link first (before ++ after)) : Chain link after.head? after := by
  induction before generalizing first with
  | nil =>
    have same : first = after.head? := chain.head_eq
    exact same ▸ chain
  | cons b before ih =>
    cases chain with
    | cons chain => exact ih chain

/-- What comes after a cell is a chain from its link. -/
theorem behind (chain : Chain link first (before ++ a :: after)) : Chain link (link a) after := by
  cases chain.rest with
  | cons chain => exact chain

/-- A cell that is linked to another chain, the cells before it keeping their links. -/
theorem redirect {others : List α} (chain : Chain link first (before ++ a :: after))
    (rest : Chain link' (link' a) others) (same : ∀ b ∈ before, link' b = link b) :
    Chain link' first (before ++ a :: others) := by
  induction before generalizing first with
  | nil =>
    cases chain
    exact .cons rest
  | cons b before ih =>
    cases chain with
    | cons chain =>
      refine .cons ?_
      rw [same b List.mem_cons_self]
      exact ih chain fun c mem => same c (List.mem_cons_of_mem _ mem)

variable [DecidableEq α]

/-- A new cell goes to the front. -/
theorem insert_front (chain : Chain link first after) (absent : a ∉ after) :
    Chain (Function.update link a first) (some a) (a :: after) := by
  refine .cons ?_
  rw [Function.update_self]
  exact chain.update _ absent

/-- A new cell goes behind another one. -/
theorem insert_after {p : α} (chain : Chain link first (before ++ p :: after))
    (absent : a ∉ before ++ p :: after) :
    Chain (Function.update (Function.update link p (some a)) a after.head?) first
      (before ++ p :: a :: after) := by
  have nodup := chain.nodup
  obtain ⟨-, later, apart⟩ := List.nodup_append.mp nodup
  obtain ⟨once, -⟩ := List.nodup_cons.mp later
  have other : p ≠ a := by
    rintro rfl
    exact absent (by simp)
  refine chain.redirect ?_ fun b mem => ?_
  · rw [Function.update_of_ne other, Function.update_self]
    refine .cons ?_
    rw [Function.update_self]
    have later : Chain link after.head? after := chain.behind.head_eq ▸ chain.behind
    refine (later.update _ once).update _ fun mem => absent ?_
    exact List.mem_append_right _ (List.mem_cons_of_mem _ mem)
  · have ne : b ≠ a := by
      rintro rfl
      exact absent (List.mem_append_left _ mem)
    rw [Function.update_of_ne ne, Function.update_of_ne (apart b mem p List.mem_cons_self)]

/-- The cell behind another one is taken out. -/
theorem remove_after {p : α} (chain : Chain link first (before ++ p :: a :: after)) :
    Chain (Function.update link p (link a)) first (before ++ p :: after) := by
  obtain ⟨-, later, apart⟩ := List.nodup_append.mp chain.nodup
  obtain ⟨once, -⟩ := List.nodup_cons.mp later
  refine chain.redirect ?_ fun b mem => ?_
  · rw [Function.update_self]
    have tail := chain.behind
    rw [tail.head_eq] at tail
    cases tail with
    | cons tail => exact tail.update _ fun mem => once (List.mem_cons_of_mem _ mem)
  · exact Function.update_of_ne (apart b mem p List.mem_cons_self) _ _

end Chain

end Library
