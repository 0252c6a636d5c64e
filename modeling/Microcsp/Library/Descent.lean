import Microcsp.Library.Transition

/-!
# Ranks that descend

A rank that falls in every counted step and rises in no other bounds the number of counted steps in
any execution, and a step repeated as long as it can be comes to an end within the rank. Nothing
below mentions a particular system.
-/

namespace Library

universe u v

variable {S : Type u} {L : Type v}

/-- An execution under a condition is one under every condition that its labels imply. -/
theorem executeUnder_mono {step : L → S → Option S} {ok weaker : L → S → Bool} {labels : List L}
    {first last : S} (implies : ∀ label ∈ labels, ∀ s, ok label s = true → weaker label s = true)
    (done : executeUnder step ok labels first = some last) :
    executeUnder step weaker labels first = some last := by
  induction labels generalizing first with
  | nil => exact done
  | cons label labels ih =>
    simp only [executeUnder] at done ⊢
    split at done
    · rename_i allowed
      obtain ⟨middle, stepped, rest⟩ := Option.bind_eq_some_iff.mp done
      rw [if_pos (implies label List.mem_cons_self first allowed), stepped]
      exact ih (fun l mem => implies l (List.mem_cons_of_mem _ mem)) rest
    · contradiction

/-- Where the invariant holds, which steps keep, the rank falls in counted steps and rises in none. -/
structure Descends (step : L → S → Option S) (ok : L → S → Bool) (inv : S → Prop)
    (counts : L → Bool) (rank : S → Nat) : Prop where
  /-- Steps keep the invariant. -/
  keeps : ∀ label before after, inv before → ok label before = true →
    step label before = some after → inv after
  /-- A counted step lowers the rank. -/
  falls : ∀ label before after, inv before → ok label before = true → counts label = true →
    step label before = some after → rank after < rank before
  /-- No step raises it. -/
  stays : ∀ label before after, inv before → ok label before = true → counts label = false →
    step label before = some after → rank after ≤ rank before

namespace Descends

variable {step : L → S → Option S} {ok : L → S → Bool} {inv : S → Prop} {counts : L → Bool}
  {rank : S → Nat} {first last : S}

/-- An execution counts no more steps than the rank falls. -/
theorem count_le (descends : Descends step ok inv counts rank) {labels : List L} (start : inv first)
    (done : executeUnder step ok labels first = some last) :
    labels.countP counts + rank last ≤ rank first := by
  induction labels generalizing first with
  | nil =>
    obtain rfl := Option.some.inj done
    simp
  | cons label labels ih =>
    simp only [executeUnder] at done
    split at done
    · rename_i allowed
      obtain ⟨middle, stepped, rest⟩ := Option.bind_eq_some_iff.mp done
      have later := ih (descends.keeps label first middle start allowed stepped) rest
      cases counted : counts label with
      | true =>
        have falls := descends.falls label first middle start allowed counted stepped
        rw [List.countP_cons_of_pos counted]
        omega
      | false =>
        have stays := descends.stays label first middle start allowed counted stepped
        rw [List.countP_cons_of_neg (by simp [counted])]
        omega
    · contradiction

/-- A counted step can be repeated only so often. -/
theorem ends (descends : Descends step ok inv counts rank) {label : L}
    (counted : counts label = true) (start : inv first) : ∃ n ≤ rank first, ∃ last,
      executeUnder step ok (List.replicate n label) first = some last ∧
        (ok label last = false ∨ step label last = none) := by
  induction size : rank first using Nat.strongRecOn generalizing first with
  | ind r ih =>
    subst size
    cases allowed : ok label first with
    | false => exact ⟨0, Nat.zero_le _, first, rfl, Or.inl allowed⟩
    | true =>
      cases stepped : step label first with
      | none => exact ⟨0, Nat.zero_le _, first, rfl, Or.inr stepped⟩
      | some next =>
        have falls := descends.falls label first next start allowed counted stepped
        obtain ⟨n, bound, last, done, ended⟩ := ih _ falls
          (descends.keeps label first next start allowed stepped) rfl
        refine ⟨n + 1, by omega, last, ?_, ended⟩
        rw [List.replicate_succ, executeUnder, if_pos allowed, stepped]
        exact done

end Descends

end Library
