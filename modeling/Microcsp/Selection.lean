import Microcsp.Alternation

/-!
# The order of selection

`enable_alt` visits the guards in ascending cyclic order until it finds one ready, and `disable_alt`
visits them again in the opposite order. The guard selected is therefore the first one in the order
of enabling that is ready when it is disabled. What the other processes and the handlers do between
the steps is arbitrary, but for the ALT record itself.
-/

open Library

namespace Microcsp

/-- The others leave the ALT record of the process alone. -/
def LeavesAlt (p : Addr) (g g' : Globals) : Prop := (g'.proc p).alt = (g.proc p).alt

/-- The guard that `enable_alt` visits at a point of its execution and the ready indicator. -/
def opening : Act × Globals → Option (Nat × Bool)
  | (.enableAlt p (.loop i k _), g) =>
    if k < (g.proc p).alt.nrGuards then some (i, (g.enableGuard p i).1) else none
  | _ => none

/-- The guard that `disable_alt` visits at a point of its execution and the ready indicator. -/
def closing : Act × Globals → Option (Nat × Bool)
  | (.disableAlt p (.loop i (_ + 1) _), g) => some (i, (g.disableGuard p i).1)
  | _ => none

/-- The guard at a distance from the first one, in ascending cyclic order. -/
def nth (first n j : Nat) : Nat := (first + j) % n

/-- The next guard is one further from the first. -/
theorem plus1Mod_nth (first n j : Nat) : plus1Mod (nth first n j) n = nth first n (j + 1) := by
  simp [plus1Mod, nth, Nat.add_assoc]

/-- The guard before is one closer to the first. -/
theorem minus1Mod_nth {first n j : Nat} (positive : 0 < n) :
    minus1Mod (nth first n (j + 1)) n = nth first n j := by
  have step : nth first n (j + 1) = plus1Mod (nth first n j) n := (plus1Mod_nth first n j).symm
  have below : nth first n j < n := Nat.mod_lt _ positive
  rw [step, minus1Mod, plus1Mod]
  rcases Nat.lt_or_ge (nth first n j + 1) n with inside | wraps
  · rw [Nat.mod_eq_of_lt inside]
    have same : nth first n j + 1 + n - 1 = nth first n j + n := by omega
    rw [same, Nat.add_mod_right, Nat.mod_eq_of_lt below]
  · have last : nth first n j + 1 = n := by omega
    rw [last, Nat.mod_self, Nat.zero_add, Nat.mod_eq_of_lt (by omega)]
    omega

/-- What is stored fits in eight bits. -/
theorem toUint8_le (n : Int) : toUint8 n ≤ 255 := by
  unfold toUint8
  omega

/-- The number of a guard fits in eight bits. -/
theorem toUint8_of_lt {n j : Nat} (size : n ≤ 255) (below : j < n) : toUint8 j = j := by
  unfold toUint8
  omega

/-- The first guard is at distance zero. -/
theorem nth_zero (alt : Alternation) : nth alt.first alt.nrGuards 0 = alt.first := by
  unfold nth Alternation.first
  split
  · simp
  · simp [plus1Mod]

/-! ## Enabling -/

section Enabling

variable {p : Addr} {alt : Alternation} {g g' : Globals} {trace : List (Act × Globals)}
  {ready : Bool} {partner : Option Addr}

/-- The guards that were visited and not found ready. -/
def passed (alt : Alternation) (k : Nat) : List (Nat × Bool) :=
  (List.range k).map fun j => (nth alt.first alt.nrGuards j, false)

theorem passed_succ (alt : Alternation) (k : Nat) :
    passed alt (k + 1) = passed alt k ++ [(nth alt.first alt.nrGuards k, false)] := by
  simp [passed, List.range_succ]

/-- What `enable_alt` has visited when it is at a point. -/
def EnabledAt (alt : Alternation) (visits : List (Nat × Bool)) : EnablePc → Prop
  | .enter => visits = []
  | .loop i k _ => k ≤ alt.nrGuards ∧ i = nth alt.first alt.nrGuards k ∧ visits = passed alt k
  | .insert i k _ _ =>
    k < alt.nrGuards ∧ i = nth alt.first alt.nrGuards k ∧ visits = passed alt (k + 1)
  | .done i k ready _ =>
    k < alt.nrGuards ∧ i = nth alt.first alt.nrGuards k ∧ visits = passed alt k ++ [(i, ready)] ∧
      (ready = false → k + 1 = alt.nrGuards)

theorem opening_visit {i k : Nat} (more : k < (g.proc p).alt.nrGuards) :
    opening (.enableAlt p (.loop i k partner), g) = some (i, (g.enableGuard p i).1) := if_pos more

/-- One step of `enable_alt`. -/
theorem EnabledAt.go {pc : EnablePc} {act : Act} {before : List (Act × Globals)}
    (enabled : EnabledAt alt (before.filterMap opening) pc) (same : (g.proc p).alt = alt)
    (goes : activation.go (.enableAlt p pc) g = some (act, g')) :
    ∃ pc', act = .enableAlt p pc' ∧ g'.proc = g.proc ∧
      EnabledAt alt ((before ++ [(Act.enableAlt p pc, g)]).filterMap opening) pc' := by
  cases pc with
  | enter =>
    obtain ⟨rfl, rfl⟩ := go_enable_enter goes
    refine ⟨_, rfl, rfl, Nat.zero_le _, ?_, ?_⟩
    · rw [nth_zero, same]
    · rw [filterMap_concat_none rfl]
      exact enabled
  | loop i k partner =>
    obtain ⟨bound, rfl, visited⟩ := enabled
    rcases Nat.lt_or_ge k alt.nrGuards with more | none
    · obtain ⟨rfl, found⟩ := go_enable_visit (same ▸ more) goes
      rw [filterMap_concat_some (opening_visit (same ▸ more)), visited]
      rcases found with ⟨ready, partner, rfl⟩ | ⟨idle, ⟨partner, rfl⟩ | ⟨t, partner, rfl, -⟩⟩
      · exact ⟨_, rfl, Globals.enableGuard_proc .., more, rfl, by rw [ready], nofun⟩
      · exact ⟨_, rfl, Globals.enableGuard_proc .., more, by rw [same, plus1Mod_nth], by rw [idle, passed_succ]⟩
      · exact ⟨_, rfl, Globals.enableGuard_proc .., more, rfl, by rw [idle, passed_succ]⟩
    · have whole : k = alt.nrGuards := Nat.le_antisymm bound none
      obtain ⟨rfl, positive, rfl⟩ := go_enable_last (same ▸ Nat.not_lt.mpr none) goes
      rw [same] at positive
      obtain ⟨j, rfl⟩ : ∃ j, k = j + 1 := ⟨k - 1, by omega⟩
      have quiet : opening (Act.enableAlt p (.loop (nth alt.first alt.nrGuards (j + 1)) (j + 1)
          partner), g) = Option.none := by
        simp [opening, same, whole]
      refine ⟨_, rfl, rfl, ?_, ?_, ?_, fun _ => whole⟩
      · omega
      · rw [same, minus1Mod_nth positive]
        rfl
      · rw [filterMap_concat_none quiet, visited, passed_succ, same, minus1Mod_nth positive]
        rfl
  | insert i k t partner =>
    obtain ⟨more, rfl, visited⟩ := enabled
    obtain ⟨-, rfl, rfl⟩ := go_enable_insert goes
    refine ⟨_, rfl, rfl, more, by rw [same, plus1Mod_nth], ?_⟩
    rw [filterMap_concat_none rfl]
    exact visited
  | done i k ready partner => cases goes

/-- What `enable_alt` has visited when it returns: some guards that were not ready and one more,
which is the last one if it was not ready either. The index and the count of the ALT record tell
which. -/
theorem enable_visits {after : Globals} (size : alt.nrGuards ≤ 255) (same : (g.proc p).alt = alt)
    (completes : Completes activation (LeavesAlt p) (.enableAlt p .enter) g trace
      (.alt ready partner) after) :
    ∃ k, k < alt.nrGuards ∧
      trace.filterMap opening = passed alt k ++ [(nth alt.first alt.nrGuards k, ready)] ∧
      (ready = false → k + 1 = alt.nrGuards) ∧
      (after.proc p).alt =
        { alt with index := nth alt.first alt.nrGuards k, count := k } := by
  have whole := completes.rule
    (fun act g before => ∃ pc, act = Act.enableAlt p pc ∧ (g.proc p).alt = alt ∧
      EnabledAt alt (before.filterMap opening) pc)
    (fun trace v g' => ∀ ready partner, v = .alt ready partner → ∃ k, k < alt.nrGuards ∧
      trace.filterMap opening = passed alt k ++ [(nth alt.first alt.nrGuards k, ready)] ∧
      (ready = false → k + 1 = alt.nrGuards) ∧
      (g'.proc p).alt = { alt with index := nth alt.first alt.nrGuards k, count := k })
    ?_ ?_ ⟨.enter, rfl, same, rfl⟩
  · exact whole _ _ rfl
  · rintro _ g act g₁ g₂ before ⟨pc, rfl, same, enabled⟩ goes others
    obtain ⟨pc', rfl, kept, later⟩ := enabled.go same goes
    exact ⟨pc', rfl, by rw [others, kept, same], later⟩
  · rintro _ g v g' before ⟨pc, rfl, same, enabled⟩ returns ready partner rfl
    obtain ⟨i, k, ready, partner, rfl, made, rfl⟩ := done_enable returns
    cases made
    obtain ⟨more, rfl, visited, last⟩ := enabled
    have small : nth alt.first alt.nrGuards k < alt.nrGuards := Nat.mod_lt _ (by omega)
    refine ⟨k, more, ?_, last, ?_⟩
    · rw [filterMap_concat_none rfl]
      exact visited
    · rw [Globals.setAlt_alt_self, same, toUint8_of_lt size small, toUint8_of_lt size more]

end Enabling

/-! ## Disabling -/

section Disabling

variable {p : Addr} {first n : Nat} {g g' : Globals} {trace : List (Act × Globals)}
  {partner : Option Addr}

/-- The visited guard that was ready and is the first in the order of enabling, which is the order
opposite to that of the visits. -/
def firstReady (visits : List (Nat × Bool)) (otherwise : Nat) : Nat :=
  ((visits.reverse.find? Prod.snd).map Prod.fst).getD otherwise

/-- A guard visited last comes first. -/
theorem firstReady_append (visits : List (Nat × Bool)) (i : Nat) (ready : Bool) (otherwise : Nat) :
    firstReady (visits ++ [(i, ready)]) otherwise =
      if ready then i else firstReady visits otherwise := by
  cases ready <;> simp [firstReady]

/-- The guards at the distances from the greatest one down. -/
def descending (first n k left : Nat) : List Nat :=
  ((List.range (k + 1)).drop left).reverse.map (nth first n)

theorem descending_full (first n k : Nat) : descending first n k (k + 1) = [] := by
  simp [descending]

theorem descending_succ {first n k left : Nat} (more : left ≤ k) :
    descending first n k left = descending first n k (left + 1) ++ [nth first n left] := by
  have below : left < (List.range (k + 1)).length := by simpa using Nat.lt_succ_of_le more
  rw [descending, List.drop_eq_getElem_cons below]
  simp [descending]

/-- What `disable_alt` has visited when it is at a point, and the index it has stored. -/
def DisabledAt (first n k : Nat) (alt : Alternation) (visits : List (Nat × Bool)) :
    DisablePc → Prop
  | .enter => visits = [] ∧ alt.index = nth first n k ∧ alt.count = k
  | .loop i left _ =>
    left ≤ k + 1 ∧ (0 < left → i = nth first n (left - 1)) ∧
      visits.map Prod.fst = descending first n k left ∧ alt.index = firstReady visits (nth first n k)
  | .copy _ _ _ _ | .clear _ _ =>
    visits.map Prod.fst = descending first n k 0 ∧ alt.index = firstReady visits (nth first n k)

theorem closing_visit (i left : Nat) :
    closing (.disableAlt p (.loop i (left + 1) partner), g) = some (i, (g.disableGuard p i).1) := rfl

/-- One step of `disable_alt`, which changes nothing but the index in the ALT record. -/
theorem DisabledAt.go {k : Nat} {pc : DisablePc} {act : Act} {before : List (Act × Globals)}
    (size : n ≤ 255) (number : (g.proc p).alt.nrGuards = n)
    (disabled : DisabledAt first n k (g.proc p).alt (before.filterMap closing) pc)
    (goes : activation.go (.disableAlt p pc) g = some (act, g')) :
    ∃ pc' index, act = .disableAlt p pc' ∧ (g'.proc p).alt = { (g.proc p).alt with index := index } ∧
      DisabledAt first n k (g'.proc p).alt
        ((before ++ [(Act.disableAlt p pc, g)]).filterMap closing) pc' := by
  cases pc with
  | enter =>
    obtain ⟨none, index, count⟩ := disabled
    obtain ⟨rfl, rfl⟩ := go_disable_enter goes
    refine ⟨_, _, rfl, rfl, ?_, fun _ => ?_, ?_, ?_⟩
    · rw [count]
    · rw [count]
      exact index
    · rw [filterMap_concat_none rfl, none, count, descending_full]
      rfl
    · rw [filterMap_concat_none rfl, none, index]
      rfl
  | loop i left partner =>
    obtain ⟨bound, place, visited, selected⟩ := disabled
    cases left with
    | zero =>
      obtain ⟨c, dest, len, -, rfl, rfl⟩ := go_disable_last goes
      refine ⟨_, _, rfl, rfl, ?_⟩
      rw [filterMap_concat_none rfl]
      exact ⟨visited, selected⟩
    | succ left =>
      obtain ⟨e, rfl, positive, rfl⟩ := go_disable_visit goes
      obtain rfl : i = nth first n left := place (Nat.succ_pos left)
      rw [number] at positive
      have small : nth first n left < n := Nat.mod_lt _ positive
      have kept : (((g.emit e).disableGuard p (nth first n left)).2.2.proc p).alt =
          (g.proc p).alt := by
        rw [Globals.disableGuard_proc]
        rfl
      rw [filterMap_concat_some (closing_visit _ left)]
      let index := if (g.disableGuard p (nth first n left)).1 then toUint8 (nth first n left)
        else (g.proc p).alt.index
      refine ⟨_, index, rfl, ?_, Nat.le_of_succ_le bound, fun more => ?_, ?_, ?_⟩
      · rw [Globals.select, Globals.setAlt_alt_self, kept]
      · obtain ⟨j, rfl⟩ : ∃ j, left = j + 1 := ⟨left - 1, by omega⟩
        rw [number, minus1Mod_nth positive]
        rfl
      · rw [List.map_append, visited, descending_succ (Nat.le_of_succ_le_succ bound)]
        rfl
      · rw [Globals.select, Globals.setAlt_alt_self, firstReady_append, kept, selected,
          toUint8_of_lt size small]
  | copy c dest len partner =>
    obtain ⟨vars, -, rfl, rfl⟩ := go_disable_copy goes
    refine ⟨_, _, rfl, rfl, ?_⟩
    rw [filterMap_concat_none rfl]
    exact disabled
  | clear c partner => cases goes

/-- What `disable_alt` has visited when it returns: the guards that were enabled in the opposite
order. The index is that of the first ready one in the order of enabling, and the rest of the ALT
record is as it was. -/
theorem disable_visits {k : Nat} {alt : Alternation} {v : Value} {after : Globals}
    (size : n ≤ 255) (record : (g.proc p).alt = alt) (number : alt.nrGuards = n)
    (index : alt.index = nth first n k) (count : alt.count = k)
    (completes : Completes activation (LeavesAlt p) (.disableAlt p .enter) g trace v after) :
    (trace.filterMap closing).map Prod.fst = descending first n k 0 ∧
      (after.proc p).alt =
        { alt with index := firstReady (trace.filterMap closing) (nth first n k) } := by
  subst record
  refine completes.rule
    (fun act g' before => ∃ pc index, act = Act.disableAlt p pc ∧
      (g'.proc p).alt = { (g.proc p).alt with index := index } ∧
      DisabledAt first n k (g'.proc p).alt (before.filterMap closing) pc)
    (fun trace _ g' => (trace.filterMap closing).map Prod.fst = descending first n k 0 ∧
      (g'.proc p).alt =
        { (g.proc p).alt with index := firstReady (trace.filterMap closing) (nth first n k) })
    ?_ ?_ ⟨.enter, _, rfl, rfl, rfl, index, count⟩
  · rintro _ g₀ act g₁ g₂ before ⟨pc, index, rfl, same, disabled⟩ goes others
    obtain ⟨pc', index', rfl, kept, later⟩ := disabled.go size (by rw [same]; exact number) goes
    refine ⟨pc', index', rfl, ?_, ?_⟩
    · rw [others, kept, same]
    · rw [others]
      exact later
  · rintro _ g₀ v g' before ⟨pc, index, rfl, same, disabled⟩ returns
    obtain ⟨partner, rfl, ⟨i, rfl, ended⟩ | ⟨c, rfl, rfl⟩⟩ := done_disable returns
    · obtain ⟨-, -, visited, selected⟩ := disabled
      rw [filterMap_concat_none rfl]
      refine ⟨visited, ?_⟩
      rw [← selected, same]
      rcases ended with ⟨x, dest, -, rfl⟩ | ⟨rfl, -⟩
      · exact same
      · exact same
    · rw [filterMap_concat_none rfl]
      refine ⟨disabled.1, ?_⟩
      rw [← disabled.2, same]
      exact same

end Disabling

/-! ## The order -/

/-- The guards visited by the two loops of an ALT with the ready indicators, what `enable_alt`
returned and the index in the end: the ALT has `n` guards. -/
structure InOrder (first n : Nat) (opened closed : List (Nat × Bool)) (ready : Bool) (index : Nat) :
    Prop where
  /-- `enable_alt` visits at least one guard and none twice. -/
  number : 0 < opened.length ∧ opened.length ≤ n
  /-- It goes up from the first one. -/
  ascending : opened.map Prod.fst = (List.range opened.length).map (nth first n)
  /-- It goes on after a guard only if that one is not ready. -/
  goesOn : ∀ j, j + 1 < opened.length → opened[j]?.map Prod.snd = some false
  /-- It returns whether the last one is ready. -/
  returns : opened.getLast?.map Prod.snd = some ready
  /-- It stops at one that is not ready after all of them only. -/
  stops : ready = false → opened.length = n
  /-- `disable_alt` visits the same guards in the opposite order. -/
  descending : closed.map Prod.fst = (opened.map Prod.fst).reverse
  /-- The first one, in the order of enabling, that is ready when it is disabled is selected. -/
  selected : ∀ i, closed.reverse.find? Prod.snd = some (i, true) → index = i

/-- An ALT selects in this order, whatever the others do to the channels, the timeouts and the clock
between any two steps. -/
theorem selection_in_order {p : Addr} {g g₁ g₂ g₃ : Globals} {opened closed : List (Act × Globals)}
    {ready : Bool} {partner : Option Addr} {v : Value} (size : (g.proc p).alt.nrGuards ≤ 255)
    (enables : Completes activation (LeavesAlt p) (.enableAlt p .enter) g opened
      (.alt ready partner) g₁)
    (between : LeavesAlt p g₁ g₂)
    (disables : Completes activation (LeavesAlt p) (.disableAlt p .enter) g₂ closed v g₃) :
    InOrder (g.proc p).alt.first (g.proc p).alt.nrGuards (opened.filterMap opening)
      (closed.filterMap closing) ready (g₃.proc p).alt.index := by
  obtain ⟨k, more, visited, last, left⟩ := enable_visits size rfl enables
  obtain ⟨visitedAgain, right⟩ := disable_visits size (between.trans left) rfl rfl rfl disables
  have indices : (opened.filterMap opening).map Prod.fst =
      (List.range (k + 1)).map (nth (g.proc p).alt.first (g.proc p).alt.nrGuards) := by
    rw [visited, List.range_succ]
    simp [passed]
  have length : (opened.filterMap opening).length = k + 1 := by
    rw [visited]
    simp [passed]
  constructor
  · omega
  · rw [indices, length]
  · intro j goesOn
    have before : j < k := by omega
    rw [visited, List.getElem?_append_left (by simpa [passed] using before)]
    simp [passed, before]
  · rw [visited]
    simp
  · intro idle
    rw [length]
    exact last idle
  · rw [visitedAgain, indices, descending, List.drop_zero, List.map_reverse]
  · intro i chosen
    rw [right, firstReady, chosen]
    rfl

/-- A process that is left alone leaves its ALT record alone. -/
theorem leavesAlt_refl (p : Addr) (g : Globals) : LeavesAlt p g g := rfl

/-- A process with three guards, the last one of which was selected before: the first guard is not
active, the second is an input without a sender and the third a skip. -/
def threeGuards : Globals :=
  { (zeroBoot 1000).g.setAlt 1000 ⟨fun i => if i = 0 then ⟨.skip, false⟩
      else if i = 1 then ⟨.chanin 0 none 0, true⟩ else ⟨.skip, true⟩, 3, 2, 0, false⟩ with
    current := some 1000 }

/-- The process visits the three guards in order and in the opposite order, and selects the third. -/
theorem selection_in_order_of_three :
    ∃ opened closed, InOrder 0 3 opened closed true 2 := by
  have check : ((altAlone 10 1000 threeGuards).map fun r =>
      (r.2.1, (r.2.2.2.2.2.proc 1000).alt.index)) = some (.alt true none, 2) := by decide
  obtain ⟨⟨opened, v, g₁, closed, w, g₃⟩, computed, result⟩ := Option.map_eq_some_iff.mp check
  obtain ⟨rfl, index⟩ := Prod.mk.inj result
  obtain ⟨enables, disables⟩ := completes_alone (leavesAlt_refl 1000) computed
  have order := selection_in_order (by decide) enables rfl disables
  exact ⟨_, _, index ▸ order⟩

end Microcsp
