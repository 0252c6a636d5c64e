import Microcsp.Selection

/-!
# The fair ALT

A fair ALT begins with the guard after the one selected last. The cyclic distance of a guard from
that one shrinks in each ALT in which the guard would have been ready and another one was selected,
so that the guard is selected in one of as many ALTs as there are guards.
-/

open Library

namespace Microcsp

/-! ## Distances -/

/-- Distances add up. -/
theorem nth_nth (first n j k : Nat) : nth (nth first n j) n k = nth first n (j + k) := by
  simp [nth, Nat.add_assoc]

/-- Every guard is at some distance from the first one. -/
theorem exists_nth {first n i : Nat} (begins : first < n) (inside : i < n) :
    ∃ d, d < n ∧ i = nth first n d := by
  rcases Nat.le_total first i with after | before
  · refine ⟨i - first, by omega, ?_⟩
    have sum : first + (i - first) = i := by omega
    rw [nth, sum, Nat.mod_eq_of_lt inside]
  · rcases Nat.eq_or_lt_of_le before with rfl | before
    · exact ⟨0, by omega, by rw [nth, Nat.add_zero, Nat.mod_eq_of_lt inside]⟩
    · refine ⟨i + n - first, by omega, ?_⟩
      have sum : first + (i + n - first) = i + n := by omega
      rw [nth, sum, Nat.add_mod_right, Nat.mod_eq_of_lt inside]

/-- The guard that is selected is one of those visited. -/
theorem firstReady_mem (visits : List (Nat × Bool)) (otherwise : Nat) :
    firstReady visits otherwise = otherwise ∨
      firstReady visits otherwise ∈ visits.map Prod.fst := by
  unfold firstReady
  cases found : visits.reverse.find? Prod.snd with
  | none => exact Or.inl rfl
  | some visit =>
    refine Or.inr (List.mem_map_of_mem ?_)
    exact List.mem_reverse.mp (List.mem_of_find?_eq_some found)

/-! ## One ALT -/

/-- What is seen of a completed ALT. -/
structure Completed where
  /-- The guards that `enable_alt` visited. -/
  opened : List (Nat × Bool)
  /-- The guards that `disable_alt` visited. -/
  closed : List (Nat × Bool)
  /-- The guard that was selected. -/
  selected : Nat

/-- The process completes an ALT, while the others do what they like but for its ALT record. -/
def CompletesAlt (p : Addr) (g : Globals) (alt : Completed) (g' : Globals) : Prop :=
  ∃ opened ready partner g₁ g₂ closed v,
    Completes activation (LeavesAlt p) (.enableAlt p .enter) g opened (.alt ready partner) g₁ ∧
    LeavesAlt p g₁ g₂ ∧
    Completes activation (LeavesAlt p) (.disableAlt p .enter) g₂ closed v g' ∧
    alt = ⟨opened.filterMap opening, closed.filterMap closing, (g'.proc p).alt.index⟩

/-- The ALT record of a process is set up for fair selection among `n` guards. -/
structure Fair (p : Addr) (n : Nat) (g : Globals) : Prop where
  /-- The number of guards. -/
  number : (g.proc p).alt.nrGuards = n
  /-- Selection is not by priority. -/
  fair : (g.proc p).alt.altPri = false

/-- In an ALT that finds a guard ready whenever it visits it, the guard selected is not farther from
the first one. -/
theorem CompletesAlt.selects {p : Addr} {n d : Nat} {g g' : Globals} {alt : Completed}
    (size : n ≤ 255) (inside : d < n) (record : Fair p n g)
    (found : ∀ visit ∈ alt.opened, visit.1 = nth (plus1Mod (g.proc p).alt.index n) n d →
      visit.2 = true)
    (completes : CompletesAlt p g alt g') :
    Fair p n g' ∧ (g'.proc p).alt.index = alt.selected ∧
      ∃ j, j ≤ d ∧ alt.selected = nth (plus1Mod (g.proc p).alt.index n) n j := by
  obtain ⟨opened, ready, partner, g₁, g₂, closed, v, enables, between, disables, rfl⟩ := completes
  obtain ⟨rfl, fair⟩ := record
  have first : (g.proc p).alt.first = plus1Mod (g.proc p).alt.index (g.proc p).alt.nrGuards := by
    rw [Alternation.first, fair]
    rfl
  obtain ⟨k, more, visited, last, left⟩ := enable_visits size rfl enables
  obtain ⟨visitedAgain, right⟩ := disable_visits size (between.trans left) rfl rfl rfl disables
  rw [← first] at found ⊢
  have near : k ≤ d := by
    refine Nat.not_lt.mp fun far => ?_
    have missed := found (nth (g.proc p).alt.first (g.proc p).alt.nrGuards d, false) (by
      simp only [visited, List.mem_append]
      exact Or.inl (List.mem_map.mpr ⟨d, List.mem_range.mpr far, rfl⟩)) rfl
    cases missed
  refine ⟨⟨by rw [right], by rw [right]; exact fair⟩, rfl, ?_⟩
  simp only [right]
  rcases firstReady_mem (closed.filterMap closing)
    (nth (g.proc p).alt.first (g.proc p).alt.nrGuards k) with same | visit
  · exact ⟨k, near, same⟩
  · rw [visitedAgain, descending] at visit
    obtain ⟨j, mem, same⟩ := List.mem_map.mp visit
    simp only [List.drop_zero, List.mem_reverse, List.mem_range] at mem
    exact ⟨j, by omega, same.symm⟩

/-! ## Successive ALTs -/

/-- Between two ALTs the process does not call `init_alt` or `init_alt_pri`, and nobody else changes
what these set. The guards may change. -/
structure KeepsAlt (p : Addr) (g g' : Globals) : Prop where
  /-- The number of guards. -/
  number : (g'.proc p).alt.nrGuards = (g.proc p).alt.nrGuards
  /-- The mode of selection. -/
  mode : (g'.proc p).alt.altPri = (g.proc p).alt.altPri
  /-- The index of the guard selected last. -/
  index : (g'.proc p).alt.index = (g.proc p).alt.index

/-- The process completes these ALTs one after another. -/
inductive CompletesAlts (p : Addr) : Globals → List Completed → Globals → Prop where
  /-- No ALT. -/
  | nil (g : Globals) : CompletesAlts p g [] g
  /-- One ALT and those that follow it. -/
  | cons {g g₁ g₂ g' : Globals} {alt : Completed} {alts : List Completed} (keeps : KeepsAlt p g g₁)
      (completes : CompletesAlt p g₁ alt g₂) (later : CompletesAlts p g₂ alts g') :
      CompletesAlts p g (alt :: alts) g'

theorem Fair.keeps {p : Addr} {n : Nat} {g g' : Globals} (record : Fair p n g)
    (keeps : KeepsAlt p g g') : Fair p n g' :=
  ⟨keeps.number.trans record.number, keeps.mode.trans record.fair⟩

/-- The ALT record stays set up for fair selection. -/
theorem CompletesAlts.fair {p : Addr} {n : Nat} {g g' : Globals} {alts : List Completed}
    (size : n ≤ 255) (record : Fair p n g) (completes : CompletesAlts p g alts g') : Fair p n g' := by
  induction completes with
  | nil g => exact record
  | cons keeps completes later ih =>
    obtain ⟨opened, ready, partner, g₁, g₂, closed, v, enables, between, disables, rfl⟩ := completes
    obtain ⟨number, fair⟩ := record.keeps keeps
    obtain ⟨k, more, visited, last, left⟩ := enable_visits (number.symm ▸ size) rfl enables
    obtain ⟨visitedAgain, right⟩ :=
      disable_visits (number.symm ▸ size) (between.trans left) rfl rfl rfl disables
    exact ih ⟨by rw [right]; exact number, by rw [right]; exact fair⟩

/-- A guard that is found ready whenever it is visited is selected within one ALT more than its
distance from the first guard. -/
theorem CompletesAlts.selects {p : Addr} {n d : Nat} {g g' : Globals} {alts : List Completed}
    (size : n ≤ 255) (inside : d < n) (record : Fair p n g)
    (found : ∀ alt ∈ alts, ∀ visit ∈ alt.opened,
      visit.1 = nth (plus1Mod (g.proc p).alt.index n) n d → visit.2 = true)
    (many : d < alts.length) (completes : CompletesAlts p g alts g') :
    ∃ alt ∈ alts, alt.selected = nth (plus1Mod (g.proc p).alt.index n) n d := by
  induction completes generalizing d with
  | nil g => simp at many
  | @cons g g₁ g₂ g' alt alts keeps completes later ih =>
    have visits := found alt List.mem_cons_self
    rw [← keeps.index] at found visits ⊢
    obtain ⟨fair, index, j, near, selected⟩ :=
      completes.selects size inside (record.keeps keeps) visits
    rcases Nat.eq_or_lt_of_le near with rfl | closer
    · exact ⟨alt, List.mem_cons_self, selected⟩
    · have moved : nth (plus1Mod (g₂.proc p).alt.index n) n (d - j - 1) =
          nth (plus1Mod (g₁.proc p).alt.index n) n d := by
        have sum : j + 1 + (d - j - 1) = d := by omega
        rw [index, selected, plus1Mod_nth, nth_nth, sum]
      rw [List.length_cons] at many
      obtain ⟨alt', mem, chosen⟩ := ih (by omega) fair
        (fun alt' mem visit visited same => found alt' (List.mem_cons_of_mem _ mem) visit visited
          (same.trans moved)) (by omega)
      exact ⟨alt', List.mem_cons_of_mem _ mem, chosen.trans moved⟩

/-- After `init_alt` with `n` guards, a guard that in each of `n` consecutive ALTs is found ready
whenever `enable_alt` or `disable_alt` visits it is selected in one of them. -/
theorem bounded_bypass {p : Addr} {n i : Nat} {set : Alternation} {g g₁ g' : Globals}
    {earlier alts : List Completed} (some : 1 ≤ n) (size : n ≤ 255) (inside : i < n)
    (setup : (g.proc p).alt = set.initAlt n) (before : CompletesAlts p g earlier g₁)
    (completes : CompletesAlts p g₁ alts g') (number : alts.length = n)
    (found : ∀ alt ∈ alts, ∀ visit ∈ alt.opened ++ alt.closed, visit.1 = i → visit.2 = true) :
    ∃ alt ∈ alts, alt.selected = i := by
  have stored : toUint8 n = n := by
    unfold toUint8
    omega
  have record : Fair p n g := ⟨by rw [setup]; exact stored, by rw [setup]; rfl⟩
  obtain ⟨d, close, rfl⟩ := exists_nth (Nat.mod_lt ((g₁.proc p).alt.index + 1) some) inside
  exact completes.selects size close (before.fair size record)
    (fun alt mem visit visited => found alt mem visit (List.mem_append_left _ visited))
    (number ▸ close)

/-- The ALTs that a process completes when it is left alone and does not change its guards. -/
def altsAlone (p : Addr) : Nat → Globals → Option (List Completed × Globals)
  | 0, g => some ([], g)
  | number + 1, g =>
    match altAlone 10 p g with
    | some (opened, .alt _ _, _, closed, _, g') =>
      (altsAlone p number g').map fun later =>
        (⟨opened.filterMap opening, closed.filterMap closing, (g'.proc p).alt.index⟩ :: later.1,
          later.2)
    | _ => none

theorem completesAlts_alone {p : Addr} {number : Nat} {g g' : Globals} {alts : List Completed}
    (computed : altsAlone p number g = some (alts, g')) : CompletesAlts p g alts g' := by
  induction number generalizing g alts with
  | zero =>
    cases computed
    exact .nil _
  | succ number ih =>
    simp only [altsAlone] at computed
    split at computed
    · rename_i opened ready partner g₁ closed w g₂ one
      obtain ⟨⟨later, g₃⟩, rest, made⟩ := Option.map_eq_some_iff.mp computed
      cases made
      obtain ⟨enables, disables⟩ := completes_alone (leavesAlt_refl p) one
      exact .cons ⟨rfl, rfl, rfl⟩ ⟨_, _, _, _, _, _, _, enables, rfl, disables, rfl⟩ (ih rest)
    · cases computed

/-- A process that has called `init_alt` for two skip guards. -/
def twoSkips : Globals :=
  let g := (zeroBoot 1000).g
  let alt : Alternation := ⟨fun _ => ⟨.skip, true⟩, 0, 0, 0, false⟩
  { g.setAlt 1000 (alt.initAlt 2) with current := some 1000 }

/-- The second of two skip guards is selected in one of two ALTs. -/
theorem bounded_bypass_of_two : ∃ alts : List Completed, alts.length = 2 ∧
    ∃ alt ∈ alts, alt.selected = 1 := by
  have check : ((altsAlone 1000 2 twoSkips).map fun r => (r.1.length, r.1.all fun alt =>
      (alt.opened ++ alt.closed).all fun visit => !(visit.1 == 1) || visit.2)) =
        some (2, true) := by decide
  obtain ⟨⟨alts, g'⟩, computed, result⟩ := Option.map_eq_some_iff.mp check
  obtain ⟨number, ready⟩ := Prod.mk.inj result
  refine ⟨alts, number, bounded_bypass (by decide) (by decide) (by decide) rfl (.nil twoSkips)
    (completesAlts_alone computed) number fun alt mem visit visited same => ?_⟩
  have all := List.all_eq_true.mp (List.all_eq_true.mp ready alt mem) visit visited
  simpa [same] using all

end Microcsp
