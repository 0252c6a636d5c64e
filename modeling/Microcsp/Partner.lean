import Microcsp.Selection

/-!
# The partner that is released

`disable_alt` returns the process it has found in the channel of an input, and `schedule` makes that
process ready. The partner comes from the first input, in the order of enabling, that is ready when
it is disabled, and the index from the first guard of any kind. A sender is therefore released
without having been served when another kind of guard is selected before its channel.
-/

open Library

namespace Microcsp

/-! ## One guard -/

/-- The guard is an input. -/
def GuardKind.isChanin : GuardKind → Bool
  | .chanin _ _ _ => true
  | _ => false

/-- A process that waits in the channel is found there if it is not the current one. -/
theorem Channel.disableInput_of_waiting {chan : Channel} {current : Option Addr} {w : Addr}
    (waiting : chan.waiting = some w) (other : current ≠ some w) :
    chan.disableInput current = (some w, chan) := by
  simp [Channel.disableInput, waiting, other]

/-- The current process is not found. -/
theorem Channel.disableInput_other {chan : Channel} {current : Option Addr} {w : Addr}
    (found : (chan.disableInput current).1 = some w) : current ≠ some w := by
  intro same
  have waiting := Channel.disableInput_partner found
  simp [Channel.disableInput, waiting, same] at found

section Guards

variable {g : Globals} {p w : Addr} {i : Nat} {c : ChanId}

@[simp] theorem Globals.disableGuard_current : (g.disableGuard p i).2.2.current = g.current := by
  unfold disableGuard
  split
  · split <;> rfl
  · rfl

@[simp] theorem Globals.disableGuard_vars : (g.disableGuard p i).2.2.vars = g.vars := by
  unfold disableGuard
  split
  · split <;> rfl
  · rfl

/-- A partner is another process that waits in the channel of an input. -/
theorem Globals.disableGuard_partner (current : g.current = some p)
    (found : (g.disableGuard p i).2.1 = some w) :
    (g.disableGuard p i).1 = true ∧ w ≠ p ∧
      ∃ c dest len, (g.guard p i).kind = .chanin c dest len ∧ (g.chan c).waiting = some w := by
  unfold disableGuard at found ⊢
  split at found
  · rename_i active
    simp only [if_pos active]
    cases kind : (g.guard p i).kind <;> simp only [kind] at found ⊢
    case chanin c dest len =>
      have waiting := Channel.disableInput_partner found
      have other := Channel.disableInput_other found
      refine ⟨Option.isSome_iff_exists.mpr ⟨w, found⟩, ?_, c, dest, len, rfl, waiting⟩
      rintro rfl
      exact other current
    all_goals cases found
  · cases found

/-- An input that is ready has a partner. -/
theorem Globals.disableGuard_chanin (input : (g.guard p i).kind.isChanin = true) :
    (g.disableGuard p i).1 = (g.disableGuard p i).2.1.isSome := by
  unfold disableGuard
  cases kind : (g.guard p i).kind <;> rw [kind] at input <;> cases input
  split <;> rfl

/-- Another process that waits in a channel is left there. -/
theorem Globals.disableGuard_chan (current : g.current = some p) (other : w ≠ p)
    (waiting : (g.chan c).waiting = some w) : (g.disableGuard p i).2.2.chan c = g.chan c := by
  unfold disableGuard
  split
  · split
    · rename_i d _ _ _
      change (g.disableChannelInput d).2.chan c = g.chan c
      rcases eq_or_ne c d with rfl | apart
      · have kept := Channel.disableInput_of_waiting waiting
          (fun same => other (Option.some.inj (same.symm.trans current)))
        simp [Globals.disableChannelInput, kept, Globals.setChan]
      · simp [Globals.disableChannelInput, Globals.setChan, Function.update_of_ne apart]
    all_goals rfl
  · rfl

/-- Nobody comes to a channel. -/
theorem Globals.disableGuard_waiting
    (waiting : ((g.disableGuard p i).2.2.chan c).waiting = some w) :
    (g.chan c).waiting = some w := by
  unfold disableGuard at waiting
  split at waiting
  · split at waiting
    · rename_i d _ _ _
      change ((g.disableChannelInput d).2.chan c).waiting = some w at waiting
      rcases eq_or_ne c d with rfl | apart
      · simp only [Globals.disableChannelInput, Globals.setChan, Function.update_self] at waiting
        exact Channel.disableInput_waiting waiting
      · simpa [Globals.disableChannelInput, Globals.setChan, Function.update_of_ne apart] using waiting
    all_goals exact waiting
  · exact waiting

end Guards

/-! ## The loop -/

/-- The process has an input guard for the channel. -/
def InputOf (g : Globals) (p : Addr) (c : ChanId) : Prop :=
  ∃ i dest len, (g.guard p i).kind = .chanin c dest len

/-- The channels are point-to-point and a sender has one active guard: no process waits in two
channels that the process reads. -/
def SendersApart (p : Addr) (g : Globals) : Prop :=
  ∀ c d w, InputOf g p c → InputOf g p d → w ≠ p → (g.chan c).waiting = some w →
    (g.chan d).waiting = some w → c = d

/-- What the others leave alone while the process is in `disable_alt`: its ALT record and its
variables, the current process as far as the process itself can see, and the senders that wait in
the channels that it reads. -/
structure LeavesInputs (p : Addr) (g g' : Globals) : Prop where
  /-- The ALT record. -/
  alt : LeavesAlt p g g'
  /-- The current process is the one that executes again. -/
  current : g'.current = g.current
  /-- The variables of the process. -/
  vars : g'.vars p = g.vars p
  /-- A sender stays where it is until it is served. -/
  senders : ∀ c w, InputOf g p c → w ≠ p → (g.chan c).waiting = some w → g'.chan c = g.chan c
  /-- No sender comes to a second channel. -/
  apart : SendersApart p g → SendersApart p g'

/-- The guard that `disable_alt` visits, the ready indicator and the partner found. -/
def serving : Act × Globals → Option (Nat × Bool × Option Addr)
  | (.disableAlt p (.loop i (_ + 1) _), g) =>
    some (i, (g.disableGuard p i).1, (g.disableGuard p i).2.1)
  | _ => none

theorem serving_visit {p : Addr} {g : Globals} {partner : Option Addr} (i left : Nat) :
    serving (.disableAlt p (.loop i (left + 1) partner), g) =
      some (i, (g.disableGuard p i).1, (g.disableGuard p i).2.1) := rfl

/-- The guards visited and their ready indicators are those of the order of selection. -/
theorem filterMap_closing (trace : List (Act × Globals)) :
    trace.filterMap closing = (trace.filterMap serving).map fun visit => (visit.1, visit.2.1) := by
  rw [List.map_filterMap]
  refine List.filterMap_congr fun point _ => ?_
  obtain ⟨act, g⟩ := point
  cases act with
  | disableAlt p pc =>
    cases pc with
    | loop i left partner => cases left <;> rfl
    | _ => rfl
  | _ => rfl

/-- The partner left by the visits: the last one found. -/
def partnerOf (visits : List (Nat × Bool × Option Addr)) : Option Addr :=
  visits.reverse.findSome? fun visit => visit.2.2

theorem partnerOf_append (visits : List (Nat × Bool × Option Addr)) (i : Nat) (ready : Bool)
    (found : Option Addr) :
    partnerOf (visits ++ [(i, ready, found)]) = found.or (partnerOf visits) := by
  cases found <;> simp [partnerOf]

/-- What is known of the channels after some steps of `disable_alt`. -/
structure Tracked (p : Addr) (g : Globals) (before : List (Act × Globals)) (g' : Globals) : Prop where
  /-- The guards are the same. -/
  guards : ∀ i, g'.guard p i = g.guard p i
  /-- The process executes. -/
  current : g'.current = some p
  /-- No sender waits in two channels. -/
  apart : SendersApart p g'
  /-- A partner waits in the channel of the input where it was found. -/
  found : ∀ visit ∈ before.filterMap serving, ∀ w, visit.2.2 = some w →
    visit.2.1 = true ∧ w ≠ p ∧ ∃ c dest len, (g.guard p visit.1).kind = .chanin c dest len ∧
      (g'.chan c).waiting = some w
  /-- An input that was ready has a partner. -/
  input : ∀ visit ∈ before.filterMap serving, (g.guard p visit.1).kind.isChanin = true →
    visit.2.1 = visit.2.2.isSome
  /-- A sender that waited before does so still. -/
  stay : ∀ point ∈ before, ∀ c w, InputOf g p c → w ≠ p → (point.2.chan c).waiting = some w →
    (g'.chan c).waiting = some w

/-- Before the first step. -/
theorem Tracked.start {p : Addr} {g : Globals} (running : g.current = some p)
    (apart : SendersApart p g) : Tracked p g [] g where
  guards _ := rfl
  current := running
  apart := apart
  found _ mem := absurd mem List.not_mem_nil
  input _ mem := absurd mem List.not_mem_nil
  stay _ mem := absurd mem List.not_mem_nil

/-- The channels that the process reads are the same. -/
theorem Tracked.inputOf {p : Addr} {g g' : Globals} {before : List (Act × Globals)} {c : ChanId}
    (tracked : Tracked p g before g') (input : InputOf g p c) : InputOf g' p c := by
  obtain ⟨i, dest, len, kind⟩ := input
  exact ⟨i, dest, len, by rw [tracked.guards]; exact kind⟩

/-- What the others do keeps it. -/
theorem Tracked.others {p : Addr} {g g₁ g₂ : Globals} {before : List (Act × Globals)}
    (tracked : Tracked p g before g₁) (leaves : LeavesInputs p g₁ g₂) : Tracked p g before g₂ := by
  have stays : ∀ c w, InputOf g p c → w ≠ p → (g₁.chan c).waiting = some w →
      (g₂.chan c).waiting = some w := fun c w input other waiting => by
    rw [leaves.senders c w (tracked.inputOf input) other waiting]
    exact waiting
  refine ⟨fun i => ?_, leaves.current.trans tracked.current, leaves.apart tracked.apart, ?_,
    tracked.input, fun point mem c w input other waiting =>
      stays c w input other (tracked.stay point mem c w input other waiting)⟩
  · rw [← tracked.guards i, Globals.guard, leaves.alt, Globals.guard]
  · intro visit mem w partner
    obtain ⟨ready, other, c, dest, len, kind, waiting⟩ := tracked.found visit mem w partner
    exact ⟨ready, other, c, dest, len, kind, stays c w ⟨_, _, _, kind⟩ other waiting⟩

/-- A step of `disable_alt` that takes nobody else out of a channel keeps it. -/
theorem Tracked.own {p : Addr} {g g₁ g₂ : Globals} {before : List (Act × Globals)} {act : Act}
    (tracked : Tracked p g before g₁) (guards : ∀ i, g₂.guard p i = g₁.guard p i)
    (current : g₂.current = g₁.current)
    (less : ∀ c w, (g₂.chan c).waiting = some w → (g₁.chan c).waiting = some w)
    (keeps : ∀ c w, w ≠ p → (g₁.chan c).waiting = some w → (g₂.chan c).waiting = some w)
    (visit : ∀ seen, serving (act, g₁) = some seen →
      seen = (seen.1, (g₁.disableGuard p seen.1).1, (g₁.disableGuard p seen.1).2.1)) :
    Tracked p g (before ++ [(act, g₁)]) g₂ := by
  have seenBefore : ∀ seen, seen ∈ (before ++ [(act, g₁)]).filterMap serving →
      seen ∈ before.filterMap serving ∨ serving (act, g₁) = some seen := by
    intro seen mem
    rw [List.filterMap_append, List.mem_append] at mem
    rcases mem with earlier | now
    · exact Or.inl earlier
    · obtain ⟨point, last, same⟩ := List.mem_filterMap.mp now
      rw [List.mem_singleton.mp last] at same
      exact Or.inr same
  refine ⟨fun i => (guards i).trans (tracked.guards i), current.trans tracked.current, ?_, ?_, ?_, ?_⟩
  · rintro c d w ⟨i, dest, len, kind⟩ ⟨j, dest', len', kind'⟩ other here there
    rw [guards] at kind kind'
    exact tracked.apart c d w ⟨_, _, _, kind⟩ ⟨_, _, _, kind'⟩ other (less c w here) (less d w there)
  · intro seen mem w partner
    rcases seenBefore seen mem with earlier | now
    · obtain ⟨ready, other, c, dest, len, kind, waiting⟩ := tracked.found seen earlier w partner
      exact ⟨ready, other, c, dest, len, kind, keeps c w other waiting⟩
    · rw [visit seen now] at partner ⊢
      obtain ⟨ready, other, c, dest, len, kind, waiting⟩ :=
        Globals.disableGuard_partner tracked.current partner
      rw [tracked.guards] at kind
      exact ⟨ready, other, c, dest, len, kind, keeps c w other waiting⟩
  · intro seen mem input
    rcases seenBefore seen mem with earlier | now
    · exact tracked.input seen earlier input
    · rw [visit seen now]
      rw [← tracked.guards] at input
      exact Globals.disableGuard_chanin input
  · intro point mem c w input other waiting
    rcases List.mem_append.mp mem with earlier | now
    · exact keeps c w other (tracked.stay point earlier c w input other waiting)
    · rw [List.mem_singleton.mp now] at waiting
      exact keeps c w other waiting

/-- What `disable_alt` has done when it is at a point. -/
def PartnerAt (p : Addr) (g : Globals) (before : List (Act × Globals)) (g' : Globals) :
    DisablePc → Prop
  | .enter => before = []
  | .loop _ _ partner => partner = partnerOf (before.filterMap serving)
  | .copy c dest len partner =>
    partner = partnerOf (before.filterMap serving) ∧
      (g.guard p (g'.proc p).alt.index).kind = .chanin c dest len
  | .clear c partner =>
    partner = partnerOf (before.filterMap serving) ∧ ∃ dest len h vars,
      (g.guard p (g'.proc p).alt.index).kind = .chanin c dest len ∧
      (Act.disableAlt p (.copy c dest len partner), h) ∈ before ∧
      (∀ visit ∈ before.filterMap serving, ∀ w, visit.2.2 = some w →
        ∀ d dest len, (g.guard p visit.1).kind = .chanin d dest len → (h.chan d).waiting = some w) ∧
      h.memcpy dest (h.chan c).src len = some vars ∧ g'.vars p = vars p

/-- One step of `disable_alt`. -/
theorem PartnerAt.go {p : Addr} {g g₁ g₂ : Globals} {before : List (Act × Globals)} {pc : DisablePc}
    {act : Act} (tracked : Tracked p g before g₁) (held : PartnerAt p g before g₁ pc)
    (goes : activation.go (.disableAlt p pc) g₁ = some (act, g₂)) :
    ∃ pc', act = .disableAlt p pc' ∧ Tracked p g (before ++ [(Act.disableAlt p pc, g₁)]) g₂ ∧
      PartnerAt p g (before ++ [(Act.disableAlt p pc, g₁)]) g₂ pc' := by
  cases pc with
  | enter =>
    obtain ⟨rfl, rfl⟩ := go_disable_enter goes
    refine ⟨_, rfl, tracked.own (fun _ => rfl) rfl (fun _ _ h => h) (fun _ _ _ h => h) nofun, ?_⟩
    rw [held]
    rfl
  | loop i left partner =>
    cases left with
    | zero =>
      obtain ⟨c, dest, len, kind, rfl, rfl⟩ := go_disable_last goes
      refine ⟨_, rfl, tracked.own (fun _ => rfl) rfl (fun _ _ h => h) (fun _ _ _ h => h) nofun, ?_, ?_⟩
      · rw [filterMap_concat_none rfl]
        exact held
      · rw [← tracked.guards]
        exact kind
    | succ left =>
      obtain ⟨e, rfl, positive, rfl⟩ := go_disable_visit goes
      have running : (g₁.emit e).current = some p := tracked.current
      refine ⟨_, rfl, tracked.own (fun j => ?_) ?_ (fun c w waiting => ?_)
        (fun c w other waiting => ?_) ?_, ?_⟩
      · rw [Globals.guard_select, Globals.guard_disableGuard, Globals.guard_emit]
      · exact Globals.disableGuard_current
      · exact Globals.disableGuard_waiting (g := g₁.emit e) waiting
      · have kept := Globals.disableGuard_chan (i := i) running other waiting
        exact (congrArg Channel.waiting kept).trans waiting
      · rintro seen now
        cases now
        rfl
      · change _ = partnerOf _
        rw [filterMap_concat_some (serving_visit i left), partnerOf_append, ← held]
  | copy c dest len partner =>
    obtain ⟨vars, copied, rfl, rfl⟩ := go_disable_copy goes
    obtain ⟨same, kind⟩ := held
    refine ⟨_, rfl, tracked.own (fun _ => rfl) rfl (fun _ _ h => h) (fun _ _ _ h => h) nofun, ?_,
      dest, len, g₁, vars, kind, ?_, ?_, copied, rfl⟩
    · rw [filterMap_concat_none rfl]
      exact same
    · simp
    · intro visit mem w partner d dest len kind
      rw [filterMap_concat_none rfl] at mem
      obtain ⟨-, -, d', dest', len', kind', waiting⟩ := tracked.found visit mem w partner
      obtain ⟨rfl, -⟩ := GuardKind.chanin.inj (kind.symm.trans kind')
      exact waiting
  | clear c partner => cases goes

/-- What the others do leaves it as it is. -/
theorem PartnerAt.others {p : Addr} {g g₁ g₂ : Globals} {before : List (Act × Globals)}
    {pc : DisablePc} (held : PartnerAt p g before g₁ pc) (leaves : LeavesInputs p g₁ g₂) :
    PartnerAt p g before g₂ pc := by
  cases pc with
  | enter => exact held
  | loop i left partner => exact held
  | copy c dest len partner =>
    refine ⟨held.1, ?_⟩
    rw [leaves.alt]
    exact held.2
  | clear c partner =>
    obtain ⟨same, dest, len, h, vars, kind, mem, waited, copied, stored⟩ := held
    refine ⟨same, dest, len, h, vars, ?_, mem, waited, copied, leaves.vars.trans stored⟩
    rw [leaves.alt]
    exact kind

/-! ## The partner returned -/

/-- What `disable_alt` owes the senders: it returns a partner if and only if an input is selected,
and then the process that waited in its channel, whose data has been copied and whose channel is
empty. A sender that waits in the channel of another input is not returned and waits there still. -/
structure ServedOnly (p : Addr) (g : Globals) (trace : List (Act × Globals)) (partner : Option Addr)
    (g' : Globals) : Prop where
  /-- There is a partner if and only if an input is selected. -/
  returned : partner.isSome = (g.guard p (g'.proc p).alt.index).kind.isChanin
  /-- The partner of an input has been served. -/
  served : ∀ c dest len, (g.guard p (g'.proc p).alt.index).kind = .chanin c dest len →
    ∃ w h vars, partner = some w ∧ (Act.disableAlt p (.copy c dest len partner), h) ∈ trace ∧
      (h.chan c).waiting = some w ∧ h.memcpy dest (h.chan c).src len = some vars ∧
      g'.vars p = vars p ∧ (g'.chan c).waiting = none
  /-- The others have not been released. -/
  others : ∀ c, InputOf g p c →
    (∀ dest len, (g.guard p (g'.proc p).alt.index).kind ≠ .chanin c dest len) →
    ∀ point ∈ trace, ∀ w, w ≠ p → (point.2.chan c).waiting = some w →
      partner ≠ some w ∧ (g'.chan c).waiting = some w

/-- No input is ready when it is disabled, or the first guard that is, in the order of enabling, is
an input. -/
def InputFirst (p : Addr) (g : Globals) (visits : List (Nat × Bool)) : Prop :=
  (∀ visit ∈ visits, (g.guard p visit.1).kind.isChanin = true → visit.2 = false) ∨
    ∃ i, visits.reverse.find? Prod.snd = some (i, true) ∧ (g.guard p i).kind.isChanin = true

/-- What is left of the loop when `disable_alt` returns. -/
theorem partner_tracked {p : Addr} {g g' : Globals} {trace : List (Act × Globals)}
    {partner : Option Addr} (running : g.current = some p) (apart : SendersApart p g)
    (completes : Completes activation (LeavesInputs p) (.disableAlt p .enter) g trace (.proc partner)
      g') :
    partner = partnerOf (trace.filterMap serving) ∧ ∃ h, Tracked p g trace h ∧
      (h.proc p).alt = (g'.proc p).alt ∧
      ((g.guard p (g'.proc p).alt.index).kind.isChanin = false ∧ g'.chan = h.chan ∨
        ∃ c, PartnerAt p g trace h (.clear c partner) ∧
          g' = h.setChan c { h.chan c with waiting := none }) := by
  have whole := completes.rule
    (fun act g' before => ∃ pc, act = Act.disableAlt p pc ∧ Tracked p g before g' ∧
      PartnerAt p g before g' pc)
    (fun trace v g' => ∃ partner, v = .proc partner ∧
      partner = partnerOf (trace.filterMap serving) ∧ ∃ h, Tracked p g trace h ∧
      (h.proc p).alt = (g'.proc p).alt ∧
      ((g.guard p (g'.proc p).alt.index).kind.isChanin = false ∧ g'.chan = h.chan ∨
        ∃ c, PartnerAt p g trace h (.clear c partner) ∧
          g' = h.setChan c { h.chan c with waiting := none })) ?_ ?_
    ⟨.enter, rfl, .start running apart, rfl⟩
  · obtain ⟨_, made, rest⟩ := whole
    cases made
    exact rest
  · rintro _ g₀ act g₁ g₂ before ⟨pc, rfl, tracked, held⟩ goes leaves
    obtain ⟨pc', rfl, tracked, held⟩ := held.go tracked goes
    exact ⟨pc', rfl, tracked.others leaves, held.others leaves⟩
  · rintro _ h v g' before ⟨pc, rfl, tracked, held⟩ returns
    obtain ⟨partner, rfl, ⟨i, rfl, ended⟩ | ⟨c, rfl, rfl⟩⟩ := done_disable returns
    · have later : Tracked p g (before ++ [(Act.disableAlt p (.loop i 0 partner), h)]) h :=
        tracked.own (fun _ => rfl) rfl (fun _ _ h => h) (fun _ _ _ h => h) nofun
      refine ⟨partner, rfl, ?_, h, later, ?_⟩
      · rw [filterMap_concat_none rfl]
        exact held
      · rcases ended with ⟨x, dest, kind, rfl⟩ | ⟨rfl, kind⟩
        · refine ⟨rfl, Or.inl ⟨?_, rfl⟩⟩
          rw [← tracked.guards]
          exact congrArg GuardKind.isChanin kind
        · refine ⟨rfl, Or.inl ⟨?_, rfl⟩⟩
          rw [← tracked.guards]
          cases made : (g'.guard p (g'.proc p).alt.index).kind <;> first | rfl | skip
          exact (kind _ _ _ made).elim
    · have later : Tracked p g (before ++ [(Act.disableAlt p (.clear c partner), h)]) h :=
        tracked.own (fun _ => rfl) rfl (fun _ _ h => h) (fun _ _ _ h => h) nofun
      refine ⟨partner, rfl, ?_, h, later, rfl, Or.inr ⟨c, ?_, rfl⟩⟩
      · rw [filterMap_concat_none rfl]
        exact held.1
      · obtain ⟨same, dest, len, h₀, vars, kind, mem, waited, copied, stored⟩ := held
        refine ⟨?_, dest, len, h₀, vars, kind, List.mem_append_left _ mem, ?_, copied, stored⟩
        · rw [filterMap_concat_none rfl]
          exact same
        · rw [filterMap_concat_none rfl]
          exact waited

/-- The first guard that was ready has the last partner found, if it has one. -/
theorem findSome?_of_find? {visits : List (Nat × Bool × Option Addr)}
    {visit : Nat × Bool × Option Addr} {w : Addr}
    (ready : ∀ visit ∈ visits, ∀ w, visit.2.2 = some w → visit.2.1 = true)
    (first : (visits.find? fun visit => visit.2.1) = some visit) (partner : visit.2.2 = some w) :
    (visits.findSome? fun visit => visit.2.2) = some w := by
  induction visits with
  | nil => cases first
  | cons head rest ih =>
    cases found : head.2.1 with
    | true =>
      obtain rfl : head = visit := by simpa [found] using first
      simp [partner]
    | false =>
      have none : head.2.2 = none := by
        cases left : head.2.2 with
        | none => rfl
        | some w => rw [ready head List.mem_cons_self w left] at found; cases found
      rw [List.find?_cons, found] at first
      rw [List.findSome?_cons, none]
      exact ih (fun visit mem => ready visit (List.mem_cons_of_mem _ mem)) first

/-- The guard that is selected is the first one that was ready, if any was. -/
theorem disable_selects {p : Addr} {g g' : Globals} {trace : List (Act × Globals)} {v : Value}
    (size : (g.proc p).alt.nrGuards ≤ 255) (inside : (g.proc p).alt.index < (g.proc p).alt.nrGuards)
    (completes : Completes activation (LeavesAlt p) (.disableAlt p .enter) g trace v g')
    (ready : ∃ visit ∈ trace.filterMap closing, visit.2 = true) :
    (trace.filterMap closing).reverse.find? Prod.snd = some ((g'.proc p).alt.index, true) := by
  have place : (g.proc p).alt.index = nth ((g.proc p).alt.index +
      (g.proc p).alt.count * (g.proc p).alt.nrGuards - (g.proc p).alt.count)
      (g.proc p).alt.nrGuards (g.proc p).alt.count := by
    have enough : (g.proc p).alt.count ≤ (g.proc p).alt.count * (g.proc p).alt.nrGuards :=
      Nat.le_mul_of_pos_right _ (by omega)
    rw [nth, Nat.sub_add_cancel (by omega), Nat.add_mul_mod_self_right, Nat.mod_eq_of_lt inside]
  obtain ⟨-, right⟩ := disable_visits size rfl rfl place rfl completes
  obtain ⟨visit, mem, found⟩ := ready
  cases first : (trace.filterMap closing).reverse.find? Prod.snd with
  | none =>
    have all := List.find?_eq_none.mp first visit (List.mem_reverse.mpr mem)
    exact absurd found all
  | some chosen =>
    have holds : chosen.2 = true := List.find?_some first
    rw [right, firstReady, first]
    exact congrArg some (Prod.ext rfl holds)

/-- There is no partner if no input was ready. -/
theorem partnerOf_eq_none {p : Addr} {g h : Globals} {trace : List (Act × Globals)}
    (tracked : Tracked p g trace h) :
    partnerOf (trace.filterMap serving) = none ↔ ∀ visit ∈ trace.filterMap closing,
      (g.guard p visit.1).kind.isChanin = true → visit.2 = false := by
  rw [partnerOf, List.findSome?_eq_none_iff, filterMap_closing]
  constructor
  · intro none visit mem input
    obtain ⟨seen, before, rfl⟩ := List.mem_map.mp mem
    have indicator := tracked.input seen before input
    rw [none seen (List.mem_reverse.mpr before)] at indicator
    exact indicator
  · intro idle seen mem
    have before := List.mem_reverse.mp mem
    cases partner : seen.2.2 with
    | none => rfl
    | some w =>
      obtain ⟨ready, -, c, dest, len, kind, -⟩ := tracked.found seen before w partner
      have not := idle (seen.1, seen.2.1) (List.mem_map.mpr ⟨seen, before, rfl⟩)
        (congrArg GuardKind.isChanin kind)
      rw [ready] at not
      cases not

/-- The input that is selected has the partner. -/
theorem partnerOf_selected {p : Addr} {g h : Globals} {trace : List (Act × Globals)} {i : Nat}
    (tracked : Tracked p g trace h)
    (first : (trace.filterMap closing).reverse.find? Prod.snd = some (i, true))
    (input : (g.guard p i).kind.isChanin = true) :
    ∃ ready w, (i, ready, some w) ∈ trace.filterMap serving ∧
      partnerOf (trace.filterMap serving) = some w := by
  rw [filterMap_closing, ← List.map_reverse, List.find?_map] at first
  obtain ⟨⟨i', ready, partner⟩, found, same⟩ := Option.map_eq_some_iff.mp first
  obtain ⟨rfl, rfl⟩ := Prod.mk.inj same
  have mem := List.mem_reverse.mp (List.mem_of_find?_eq_some found)
  obtain ⟨w, rfl⟩ := Option.isSome_iff_exists.mp (tracked.input _ mem input).symm
  refine ⟨true, w, mem, findSome?_of_find? (fun visit before w partner => ?_) found rfl⟩
  exact (tracked.found visit (List.mem_reverse.mp before) w partner).1

/-- Without a partner no sender is released. -/
theorem served_of_none {p : Addr} {g g' h : Globals} {trace : List (Act × Globals)}
    {partner : Option Addr} (tracked : Tracked p g trace h) (none : partner = none)
    (other : (g.guard p (g'.proc p).alt.index).kind.isChanin = false) (left : g'.chan = h.chan) :
    ServedOnly p g trace partner g' where
  returned := by
    rw [none, other]
    rfl
  served c dest len kind := by
    rw [kind] at other
    cases other
  others c input _ point mem w away waiting := by
    refine ⟨by rw [none]; nofun, ?_⟩
    rw [left]
    exact tracked.stay point mem c w input away waiting

/-- The partner of the input that is selected has been served, and no other one is released. -/
theorem served_of_clear {p w : Addr} {g g' h : Globals} {trace : List (Act × Globals)}
    {partner : Option Addr} {c : ChanId} {ready : Bool} (tracked : Tracked p g trace h)
    (record : (h.proc p).alt = (g'.proc p).alt) (last : partner = some w)
    (mem : ((g'.proc p).alt.index, ready, some w) ∈ trace.filterMap serving)
    (cleared : PartnerAt p g trace h (.clear c partner))
    (emptied : g' = h.setChan c { h.chan c with waiting := none }) :
    ServedOnly p g trace partner g' := by
  obtain ⟨-, dest, len, h₀, vars, kind, copy, waited, copied, stored⟩ := cleared
  rw [record] at kind
  obtain ⟨-, away, d, dest', len', kind', waiting⟩ := tracked.found _ mem w rfl
  obtain ⟨rfl, -⟩ := GuardKind.chanin.inj (kind.symm.trans kind')
  constructor
  · rw [last, kind]
    rfl
  · intro d dest' len' chosen
    obtain ⟨rfl, rfl, rfl⟩ := GuardKind.chanin.inj (kind.symm.trans chosen)
    refine ⟨w, h₀, vars, last, copy, waited _ mem w rfl _ _ _ kind, copied, ?_, ?_⟩
    · rw [emptied]
      exact stored
    · rw [emptied]
      simp [Globals.setChan]
  · intro d input unselected point before u other there
    have apart : d ≠ c := by
      rintro rfl
      exact unselected dest len kind
    have still := tracked.stay point before d u input other there
    refine ⟨?_, ?_⟩
    · rw [last]
      intro same
      cases same
      exact apart (tracked.apart d c w (tracked.inputOf input)
        (tracked.inputOf ⟨_, dest, len, kind⟩) away still waiting)
    · rw [emptied]
      simpa [Globals.setChan, Function.update_of_ne apart] using still

/-- `disable_alt` releases only the sender it has served if and only if the first guard, in the order
of enabling, that is ready when it is disabled is an input, or no input is ready. -/
theorem served_only_iff {p : Addr} {g g' : Globals} {trace : List (Act × Globals)}
    {partner : Option Addr} (size : (g.proc p).alt.nrGuards ≤ 255)
    (inside : (g.proc p).alt.index < (g.proc p).alt.nrGuards) (running : g.current = some p)
    (apart : SendersApart p g)
    (completes : Completes activation (LeavesInputs p) (.disableAlt p .enter) g trace (.proc partner)
      g')
    (ready : ∃ visit ∈ trace.filterMap closing, visit.2 = true) :
    ServedOnly p g trace partner g' ↔ InputFirst p g (trace.filterMap closing) := by
  have selected := disable_selects size inside (completes.mono fun _ _ leaves => leaves.alt) ready
  obtain ⟨same, h, tracked, record, ended⟩ := partner_tracked running apart completes
  constructor
  · intro served
    cases input : (g.guard p (g'.proc p).alt.index).kind.isChanin with
    | true => exact Or.inr ⟨_, selected, input⟩
    | false =>
      refine Or.inl ((partnerOf_eq_none tracked).mp ?_)
      rw [← same]
      have empty := Option.isSome_eq_false_iff.mp (served.returned.trans input)
      exact Option.isNone_iff_eq_none.mp empty
  · rintro (none | ⟨i, first, input⟩)
    · have other : (g.guard p (g'.proc p).alt.index).kind.isChanin = false := by
        refine Bool.eq_false_iff.mpr fun input => ?_
        have chosen := List.mem_reverse.mp (List.mem_of_find?_eq_some selected)
        cases none _ chosen input
      exact served_of_none tracked (same.trans ((partnerOf_eq_none tracked).mpr none)) other
        (ended.resolve_right fun ⟨c, ⟨_, _, _, _, _, kind, _⟩, _⟩ => by
          rw [record] at kind
          rw [kind] at other
          cases other).2
    · obtain rfl : i = (g'.proc p).alt.index := by
        rw [selected] at first
        cases first
        rfl
      obtain ⟨r, w, mem, last⟩ := partnerOf_selected tracked selected input
      rcases ended with ⟨other, -⟩ | ⟨c, cleared, emptied⟩
      · rw [input] at other
        cases other
      · exact served_of_clear tracked record (same.trans last) mem cleared emptied

/-- A process at record 1024 whose ALT has the given first guard and, as the second, an input from a
channel in which the process at record 1064 waits. Both were enabled, and neither was ready. -/
def senderCame (first : GuardKind) : Globals :=
  let g := (zeroBoot 1000).g
  let input : GuardKind := .chanin 0 (some ⟨1024, 0⟩) 4
  let alt : Alternation := ⟨fun i => ⟨if i = 0 then first else input, true⟩, 2, 1, 1, true⟩
  { (g.setAlt 1024 alt).setChan 0 ⟨some 1064, some ⟨1064, 0⟩⟩ with current := some 1024 }

theorem senderCame_apart (first : GuardKind) : SendersApart 1024 (senderCame first) := by
  intro c d w _ _ _ here there
  have only : ∀ c, ((senderCame first).chan c).waiting = some w → c = 0 := by
    intro c waiting
    by_contra other
    rw [senderCame] at waiting
    simp [Globals.setChan, Function.update_of_ne other, zeroBoot, boot, initChannel] at waiting
  rw [only c here, only d there]

theorem leavesInputs_refl (p : Addr) (g : Globals) : LeavesInputs p g g :=
  ⟨rfl, rfl, rfl, fun _ _ _ _ _ => rfl, id⟩

/-- With an interrupt that has not come as the first guard, the sender is served. -/
theorem served_only_after_input : ∃ trace partner g',
    ServedOnly 1024 (senderCame (.interrupt 0 none)) trace partner g' := by
  have check : ((activation.alone 10 (.disableAlt 1024 .enter)
      (senderCame (.interrupt 0 none))).map fun r => (r.1.filterMap closing, r.2.1)) =
        some ([(1, true), (0, false)], .proc (some 1064)) := by decide
  obtain ⟨⟨trace, v, g'⟩, computed, result⟩ := Option.map_eq_some_iff.mp check
  obtain ⟨visits, rfl⟩ := Prod.mk.inj result
  have served := served_only_iff (by decide) (by decide) rfl (senderCame_apart _)
    (.of_alone (leavesInputs_refl 1024) computed) (by rw [visits]; decide)
  exact ⟨trace, some 1064, g', served.mpr (by rw [visits]; exact Or.inr ⟨1, rfl, rfl⟩)⟩

/-- With a timeout that has become due as the first guard, the sender is released but not served. -/
theorem not_always_served_only : ¬ ∀ p g trace partner g', (g.proc p).alt.nrGuards ≤ 255 →
    (g.proc p).alt.index < (g.proc p).alt.nrGuards →
    (∀ i c src, g.guard p i ≠ ⟨.chanout c src, true⟩) → g.current = some p → SendersApart p g →
    Completes activation (LeavesInputs p) (.disableAlt p .enter) g trace (.proc partner) g' →
    (∃ visit ∈ trace.filterMap closing, visit.2 = true) → ServedOnly p g trace partner g' := by
  intro always
  have check : ((activation.alone 10 (.disableAlt 1024 .enter) (senderCame (.timeout 0))).map
      fun r => (r.1.filterMap closing, r.2.1, (r.2.2.proc 1024).alt.index)) =
        some ([(1, true), (0, true)], .proc (some 1064), 0) := by decide
  obtain ⟨⟨trace, v, g'⟩, computed, result⟩ := Option.map_eq_some_iff.mp check
  obtain ⟨visits, rest⟩ := Prod.mk.inj result
  obtain ⟨rfl, index⟩ := Prod.mk.inj rest
  have served := always 1024 _ trace (some 1064) g' (by decide) (by decide) ?_ rfl
    (senderCame_apart _) (.of_alone (leavesInputs_refl 1024) computed) (by rw [visits]; decide)
  · have returned := served.returned
    rw [index] at returned
    cases returned
  · intro i c src same
    have kind : (if i = 0 then GuardKind.timeout 0 else .chanin 0 (some ⟨1024, 0⟩) 4) =
        .chanout c src := congrArg Guard.kind same
    split at kind <;> cases kind

end Microcsp
