import Microcsp.Fairness
import Microcsp.Partner
import Microcsp.Ranking

/-!
# Where a process stands

While it is not executing, a process that waits is in the channel of each of its active input and
output guards, and one that is ready has a guard that `disable_alt` will find ready. How this changes
when the other user of a channel comes to it is said here for one process; nothing below mentions
the control stack.
-/

open Library

namespace Microcsp

/-! ## Channels in use -/

/-- The two processes that use each channel. -/
structure Wiring where
  /-- The process that outputs on the channel. -/
  writer : ChanId → Addr
  /-- The process that inputs from it. -/
  reader : ChanId → Addr
  /-- They are different. -/
  apart : ∀ c, writer c ≠ reader c

/-- The processes that wait in the channels. -/
def Globals.waiting (g : Globals) (c : ChanId) : Option Addr := (g.chan c).waiting

/-- The guard is an active input from the channel. -/
def Listens (alt : Alternation) (c : ChanId) (i : Nat) : Prop :=
  ∃ dest len, alt.guards i = ⟨.chanin c dest len, true⟩

/-- The guard is an active output to the channel. -/
def Sends (alt : Alternation) (c : ChanId) (i : Nat) : Prop :=
  ∃ src, alt.guards i = ⟨.chanout c src, true⟩

/-- The guards that `disable_alt` visits, a number of them from one on. -/
def downFrom (n : Nat) : Nat → Nat → List Nat
  | _, 0 => []
  | i, left + 1 => i :: downFrom n (minus1Mod i n) left

/-- The guards that are enabled when the ALT record says so. -/
def Alternation.enabledGuards (alt : Alternation) : List Nat :=
  downFrom alt.nrGuards alt.index (alt.count + 1)

section Guards

variable {n i j k left : Nat}

/-- The guard before the next one. -/
theorem minus1Mod_plus1Mod (inside : i < n) : minus1Mod (plus1Mod i n) n = i := by
  have positive : 0 < n := Nat.zero_lt_of_lt inside
  have here : nth i n 0 = i := by rw [nth, Nat.add_zero, Nat.mod_eq_of_lt inside]
  calc minus1Mod (plus1Mod i n) n = minus1Mod (plus1Mod (nth i n 0) n) n := by rw [here]
    _ = nth i n 0 := by rw [plus1Mod_nth, minus1Mod_nth positive]
    _ = i := here

/-- The guard after the one before. -/
theorem plus1Mod_minus1Mod (inside : i < n) : plus1Mod (minus1Mod i n) n = i := by
  unfold plus1Mod minus1Mod
  have positive : 1 ≤ i + n := by omega
  rw [Nat.mod_add_mod, Nat.sub_add_cancel positive, Nat.add_mod_right, Nat.mod_eq_of_lt inside]

theorem minus1Mod_lt (positive : 0 < n) : minus1Mod i n < n := Nat.mod_lt _ positive

theorem plus1Mod_lt (positive : 0 < n) : plus1Mod i n < n := Nat.mod_lt _ positive

/-- The guards visited are those at a small distance below the first one. -/
theorem mem_downFrom (inside : i < n) :
    j ∈ downFrom n i left ∧ j < n ↔ j < n ∧ ∃ d, d < left ∧ nth j n d = i := by
  have positive : 0 < n := Nat.zero_lt_of_lt inside
  induction left generalizing i with
  | zero => simp [downFrom]
  | succ left ih =>
    have below := ih (minus1Mod_lt (i := i) positive)
    constructor
    · rintro ⟨mem, small⟩
      refine ⟨small, ?_⟩
      rcases List.mem_cons.mp mem with rfl | later
      · exact ⟨0, Nat.zero_lt_succ _, by rw [nth, Nat.add_zero, Nat.mod_eq_of_lt inside]⟩
      · obtain ⟨-, d, close, place⟩ := below.mp ⟨later, small⟩
        refine ⟨d + 1, Nat.succ_lt_succ close, ?_⟩
        rw [← plus1Mod_nth, place, plus1Mod_minus1Mod inside]
    · rintro ⟨small, d, close, place⟩
      refine ⟨?_, small⟩
      cases d with
      | zero =>
        rw [nth, Nat.add_zero, Nat.mod_eq_of_lt small] at place
        exact List.mem_cons.mpr (Or.inl place)
      | succ d =>
        have before : nth j n d = minus1Mod i n := by
          rw [← place, minus1Mod_nth positive]
        have later := below.mpr ⟨small, d, Nat.lt_of_succ_lt_succ close, before⟩
        exact List.mem_cons_of_mem _ later.1

/-- All guards visited are guards of the ALT. -/
theorem lt_of_mem_downFrom (inside : i < n) (mem : j ∈ downFrom n i left) : j < n := by
  have positive : 0 < n := Nat.zero_lt_of_lt inside
  induction left generalizing i with
  | zero => cases mem
  | succ left ih =>
    rcases List.mem_cons.mp mem with rfl | later
    · exact inside
    · exact ih (minus1Mod_lt positive) later

/-- A full round visits every guard. -/
theorem mem_downFrom_of_le (inside : i < n) (whole : n ≤ left) (small : j < n) :
    j ∈ downFrom n i left := by
  obtain ⟨d, close, place⟩ := exists_nth small inside
  exact ((mem_downFrom inside).mpr ⟨small, d, close.trans_le whole, place.symm⟩).1

theorem mem_downFrom_all (inside : i < n) (small : j < n) : j ∈ downFrom n i n :=
  mem_downFrom_of_le inside (Nat.le_refl n) small

/-- Less than a round from the guard before does not come back to the guard. -/
theorem not_mem_downFrom (inside : i < n) (more : k < n) : i ∉ downFrom n (minus1Mod i n) k := by
  have positive : 0 < n := Nat.zero_lt_of_lt inside
  intro mem
  obtain ⟨-, d, close, place⟩ := (mem_downFrom (minus1Mod_lt positive)).mp ⟨mem, inside⟩
  have round : nth i n (d + 1) = i := by
    rw [← plus1Mod_nth, place, plus1Mod_minus1Mod inside]
  unfold nth at round
  rcases Nat.lt_or_ge (i + (d + 1)) n with short | long
  · rw [Nat.mod_eq_of_lt short] at round
    omega
  · rw [Nat.mod_eq_sub_mod long, Nat.mod_eq_of_lt (by omega)] at round
    omega

/-- The guards visited before the next one. -/
theorem downFrom_plus1Mod (inside : i < n) :
    downFrom n (minus1Mod (plus1Mod i n) n) (k + 1) = i :: downFrom n (minus1Mod i n) k := by
  rw [minus1Mod_plus1Mod inside, downFrom]

end Guards

/-! ## Where a process stands -/

section Standing

variable (w : Wiring) (waiting : ChanId → Option Addr) (q : Addr) (alt : Alternation)

/-- The process waits in no channel. -/
def Absent : Prop := ∀ c, waiting c ≠ some q

/-- The active guards of an ALT use the channels as they are wired, and an output is alone. -/
structure Wired : Prop where
  /-- The number of guards fits in eight bits. -/
  small : alt.nrGuards ≤ 255
  /-- The process reads the channels of its inputs. -/
  reads : ∀ i < alt.nrGuards, ∀ c, Listens alt c i → q = w.reader c
  /-- It writes the channels of its outputs. -/
  writes : ∀ i < alt.nrGuards, ∀ c, Sends alt c i → q = w.writer c
  /-- No guard is active beside an output. -/
  alone : ∀ i < alt.nrGuards, ∀ c, Sends alt c i → ∀ j < alt.nrGuards,
    (alt.guards j).active = true → j = i

/-- The process waits in the channels of these guards and in no others. -/
structure Listed (guards : List Nat) : Prop where
  /-- In no others. -/
  there : ∀ c, waiting c = some q → ∃ i ∈ guards, Listens alt c i ∨ Sends alt c i
  /-- In these. -/
  here : ∀ i ∈ guards, ∀ c, Listens alt c i ∨ Sends alt c i → waiting c = some q

/-- One of the guards will be found ready when it is disabled: a sender waits in the channel of an
input, or there is an output. -/
def Called (guards : List Nat) : Prop :=
  (∃ i ∈ guards, ∃ c v, Listens alt c i ∧ waiting c = some v ∧ v ≠ q) ∨
    ∃ i ∈ guards, ∃ c, Sends alt c i

/-- The guard that is selected when none is found ready transfers nothing from a channel. -/
def Harmless : Prop :=
  (alt.guards alt.index).active = true ∧ (alt.guards alt.index).kind.isChanin = false

/-- A process that waits is in the channels of all its active guards. -/
structure WaitsOn : Prop extends Wired w q alt where
  /-- The index is one of its guards. -/
  inside : alt.index < alt.nrGuards
  /-- All guards are enabled. -/
  whole : alt.count + 1 = alt.nrGuards
  /-- It is in their channels. -/
  listed : Listed waiting q alt (List.range alt.nrGuards)

/-- A process that is ready waits in channels of inputs only, and has a reason to be. -/
structure Released : Prop extends Wired w q alt where
  /-- The index is one of its guards. -/
  inside : alt.index < alt.nrGuards
  /-- The channels are those of inputs that are enabled. -/
  there : ∀ c, waiting c = some q → ∃ i ∈ alt.enabledGuards, Listens alt c i
  /-- The reason. -/
  cause : Called waiting q alt alt.enabledGuards ∨ Harmless alt

/-- Where a process stands that is not in the middle of an ALT. -/
structure Stands (proc : Process) : Prop where
  /-- It waits. -/
  waits : proc.state = .waiting → WaitsOn w waiting q proc.alt
  /-- It is ready. -/
  ready : proc.state = .ready → Released w waiting q proc.alt
  /-- It is in no ALT. -/
  absent : proc.state = .initial ∨ proc.state = .quiescent ∨ proc.state = .done → Absent waiting q
  /-- There is no other possibility. -/
  enabling : proc.state ≠ .enabling

end Standing

section Changes

variable {w : Wiring} {waiting waiting' : ChanId → Option Addr} {p q : Addr} {alt : Alternation}
  {proc : Process} {c d : ChanId} {i j : Nat} {guards : List Nat}

theorem Listens.active (listens : Listens alt c i) : (alt.guards i).active = true := by
  obtain ⟨dest, len, guard⟩ := listens
  rw [guard]

theorem Sends.active (sends : Sends alt c i) : (alt.guards i).active = true := by
  obtain ⟨src, guard⟩ := sends
  rw [guard]

/-- A guard of this kind is one if it is active. -/
theorem Listens.of_kind {dest : Option Ptr} {len : Nat}
    (kind : (alt.guards i).kind = .chanin c dest len) (active : (alt.guards i).active = true) :
    Listens alt c i := by
  refine ⟨dest, len, ?_⟩
  rw [← kind, ← active]

theorem Sends.of_kind {src : Option Ptr} (kind : (alt.guards i).kind = .chanout c src)
    (active : (alt.guards i).active = true) : Sends alt c i := by
  refine ⟨src, ?_⟩
  rw [← kind, ← active]

/-- A guard of another kind uses no channel. -/
theorem not_uses (chanin : (alt.guards i).kind.isChanin = false)
    (chanout : ∀ d src, (alt.guards i).kind ≠ .chanout d src) (c : ChanId) :
    ¬ (Listens alt c i ∨ Sends alt c i) := by
  rintro (⟨dest, len, guard⟩ | ⟨src, guard⟩)
  · rw [guard] at chanin
    cases chanin
  · rw [guard] at chanout
    exact chanout c src rfl

theorem Listens.unique (listens : Listens alt c i) (other : Listens alt d i) : c = d := by
  obtain ⟨dest, len, guard⟩ := listens
  obtain ⟨dest', len', guard'⟩ := other
  rw [guard] at guard'
  cases guard'
  rfl

theorem Sends.unique (sends : Sends alt c i) (other : Sends alt d i) : c = d := by
  obtain ⟨src, guard⟩ := sends
  obtain ⟨src', guard'⟩ := other
  rw [guard] at guard'
  cases guard'
  rfl

theorem Listens.not_sends (listens : Listens alt c i) : ¬ Sends alt d i := by
  rintro ⟨src, guard'⟩
  obtain ⟨dest, len, guard⟩ := listens
  rw [guard] at guard'
  cases guard'

/-- An ALT with an output has no input. -/
theorem Wired.no_input (wired : Wired w q alt) (sends : Sends alt c i) (inside : i < alt.nrGuards)
    (within : j < alt.nrGuards) : ¬ Listens alt d j := by
  intro listens
  obtain rfl := wired.alone i inside c sends j within listens.active
  exact listens.not_sends sends

/-- It has one channel. -/
theorem Wired.one_output (wired : Wired w q alt) (sends : Sends alt c i) (inside : i < alt.nrGuards)
    (other : Sends alt d j) (within : j < alt.nrGuards) : c = d := by
  obtain rfl := wired.alone i inside c sends j within other.active
  exact sends.unique other

/-- A process that waits has all its guards enabled. -/
theorem WaitsOn.enabled (waits : WaitsOn w waiting q alt) (within : j < alt.nrGuards) :
    j ∈ alt.enabledGuards := by
  rw [Alternation.enabledGuards, waits.whole]
  exact mem_downFrom_all waits.inside within

/-- The guards that are enabled are guards of the ALT. -/
theorem lt_of_mem_enabledGuards (inside : alt.index < alt.nrGuards) (mem : j ∈ alt.enabledGuards) :
    j < alt.nrGuards := lt_of_mem_downFrom inside mem

/-- Where the channels of a process do not change for it, it stands as before. -/
theorem Stands.congr (stands : Stands w waiting q proc)
    (own : ∀ c, waiting' c = some q ↔ waiting c = some q)
    (sender : ∀ c v, q = w.reader c → waiting c = some v → v ≠ q →
      ∃ v', waiting' c = some v' ∧ v' ≠ q) : Stands w waiting' q proc where
  waits state := by
    have waits := stands.waits state
    refine ⟨waits.toWired, waits.inside, waits.whole, fun c here => ?_, fun i mem c uses => ?_⟩
    · exact waits.listed.there c ((own c).mp here)
    · exact (own c).mpr (waits.listed.here i mem c uses)
  ready state := by
    have ready := stands.ready state
    refine ⟨ready.toWired, ready.inside, fun c here => ready.there c ((own c).mp here), ?_⟩
    rcases ready.cause with (⟨i, mem, c, v, listens, there, other⟩ | output) | harmless
    · have reads := ready.reads i (lt_of_mem_enabledGuards ready.inside mem) c listens
      obtain ⟨v', there, other⟩ := sender c v reads there other
      exact Or.inl (Or.inl ⟨i, mem, c, v', listens, there, other⟩)
    · exact Or.inl (Or.inr output)
    · exact Or.inr harmless
  absent state c here := stands.absent state c ((own c).mp here)
  enabling := stands.enabling

/-- A process that is registered waits or is ready. -/
theorem Stands.registered (stands : Stands w waiting q proc) (here : waiting c = some q) :
    proc.state = .waiting ∨ proc.state = .ready := by
  have absent := stands.absent
  have enabling := stands.enabling
  cases state : proc.state with
  | waiting => exact Or.inl rfl
  | ready => exact Or.inr rfl
  | enabling => exact absurd state enabling
  | initial => exact absurd here (absent (Or.inl state) c)
  | quiescent => exact absurd here (absent (Or.inr (Or.inl state)) c)
  | done => exact absurd here (absent (Or.inr (Or.inr state)) c)

/-- A reader is released when the writer comes to the channel. -/
theorem Stands.overtaken (stands : Stands w waiting q proc) (here : waiting c = some q)
    (writes : p = w.writer c) (other : q ≠ p) :
    Released w (Function.update waiting c (some p)) q proc.alt := by
  have apart : ∀ d, Function.update waiting c (some p) d = some q → d ≠ c ∧ waiting d = some q := by
    intro d there
    rcases eq_or_ne d c with rfl | ne
    · rw [Function.update_self] at there
      exact absurd (Option.some.inj there).symm other
    · rw [Function.update_of_ne ne] at there
      exact ⟨ne, there⟩
  have cause : ∀ i ∈ proc.alt.enabledGuards, Listens proc.alt c i →
      Called (Function.update waiting c (some p)) q proc.alt proc.alt.enabledGuards :=
    fun i mem listens => Or.inl ⟨i, mem, c, p, listens, Function.update_self .., other.symm⟩
  rcases stands.registered here with state | state
  · have waits := stands.waits state
    obtain ⟨i, mem, uses⟩ := waits.listed.there c here
    have inside := List.mem_range.mp mem
    have listens : Listens proc.alt c i := uses.resolve_right fun sends =>
      other ((waits.writes i inside c sends).trans writes.symm)
    refine ⟨waits.toWired, waits.inside, fun d there => ?_,
      Or.inl (cause i (waits.enabled inside) listens)⟩
    obtain ⟨j, mem', uses'⟩ := waits.listed.there d (apart d there).2
    have within := List.mem_range.mp mem'
    exact ⟨j, waits.enabled within, uses'.resolve_right fun sends =>
      waits.no_input sends within inside listens⟩
  · have ready := stands.ready state
    obtain ⟨i, mem, listens⟩ := ready.there c here
    exact ⟨ready.toWired, ready.inside, fun d there => ready.there d (apart d there).2,
      Or.inl (cause i mem listens)⟩

/-- A writer that is served has been waiting, and is released when the channel is emptied. -/
theorem Stands.served (stands : Stands w waiting q proc) (here : waiting c = some q)
    (reads : p = w.reader c) (other : q ≠ p) :
    proc.state = .waiting ∧ Released w (Function.update waiting c none) q proc.alt := by
  rcases stands.registered here with state | state
  · have waits := stands.waits state
    obtain ⟨i, mem, uses⟩ := waits.listed.there c here
    have inside := List.mem_range.mp mem
    have sends : Sends proc.alt c i := uses.resolve_left fun listens =>
      other ((waits.reads i inside c listens).trans reads.symm)
    refine ⟨state, waits.toWired, waits.inside, fun d there => ?_,
      Or.inl (Or.inr ⟨i, waits.enabled inside, c, sends⟩)⟩
    rcases eq_or_ne d c with rfl | ne
    · rw [Function.update_self] at there
      cases there
    · rw [Function.update_of_ne ne] at there
      obtain ⟨j, mem', uses'⟩ := waits.listed.there d there
      have within := List.mem_range.mp mem'
      rcases uses' with listens | sends'
      · exact absurd listens (waits.no_input sends inside within)
      · exact absurd (waits.one_output sends inside sends' within).symm ne
  · have ready := stands.ready state
    obtain ⟨i, mem, listens⟩ := ready.there c here
    have inside := lt_of_mem_enabledGuards ready.inside mem
    exact absurd ((ready.reads i inside c listens).trans reads.symm) other

/-- A guard without a channel is enabled. -/
theorem Listed.skip (listed : Listed waiting q alt guards)
    (none : ∀ c, ¬ (Listens alt c i ∨ Sends alt c i)) : Listed waiting q alt (i :: guards) where
  there c here := by
    obtain ⟨j, mem, uses⟩ := listed.there c here
    exact ⟨j, List.mem_cons_of_mem _ mem, uses⟩
  here j mem c uses := by
    rcases List.mem_cons.mp mem with rfl | earlier
    · exact absurd uses (none c)
    · exact listed.here j earlier c uses

/-- A guard with a channel is enabled. -/
theorem Listed.enable (listed : Listed waiting q alt guards)
    (uses : Listens alt c i ∨ Sends alt c i) (self : waiting' c = some q)
    (others : ∀ d, d ≠ c → waiting' d = waiting d) : Listed waiting' q alt (i :: guards) where
  there d there := by
    rcases eq_or_ne d c with rfl | ne
    · exact ⟨i, List.mem_cons_self, uses⟩
    · rw [others d ne] at there
      obtain ⟨j, mem, uses'⟩ := listed.there d there
      exact ⟨j, List.mem_cons_of_mem _ mem, uses'⟩
  here j mem d uses' := by
    rcases eq_or_ne d c with rfl | ne
    · exact self
    · rw [others d ne]
      rcases List.mem_cons.mp mem with rfl | earlier
      · rcases uses with listens | sends <;> rcases uses' with listens' | sends'
        · exact absurd (listens'.unique listens) ne
        · exact absurd sends' listens.not_sends
        · exact absurd sends listens'.not_sends
        · exact absurd (sends'.unique sends) ne
      · exact listed.here j earlier d uses'

end Changes

end Microcsp
