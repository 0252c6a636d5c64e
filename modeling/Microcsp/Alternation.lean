import Microcsp.Library.Interference
import Microcsp.Steps

/-!
# The two loops of an ALT

`enable_alt` and `disable_alt` as code that is interfered with: both run with interrupts enabled
between the guards, so that handlers and other processes act there. What either does with one guard
is stated apart from its loop: the test, and what it leaves in the channel or the timeout queue.
-/

open Library

namespace Microcsp

/-! ## One guard -/

namespace Globals

section Channels

variable {g : Globals} {c d : ChanId}

theorem enableChannelInput_of_ne (apart : c ≠ d) :
    (g.enableChannelInput d).2.chan c = g.chan c := Function.update_of_ne apart ..

theorem enableInterruptChannel_of_ne (apart : c ≠ d) :
    (g.enableInterruptChannel d).2.ichan c = g.ichan c := Function.update_of_ne apart ..

theorem disableInterruptChannel_of_ne (apart : c ≠ d) :
    (g.disableInterruptChannel d).2.ichan c = g.ichan c := Function.update_of_ne apart ..

theorem disableChannelInput_self :
    (g.disableChannelInput c).2.chan c = ((g.chan c).disableInput g.current).2 :=
  Function.update_self ..

theorem disableInterruptChannel_self :
    (g.disableInterruptChannel c).2.ichan c = (g.ichan c).disable.2 := Function.update_self ..

end Channels

variable (g : Globals) (p : Addr) (i : Nat)

/-- The guard of a process. -/
def guard : Guard := (g.proc p).alt.guards i

/-- What `enable_alt` does with a guard: the ready indicator and what it leaves. A timeout that is
not due is inserted into the queue in the next step. -/
def enableGuard : Bool × Globals :=
  if (g.guard p i).active then
    match (g.guard p i).kind with
    | .chanin c _ _ =>
      let found := g.disable.enableChannelInput c
      (found.1.isSome, if found.1.isSome then found.2 else found.2.enable)
    | .chanout c src =>
      (false, ((g.emit (.offer c (g.read src))).disable.enableChannelOutput c src).2.enable)
    | .skip => (true, g.disable)
    | .timeout t => (g.timer.due t g.now, g.disable)
    | .interrupt x _ => g.disable.enableInterruptChannel x
  else (false, g)

/-- What `disable_alt` does with a guard: the ready indicator, the partner it has found and what it
leaves. An output is taken to be ready. -/
def disableGuard : Bool × Option Addr × Globals :=
  if (g.guard p i).active then
    match (g.guard p i).kind with
    | .chanin c _ _ =>
      let found := g.disable.disableChannelInput c
      (found.1.isSome, found.1, found.2.enable)
    | .chanout _ _ => (true, none, g)
    | .skip => (true, none, g)
    | .timeout t =>
      let found := g.timer.disableTimeout t g.now
      (found.1, none, { g.disable with timer := found.2 }.enable)
    | .interrupt x _ =>
      let found := g.disable.disableInterruptChannel x
      (found.1, none, found.2.enable)
  else (false, none, g)

/-- The index is stored if the guard is ready. -/
def select (ready : Bool) : Globals :=
  g.setAlt p { (g.proc p).alt with index := if ready then toUint8 i else (g.proc p).alt.index }

@[simp] theorem enableGuard_proc : (g.enableGuard p i).2.proc = g.proc := by
  unfold enableGuard
  split
  · split <;> try rfl
    dsimp only
    split <;> rfl
  · rfl

@[simp] theorem disableGuard_proc : (g.disableGuard p i).2.2.proc = g.proc := by
  unfold disableGuard
  split
  · split <;> rfl
  · rfl

@[simp] theorem guard_emit (e : Event) : (g.emit e).guard p i = g.guard p i := rfl

@[simp] theorem enableGuard_emit (e : Event) :
    ((g.emit e).enableGuard p i).1 = (g.enableGuard p i).1 := by
  unfold enableGuard
  rw [guard_emit]
  split
  · split <;> rfl
  · rfl

@[simp] theorem disableGuard_emit (e : Event) :
    ((g.emit e).disableGuard p i).1 = (g.disableGuard p i).1 := by
  unfold disableGuard
  rw [guard_emit]
  split
  · split <;> rfl
  · rfl

@[simp] theorem disableGuard_emit_partner (e : Event) :
    ((g.emit e).disableGuard p i).2.1 = (g.disableGuard p i).2.1 := by
  unfold disableGuard
  rw [guard_emit]
  split
  · split <;> rfl
  · rfl

/-- Nothing is stored for a guard that is not ready. -/
theorem select_false : g.select p i false = g := by
  have same : Function.update g.proc p { g.proc p with alt := (g.proc p).alt } = g.proc :=
    Function.update_eq_self p g.proc
  simp only [select, setAlt, setProc, Bool.false_eq_true, if_false, same]

@[simp] theorem guard_select (ready : Bool) (j : Nat) :
    (g.select p i ready).guard p j = g.guard p j := by
  simp [guard, select]

@[simp] theorem guard_disableGuard (j : Nat) :
    (g.disableGuard p i).2.2.guard p j = g.guard p j := by
  simp only [guard, disableGuard_proc]

end Globals

/-! ## The loops -/

/-- An activation that runs by itself, without its calls. -/
def activation : Code Act Globals Value where
  go act g :=
    match exec act g with
    | .next act g => some (act, g)
    | _ => none
  done act g :=
    match exec act g with
    | .ret v g => some (v, g)
    | _ => none

section Steps

variable {g g' : Globals} {p : Addr} {act' : Act} {v : Value} {i k left : Nat}
  {partner : Option Addr}

/-- The first guard that `enable_alt` visits. -/
def Alternation.first (alt : Alternation) : Nat :=
  if alt.altPri then 0 else plus1Mod alt.index alt.nrGuards

/-- `enable_alt` begins with the first guard. -/
theorem go_enable_enter (goes : activation.go (.enableAlt p .enter) g = some (act', g')) :
    act' = .enableAlt p (.loop (g.proc p).alt.first 0 none) ∧ g' = g := by
  simp only [activation, exec, execEnableAlt, Alternation.first] at goes ⊢
  split at goes
  · rename_i made
    split at made
    · cases made
    · split at made
      · rename_i priority
        cases made
        cases goes
        simp [priority]
      · rename_i fair
        split at made
        · cases made
        · cases made
          cases goes
          simp [fair]
  · cases goes

/-- A guard that `enable_alt` finds ready ends its loop; it goes on after any other. -/
theorem go_enable_visit (more : k < (g.proc p).alt.nrGuards)
    (goes : activation.go (.enableAlt p (.loop i k partner)) g = some (act', g')) :
    g' = ((g.emit (.enabled p i)).enableGuard p i).2 ∧
      (((g.enableGuard p i).1 = true ∧ ∃ partner, act' = .enableAlt p (.done i k true partner)) ∨
        (g.enableGuard p i).1 = false ∧
          ((∃ partner, act' =
              .enableAlt p (.loop (plus1Mod i (g.proc p).alt.nrGuards) (k + 1) partner)) ∨
            ∃ t partner, act' = .enableAlt p (.insert i k t partner) ∧
              g.guard p i = ⟨.timeout t, true⟩)) := by
  rw [← Globals.enableGuard_emit g p i (.enabled p i)]
  simp only [activation, exec, execEnableAlt, if_pos more, Globals.enableGuard, Globals.guard,
    Globals.emit_proc] at goes ⊢
  cases active : ((g.proc p).alt.guards i).active with
  | false =>
    simp only [active, Bool.false_eq_true, if_false, Option.some.injEq, Prod.mk.injEq] at goes ⊢
    exact ⟨goes.2.symm, Or.inr ⟨trivial, Or.inl ⟨_, goes.1.symm⟩⟩⟩
  | true =>
    simp only [active, if_true] at goes ⊢
    cases kind : ((g.proc p).alt.guards i).kind with
    | chanin c dest len =>
      simp only [kind] at goes ⊢
      cases found : ((g.emit (.enabled p i)).disable.enableChannelInput c).1 <;>
        simp only [found] at goes <;> cases goes <;> simp
    | chanout c src =>
      simp only [kind] at goes
      cases goes
      simp
    | skip =>
      simp only [kind] at goes
      cases goes
      simp
    | timeout t =>
      simp only [kind, Globals.emit_timer, Globals.emit_now] at goes
      have whole : (g.proc p).alt.guards i = ⟨.timeout t, true⟩ := by rw [← kind, ← active]
      cases due : g.timer.due t g.now <;> simp only [due] at goes <;> cases goes <;> simp [due, whole]
    | interrupt x dest =>
      simp only [kind] at goes
      cases found : ((g.emit (.enabled p i)).disable.enableInterruptChannel x).1 <;>
        simp only [found] at goes <;> cases goes <;> simp

/-- After the last guard `enable_alt` steps back to it. -/
theorem go_enable_last (none : ¬ k < (g.proc p).alt.nrGuards)
    (goes : activation.go (.enableAlt p (.loop i k partner)) g = some (act', g')) :
    g' = g.disable ∧ 0 < (g.proc p).alt.nrGuards ∧
      act' = .enableAlt p (.done (minus1Mod i (g.proc p).alt.nrGuards) (k - 1) false partner) := by
  simp only [activation, exec, execEnableAlt, if_neg none] at goes
  split at goes
  · rename_i made
    split at made
    · cases made
    · rename_i some
      cases made
      cases goes
      exact ⟨rfl, Nat.pos_of_ne_zero some, rfl⟩
  · cases goes

/-- After an insertion `enable_alt` goes on with the next guard. -/
theorem go_enable_insert {t : TimeoutId}
    (goes : activation.go (.enableAlt p (.insert i k t partner)) g = some (act', g')) :
    t ∉ g.timer.queue ∧ g' = { g with timer := g.timer.insertInQueue t g.now }.enable ∧
      act' = .enableAlt p (.loop (plus1Mod i (g.proc p).alt.nrGuards) (k + 1) partner) := by
  simp only [activation, exec, execEnableAlt] at goes
  split at goes
  · rename_i made
    split at made
    · cases made
    · rename_i fresh
      cases made
      cases goes
      exact ⟨fresh, rfl, rfl⟩
  · cases goes

/-- `enable_alt` returns from its last point only. -/
theorem done_enable {pc : EnablePc} (returns : activation.done (.enableAlt p pc) g = some (v, g')) :
    ∃ i k ready partner, pc = .done i k ready partner ∧ v = .alt ready partner ∧
      g' = g.setAlt p { (g.proc p).alt with index := toUint8 i, count := toUint8 k } := by
  cases pc with
  | enter =>
    simp only [activation, exec, execEnableAlt] at returns
    split at returns
    · rename_i made
      (repeat' split at made) <;> cases made
    · cases returns
  | loop i k partner =>
    simp only [activation, exec, execEnableAlt] at returns
    split at returns
    · rename_i made
      (repeat' split at made) <;> cases made
    · cases returns
  | insert i k t partner =>
    simp only [activation, exec, execEnableAlt] at returns
    split at returns
    · rename_i made
      split at made <;> cases made
    · cases returns
  | done i k ready partner =>
    cases returns
    exact ⟨i, k, ready, partner, rfl, rfl, rfl⟩

/-- `disable_alt` begins with the last guard that was enabled. -/
theorem go_disable_enter (goes : activation.go (.disableAlt p .enter) g = some (act', g')) :
    act' = .disableAlt p (.loop (g.proc p).alt.index ((g.proc p).alt.count + 1) none) ∧ g' = g := by
  cases goes
  exact ⟨rfl, rfl⟩

/-- `disable_alt` takes a partner and the index from each guard that is ready. -/
theorem go_disable_visit
    (goes : activation.go (.disableAlt p (.loop i (left + 1) partner)) g = some (act', g')) :
    ∃ e, g' = (((g.emit e).disableGuard p i).2.2).select p i (g.disableGuard p i).1 ∧
      0 < (g.proc p).alt.nrGuards ∧
      act' = .disableAlt p (.loop (minus1Mod i (g.proc p).alt.nrGuards) left
        ((g.disableGuard p i).2.1.or partner)) := by
  simp only [activation, exec, execDisableAlt] at goes
  by_cases some : (g.proc p).alt.nrGuards = 0
  · simp only [some, if_true] at goes
    cases goes
  simp only [some, if_false] at goes
  have positive : 0 < (g.proc p).alt.nrGuards := Nat.pos_of_ne_zero some
  generalize Event.visit p i _ _ = e at goes
  refine ⟨e, ?_⟩
  rw [← Globals.disableGuard_emit g p i e, ← Globals.disableGuard_emit_partner g p i e]
  simp only [Globals.disableGuard, Globals.guard, Globals.emit_proc]
  by_cases active : ((g.proc p).alt.guards i).active = true
  · simp only [if_pos active] at goes ⊢
    cases kind : ((g.proc p).alt.guards i).kind <;> simp only [kind] at goes ⊢ <;> cases goes <;>
      exact ⟨rfl, positive, rfl⟩
  · simp only [if_neg active] at goes ⊢
    cases goes
    exact ⟨(Globals.select_false ..).symm, positive, rfl⟩

/-- An input that is selected is copied. -/
theorem go_disable_last
    (goes : activation.go (.disableAlt p (.loop i 0 partner)) g = some (act', g')) :
    ∃ c dest len, (g.guard p (g.proc p).alt.index).kind = .chanin c dest len ∧
      act' = .disableAlt p (.copy c dest len partner) ∧ g' = g := by
  simp only [activation, exec, execDisableAlt] at goes
  cases kind : ((g.proc p).alt.guards (g.proc p).alt.index).kind <;> simp only [kind] at goes <;>
    cases goes
  exact ⟨_, _, _, kind, rfl, rfl⟩

/-- The copy takes the bytes from the address the sender has left. -/
theorem go_disable_copy {c : ChanId} {dest : Option Ptr} {len : Nat}
    (goes : activation.go (.disableAlt p (.copy c dest len partner)) g = some (act', g')) :
    ∃ vars, g.memcpy dest (g.chan c).src len = some vars ∧
      act' = .disableAlt p (.clear c partner) ∧
      g' = { g with vars := vars }.emit (.copy p c len ((g.read (g.chan c).src).take len)) := by
  simp only [activation, exec, execDisableAlt] at goes
  cases copied : g.memcpy dest (g.chan c).src len <;> simp only [copied] at goes <;> cases goes
  exact ⟨_, rfl, rfl, rfl⟩

/-- `disable_alt` returns the partner, after an input with the channel empty and after an interrupt
with the count cleared. -/
theorem done_disable {pc : DisablePc}
    (returns : activation.done (.disableAlt p pc) g = some (v, g')) :
    ∃ partner, v = .proc partner ∧
      ((∃ i, pc = .loop i 0 partner ∧
          ((∃ x dest, (g.guard p (g.proc p).alt.index).kind = .interrupt x dest ∧
              g' = (g.disable.receiveInterrupt x dest).enable) ∨
            g' = g ∧ ∀ c dest len, (g.guard p (g.proc p).alt.index).kind ≠ .chanin c dest len)) ∨
        ∃ c, pc = .clear c partner ∧ g' = g.setChan c { g.chan c with waiting := none }) := by
  cases pc with
  | enter => cases returns
  | loop i left partner =>
    cases left with
    | succ left =>
      simp only [activation, exec, execDisableAlt] at returns
      split at returns
      · rename_i made
        (repeat' split at made) <;> cases made
      · cases returns
    | zero =>
      simp only [activation, exec, execDisableAlt] at returns
      unfold Globals.guard
      cases kind : ((g.proc p).alt.guards (g.proc p).alt.index).kind with
      | chanin c dest len =>
        simp only [kind] at returns
        cases returns
      | interrupt x dest =>
        simp only [kind] at returns
        cases returns
        exact ⟨partner, rfl, Or.inl ⟨i, rfl, Or.inl ⟨x, dest, rfl, rfl⟩⟩⟩
      | chanout _ _ | skip | timeout _ =>
        simp only [kind] at returns
        cases returns
        exact ⟨partner, rfl, Or.inl ⟨i, rfl, Or.inr ⟨rfl, by simp⟩⟩⟩
  | copy c dest len partner =>
    simp only [activation, exec, execDisableAlt] at returns
    split at returns
    · rename_i made
      split at made <;> cases made
    · cases returns
  | clear c partner =>
    cases returns
    exact ⟨partner, rfl, Or.inr ⟨c, rfl, rfl⟩⟩

end Steps

/-- Both loops for a process that is left alone: what is visited, the result of `enable_alt`, the
state between them, the result of `disable_alt` and the state in the end. -/
def altAlone (fuel : Nat) (p : Addr) (g : Globals) : Option (List (Act × Globals) × Value × Globals ×
    List (Act × Globals) × Value × Globals) :=
  (activation.alone fuel (.enableAlt p .enter) g).bind fun (opened, v, g₁) =>
    (activation.alone fuel (.disableAlt p .enter) g₁).map fun (closed, w, g₃) =>
      (opened, v, g₁, closed, w, g₃)

/-- What is computed for a process that is left alone is an execution under any condition that
allows the others to do nothing. -/
theorem completes_alone {rely : Globals → Globals → Prop} (left_alone : ∀ g, rely g g) {fuel : Nat}
    {p : Addr} {g g₁ g₃ : Globals} {opened closed : List (Act × Globals)} {v w : Value}
    (computed : altAlone fuel p g = some (opened, v, g₁, closed, w, g₃)) :
    Completes activation rely (.enableAlt p .enter) g opened v g₁ ∧
      Completes activation rely (.disableAlt p .enter) g₁ closed w g₃ := by
  obtain ⟨⟨opened, v, g₁⟩, enables, rest⟩ := Option.bind_eq_some_iff.mp computed
  obtain ⟨⟨closed, w, g₃⟩, disables, made⟩ := Option.map_eq_some_iff.mp rest
  cases made
  exact ⟨.of_alone left_alone enables, .of_alone left_alone disables⟩

end Microcsp
