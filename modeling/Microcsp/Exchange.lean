import Microcsp.Rendezvous

/-!
# The exchange

`enable_alt`, `disable_alt` and the application code keep the invariant of the rendezvous, and so
does every step of a run without interrupts.
-/

open Library

namespace Microcsp

/-! ## Enabling -/

/-- The check of `enable_alt` finds any other guard that is active beside an output. -/
theorem Alternation.alone_of_outputAlone {alt : Alternation} (alone : alt.outputAlone = true)
    {i j : Nat} {c : ChanId} (inside : i < alt.nrGuards) (sends : Sends alt c i)
    (within : j < alt.nrGuards) (active : (alt.guards j).active = true) : j = i := by
  by_contra other
  let guards := (List.range alt.nrGuards).filter fun i => (alt.guards i).active
  have here : i ∈ guards := List.mem_filter.mpr ⟨List.mem_range.mpr inside, sends.active⟩
  have there : j ∈ guards := List.mem_filter.mpr ⟨List.mem_range.mpr within, active⟩
  have two : 2 ≤ guards.length := by
    have distinct : [i, j].Nodup := by simp [Ne.symm other]
    have within : [i, j] ⊆ guards := by
      intro k mem
      rcases List.mem_cons.mp mem with rfl | last
      · exact here
      · rw [List.mem_singleton.mp last]
        exact there
    exact (List.subperm_of_subset distinct within).length_le
  have many : decide (1 < guards.length) = true := decide_eq_true two
  simp only [Alternation.outputAlone, Bool.not_eq_true', Bool.and_eq_false_iff] at alone
  rcases alone with silent | few
  · obtain ⟨src, guard⟩ := sends
    have none := List.any_eq_false.mp silent i here
    rw [guard] at none
    exact none rfl
  · cases few.symm.trans many

theorem Globals.waiting_setChan (g : Globals) (c : ChanId) (chan : Channel) :
    (g.setChan c chan).waiting = Function.update g.waiting c chan.waiting := by
  funext d
  by_cases same : d = c
  · subst same
    simp [Globals.waiting, Globals.setChan]
  · simp [Globals.waiting, Globals.setChan, Function.update_of_ne same]

section Enabling

variable {w : Wiring} {rest : List Act} {g : Globals} {p : Addr}

/-- An ALT that passes the checks is wired. -/
theorem wired_of_pointToPoint (small : (g.proc p).alt.nrGuards ≤ 255)
    (alone : (g.proc p).alt.outputAlone = true)
    (uses : pointToPoint w .run ⟨.enableAlt p .enter :: rest, g, none⟩ = true) :
    Wired w p (g.proc p).alt where
  small := small
  reads i inside c listens := by
    obtain ⟨dest, len, guard⟩ := listens
    have use := List.all_eq_true.mp uses i (List.mem_range.mpr inside)
    simp only [Globals.guard, guard, decide_eq_true_eq] at use
    exact use
  writes i inside c sends := by
    obtain ⟨src, guard⟩ := sends
    have use := List.all_eq_true.mp uses i (List.mem_range.mpr inside)
    simp only [Globals.guard, guard, decide_eq_true_eq] at use
    exact use
  alone i inside c sends j within active :=
    Alternation.alone_of_outputAlone alone inside sends within active

/-- A partner is there only where no other guard than an output is active. -/
theorem OfOutput.none_of_active {alt : Alternation} {guards : List Nat} {partner : Option Addr}
    {i : Nat} (ofOutput : OfOutput alt guards partner) (wired : Wired w p alt)
    (inside : ∀ j ∈ guards, j < alt.nrGuards) (here : i < alt.nrGuards)
    (active : (alt.guards i).active = true) (other : ∀ c, ¬ Sends alt c i) : partner = none := by
  rcases ofOutput with none | ⟨j, mem, c, sends⟩
  · exact none
  · obtain rfl := wired.alone j (inside j mem) c sends i here active
    exact absurd sends (other c)

/-- A step of `enable_alt` that leaves the processes and the channels alone. -/
theorem Rendezvous.enableSilent {pc pc' : EnablePc} {g' : Globals}
    (inv : Rendezvous w (.enableAlt p pc :: rest) g) (proc : g'.proc = g.proc)
    (waiting : g'.waiting = g.waiting) (log : allocated g'.log = allocated g.log)
    (ok : EnableOk w g.waiting p (g.proc p).alt pc')
    (targets : (Act.enableAlt p pc').targets = (Act.enableAlt p pc).targets) :
    Rendezvous w (.enableAlt p pc' :: rest) g' := by
  obtain ⟨-, overtaken⟩ := inv.focus _ rfl
  have same : exempt (.enableAlt p pc' :: rest) = exempt (.enableAlt p pc :: rest) := by
    simp only [exempt, Act.inAlt, targets]
  refine inv.next proc waiting log rfl rfl (fun q _ mem free => absurd mem ?_) trivial ?_ ?_
  · rw [← same]
    exact free
  · simp only [Act.Focus, proc, waiting, targets]
    exact ⟨ok, overtaken⟩
  · intro t mem
    rw [targets] at mem
    exact inv.targets _ rfl t mem

/-- A guard is enabled whose channel the process comes to. -/
theorem Rendezvous.register {pc pc' : EnablePc} {g' : Globals} {c : ChanId}
    (alive : initialised (.enableAlt p pc :: rest) g p = true)
    (inv : Rendezvous w (.enableAlt p pc :: rest) g) (proc : g'.proc = g.proc)
    (waiting : g'.waiting = Function.update g.waiting c (some p))
    (log : allocated g'.log = allocated g.log)
    (ok : EnableOk w g'.waiting p (g.proc p).alt pc')
    (targets : ∀ t ∈ (Act.enableAlt p pc').targets, g.waiting c = some t ∧ t ≠ p)
    (all : ∀ t, g.waiting c = some t → t ≠ p → t ∈ (Act.enableAlt p pc').targets)
    (before : (Act.enableAlt p pc).targets = [])
    (writes : ∀ t, g.waiting c = some t → t ≠ p → p = w.writer c) :
    Rendezvous w (.enableAlt p pc' :: rest) g' := by
  have self : g'.waiting c = some p := by rw [waiting, Function.update_self]
  have others : ∀ d, d ≠ c → g'.waiting d = g.waiting d := fun d other => by
    rw [waiting, Function.update_of_ne other]
  have exempt' : exempt (.enableAlt p pc :: rest) = [p] := by
    simp only [exempt, Act.inAlt, before, Option.toList_some, List.append_nil]
  -- the target stands as its state says up to now
  have stood : ∀ t, g.waiting c = some t → t ≠ p → initialised (.enableAlt p pc :: rest) g t = true ∧
      Stands w g.waiting t (g.proc t) := by
    intro t here other
    have known := inv.known c t here
    refine ⟨known, inv.stands t known ?_⟩
    rw [exempt', List.mem_singleton]
    exact other
  have known : ∀ d q, g'.waiting d = some q → initialised (.enableAlt p pc :: rest) g q = true := by
    intro d q there
    rcases eq_or_ne d c with rfl | ne
    · rw [self] at there
      cases there
      exact alive
    · rw [others d ne] at there
      exact inv.known d q there
  have touched : ∀ q, (q = p ∨ g.waiting c = some q) →
      initialised (.enableAlt p pc :: rest) g q = true := by
    rintro q (rfl | here)
    · exact alive
    · exact inv.known c q here
  refine inv.step (fun q => q = p ∨ g.waiting c = some q) (initialised_congr log rfl) ?_ known
    (fun q _ => congrFun proc q) ?_ ?_ ?_ ?_ ?_ ?_ ?_ ?_
  · intro q mine
    rw [proc]
    exact inv.small q (touched q mine)
  · intro q mine d
    rcases eq_or_ne d c with rfl | ne
    · rw [self]
      exact ⟨fun same => absurd (Or.inl (Option.some.inj same).symm) mine,
        fun here => absurd (Or.inr here) mine⟩
    · rw [others d ne]
  · intro q mine d v _ there other
    rcases eq_or_ne d c with rfl | ne
    · exact ⟨p, self, fun same => mine (Or.inl same.symm)⟩
    · exact ⟨v, (others d ne).trans there, other⟩
  · intro q mine _
    rw [exempt', List.mem_singleton]
    exact fun same => mine (Or.inl same)
  · intro q _ mine free
    simp only [exempt, Act.inAlt, Option.toList_some, List.mem_append, List.mem_singleton,
      not_or] at free
    rcases mine with same | here
    · exact absurd same free.1
    · exact absurd (all q here free.1) free.2
  · refine List.forall_mem_cons.mpr ⟨trivial, fun a mem => ?_⟩
    exact (inv.phase a (List.mem_cons_of_mem _ mem)).keep fun q _ => Or.inl (by rw [proc])
  · intro q free
    by_cases mine : q = p ∨ g.waiting c = some q
    · refine Or.inr ?_
      rw [proc]
      exact inv.idle q (touched q mine) free
    · exact Or.inl ⟨mine, free⟩
  · rintro _ ⟨⟩
    simp only [Act.Focus, proc]
    refine ⟨ok, fun t mem waits i inside d uses => ?_⟩
    obtain ⟨here, other⟩ := targets t mem
    have there := ((stood t here other).2.waits waits).listed.here i (List.mem_range.mpr inside) d uses
    rcases eq_or_ne d c with rfl | ne
    · exact Or.inr self
    · exact Or.inl ((others d ne).trans there)
  · rintro _ ⟨⟩ t mem
    obtain ⟨here, other⟩ := targets t mem
    obtain ⟨known, stands⟩ := stood t here other
    refine ⟨known, ?_⟩
    rw [Pending, proc, waiting]
    exact ⟨stands.registered here, stands.overtaken here (writes t here other) other⟩

/-- `enable_alt` returns. -/
theorem Rendezvous.retEnableAlt {base : Int} {under : List Act} {i k : Nat} {found : Bool}
    {partner : Option Addr}
    (alive : initialised (.enableAlt p (.done i k found partner) :: .schedule base p .enabling ::
      under) g p = true)
    (inv : Rendezvous w (.enableAlt p (.done i k found partner) :: .schedule base p .enabling ::
      under) g) :
    Rendezvous w (.schedule base p (.enabled found partner) :: under)
      (g.setAlt p { (g.proc p).alt with index := toUint8 i, count := toUint8 k }) := by
  obtain ⟨⟨wired, below, inside, rest⟩, -⟩ := inv.focus _ rfl
  have index : toUint8 i = i := toUint8_of_lt wired.small inside
  have count : toUint8 k = k := toUint8_of_lt wired.small below
  rw [index, count]
  let alt := { (g.proc p).alt with index := i, count := k }
  have phase := List.forall_mem_cons.mp (List.forall_mem_cons.mp inv.phase).2
  have enabling : (g.proc p).state = .enabling := by
    simpa [Act.Fits, SchedulePc.states] using phase.1
  have own : ((g.setAlt p alt).proc p).alt = alt := Globals.setAlt_alt_self g p alt
  have others : ∀ q, q ≠ p → (g.setAlt p alt).proc q = g.proc q := fun q other =>
    Function.update_of_ne other _ _
  have state : ∀ q, ((g.setAlt p alt).proc q).state = (g.proc q).state := fun q =>
    Globals.setAlt_state g p q alt
  have targets : (Act.schedule base p (.enabled found partner)).targets =
      (Act.enableAlt p (.done i k found partner)).targets := rfl
  have wired' : Wired w p alt := ⟨wired.small, wired.reads, wired.writes, wired.alone⟩
  refine inv.step (· = p) (initialised_congr rfl rfl) ?_ inv.known others (fun q _ c => Iff.rfl)
    (fun q _ c v _ there other => ⟨v, there, other⟩) ?_ ?_ ?_ ?_ ?_ ?_
  · rintro q rfl
    rw [own]
    exact wired.small
  · exact fun q _ free => free
  · rintro q - rfl free
    exact absurd List.mem_cons_self free
  · refine List.forall_mem_cons.mpr ⟨?_, fun a mem => ?_⟩
    · simp [Act.Fits, SchedulePc.states, enabling]
    · exact (phase.2 a mem).keep fun q _ => Or.inl (state q)
  · intro q free
    by_cases same : q = p
    · subst same
      exact absurd List.mem_cons_self free
    · exact Or.inl ⟨same, free⟩
  · rintro _ ⟨⟩
    change if found then Released w g.waiting p ((g.setAlt p alt).proc p).alt
      else WaitsOn w g.waiting p ((g.setAlt p alt).proc p).alt
    rw [own]
    cases found with
    | true =>
      obtain ⟨there, cause⟩ := rest
      refine ⟨wired', inside, there, ?_⟩
      rcases cause with ⟨c, v, listens, waits, other⟩ | harmless
      · exact Or.inl (Or.inl ⟨i, List.mem_cons_self, c, v, listens, waits, other⟩)
      · exact Or.inr harmless
    | false =>
      obtain ⟨whole, listed⟩ := rest
      rw [whole] at listed
      refine ⟨wired', inside, whole, ?_, ?_⟩
      · intro c here
        obtain ⟨j, mem, uses⟩ := listed.there c here
        exact ⟨j, List.mem_range.mpr (lt_of_mem_downFrom inside mem), uses⟩
      · intro j mem c uses
        exact listed.here j (mem_downFrom_all inside (List.mem_range.mp mem)) c uses
  · rintro _ ⟨⟩ t mem
    obtain ⟨known, states, released⟩ := inv.targets _ rfl t mem
    have other : t ≠ p := by
      rintro rfl
      rw [enabling] at states
      rcases states with waits | ready
      · cases waits
      · cases ready
    refine ⟨known, ?_⟩
    rw [Pending, others t other]
    exact ⟨states, released⟩

/-- Where some guard is found ready, the process waits in channels of inputs only. -/
theorem Listed.inputs {waiting : ChanId → Option Addr} {alt : Alternation} {guards : List Nat} {i : Nat}
    (listed : Listed waiting p alt guards) (wired : Wired w p alt)
    (inside : ∀ j ∈ guards, j < alt.nrGuards) (here : i < alt.nrGuards)
    (active : (alt.guards i).active = true) (other : ∀ c, ¬ Sends alt c i) :
    ∀ c, waiting c = some p → ∃ j ∈ i :: guards, Listens alt c j := by
  intro c there
  obtain ⟨j, mem, uses⟩ := listed.there c there
  refine ⟨j, List.mem_cons_of_mem _ mem, uses.resolve_right fun sends => ?_⟩
  obtain rfl := wired.alone j (inside j mem) c sends i here active
  exact other c sends

/-- Where an input is enabled, the process is registered unless another waits there. -/
theorem Globals.waiting_enableChannelInput (g : Globals) (current : g.current = some p) (c : ChanId) :
    (∃ v, (g.enableChannelInput c).1 = some v ∧ g.waiting c = some v ∧ v ≠ p ∧
      (g.enableChannelInput c).2.waiting = g.waiting) ∨
    ((g.enableChannelInput c).1 = none ∧ (g.waiting c = none ∨ g.waiting c = some p) ∧
      (g.enableChannelInput c).2.waiting = Function.update g.waiting c (some p)) := by
  have snd : (g.enableChannelInput c).2.waiting =
      Function.update g.waiting c ((g.chan c).enableInput g.current).2.waiting :=
    g.waiting_setChan c _
  rw [snd, Globals.enableChannelInput_fst, Channel.enableInput, current]
  cases waits : (g.chan c).waiting with
  | none => exact Or.inr ⟨rfl, Or.inl waits, rfl⟩
  | some v =>
    have here : g.waiting c = some v := waits
    by_cases same : p = v
    · subst same
      simp [here, waits]
    · have other : some p ≠ some v := fun eq => same (Option.some.inj eq)
      simp only [if_neg other]
      refine Or.inl ⟨v, rfl, here, Ne.symm same, ?_⟩
      exact Function.update_eq_self c g.waiting

theorem execEnableAlt_rendezvous {pc : EnablePc} (orderly : Orderly (.enableAlt p pc :: rest))
    (current : g.current = some p) (holds : Holds (.enableAlt p pc :: rest) g)
    (uses : pointToPoint w .run ⟨.enableAlt p pc :: rest, g, none⟩ = true)
    (inv : Rendezvous w (.enableAlt p pc :: rest) g) :
    (execEnableAlt p pc g).All (Settled (Rendezvous w)) rest := by
  obtain ⟨base, under, rfl⟩ := (orderly.stacked.1 : Admitted (.enableAlt p) rest).caller_of_enableAlt
  have alive : initialised (.enableAlt p pc :: .schedule base p .enabling :: under) g p = true :=
    holds.held p (by simp [Act.holds])
  have small := inv.small p alive
  obtain ⟨ok, -⟩ := inv.focus _ rfl
  cases pc with
  | enter =>
    have begin : (g.proc p).alt.outputAlone = true → ∀ i, (0 < (g.proc p).alt.nrGuards →
        i < (g.proc p).alt.nrGuards) → EnableOk w g.waiting p (g.proc p).alt (.loop i 0 none) :=
      fun alone i first => ⟨wired_of_pointToPoint small alone uses, Nat.zero_le _, first,
        ⟨fun c here => absurd here (ok c), fun j mem => absurd mem List.not_mem_nil⟩, Or.inl rfl⟩
    simp only [execEnableAlt]
    split
    · trivial
    · rename_i alone
      rw [Bool.not_eq_false] at alone
      split
      · exact inv.enableSilent rfl rfl rfl (begin alone 0 id) rfl
      · split
        · trivial
        · exact inv.enableSilent rfl rfl rfl (begin alone _ plus1Mod_lt) rfl
  | loop i k partner =>
    obtain ⟨wired, most, first, listed, ofOutput⟩ := ok
    simp only [execEnableAlt]
    split
    · rename_i more
      have positive : 0 < (g.proc p).alt.nrGuards := Nat.zero_lt_of_lt more
      have inside := first positive
      have within : ∀ j ∈ downFrom (g.proc p).alt.nrGuards (minus1Mod i (g.proc p).alt.nrGuards) k,
          j < (g.proc p).alt.nrGuards := fun j mem => lt_of_mem_downFrom (minus1Mod_lt positive) mem
      -- the guard is passed
      have pass : ∀ waiting partner', Listed waiting p (g.proc p).alt
          (i :: downFrom (g.proc p).alt.nrGuards (minus1Mod i (g.proc p).alt.nrGuards) k) →
          OfOutput (g.proc p).alt
            (i :: downFrom (g.proc p).alt.nrGuards (minus1Mod i (g.proc p).alt.nrGuards) k) partner' →
          EnableOk w waiting p (g.proc p).alt
            (.loop (plus1Mod i (g.proc p).alt.nrGuards) (k + 1) partner') := by
        intro waiting partner' listed ofOutput
        refine ⟨wired, more, plus1Mod_lt, ?_, ?_⟩
        · rw [downFrom_plus1Mod inside]
          exact listed
        · rw [downFrom_plus1Mod inside]
          exact ofOutput
      have before : OfOutput (g.proc p).alt
          (i :: downFrom (g.proc p).alt.nrGuards (minus1Mod i (g.proc p).alt.nrGuards) k) partner := by
        rcases ofOutput with none | ⟨j, mem, sends⟩
        · exact Or.inl none
        · exact Or.inr ⟨j, List.mem_cons_of_mem _ mem, sends⟩
      split
      · rename_i active
        -- a guard other than an output is passed or found ready without any partner
        have alone : (∀ c, ¬ Sends (g.proc p).alt c i) → partner = none := fun other =>
          ofOutput.none_of_active wired within inside active other
        have found : (∀ c, ¬ Sends (g.proc p).alt c i) → ((g.proc p).alt.guards i).kind.isChanin = false →
            EnableOk w g.waiting p (g.proc p).alt (.done i k true partner) := fun other kind =>
          ⟨wired, more, inside, listed.inputs wired within inside active other,
            Or.inr ⟨active, kind⟩⟩
        split
        · rename_i c dest len kind
          have listens : Listens (g.proc p).alt c i := Listens.of_kind kind active
          obtain rfl := alone fun d => listens.not_sends
          have enabled := (g.emit (.enabled p i)).disable.waiting_enableChannelInput current c
          rcases enabled with ⟨v, fst, waits, apart, snd⟩ | ⟨fst, free, snd⟩
          · simp only [fst]
            refine inv.enableSilent rfl snd rfl ⟨wired, more, inside, ?_, ?_⟩ rfl
            · exact listed.inputs wired within inside active fun d => listens.not_sends
            · exact Or.inl ⟨c, v, listens, waits, apart⟩
          · simp only [fst]
            have after : ((g.emit (.enabled p i)).disable.enableChannelInput c).2.enable.waiting =
                Function.update g.waiting c (some p) := snd
            have none : ∀ t, g.waiting c = some t → t = p := by
              intro t here
              rcases free with empty | own
              · cases here.symm.trans empty
              · exact Option.some.inj (here.symm.trans own)
            refine inv.register alive rfl after rfl (pass _ _ ?_ (Or.inl rfl)) (fun t mem => ?_)
              (fun t here other => absurd (none t here) other) rfl
              fun t here other => absurd (none t here) other
            · refine listed.enable (Or.inl listens) (by rw [after, Function.update_self]) fun d other => ?_
              rw [after, Function.update_of_ne other]
            · cases mem
        · rename_i c src kind
          have sends : Sends (g.proc p).alt c i := Sends.of_kind kind active
          -- no other guard is active, and this one is visited for the first time
          have new : ∀ j ∈ downFrom (g.proc p).alt.nrGuards (minus1Mod i (g.proc p).alt.nrGuards) k,
              ((g.proc p).alt.guards j).active = false := by
            intro j mem
            by_contra active'
            rw [Bool.not_eq_false] at active'
            obtain rfl := wired.alone i inside c sends j (within j mem) active'
            exact not_mem_downFrom inside more mem
          have none : partner = none := by
            rcases ofOutput with none | ⟨j, mem, d, sends'⟩
            · exact none
            · have inactive := new j mem
              rw [sends'.active] at inactive
              cases inactive
          subst none
          have own : g.waiting c ≠ some p := by
            intro here
            obtain ⟨j, mem, uses'⟩ := listed.there c here
            have inactive := new j mem
            rw [uses'.elim Listens.active Sends.active] at inactive
            cases inactive
          let visited := g.emit (.enabled p i)
          have after : ((visited.emit (.offer c (visited.read src))).disable.enableChannelOutput
              c src).2.enable.waiting = Function.update g.waiting c (some p) := by
            rw [← current]
            exact Globals.waiting_setChan _ c _
          refine inv.register alive rfl after rfl (pass _ _ ?_ ?_) (fun t mem => ?_)
            (fun t here _ => Option.mem_toList.mpr here) rfl
            fun t _ _ => wired.writes i inside c sends
          · refine listed.enable (Or.inr sends) (by rw [after, Function.update_self]) fun d other => ?_
            rw [after, Function.update_of_ne other]
          · exact Or.inr ⟨i, List.mem_cons_self, c, sends⟩
          · have here : g.waiting c = some t := Option.mem_toList.mp mem
            refine ⟨here, ?_⟩
            rintro rfl
            exact own here
        · rename_i kind
          have other : ∀ c, ¬ (Listens (g.proc p).alt c i ∨ Sends (g.proc p).alt c i) :=
            not_uses (by rw [kind]; rfl) (by simp [kind])
          obtain rfl := alone fun c sends => other c (Or.inr sends)
          exact inv.enableSilent rfl rfl rfl (found (fun c sends => other c (Or.inr sends))
            (by rw [kind]; rfl)) rfl
        · rename_i t kind
          have other : ∀ c, ¬ (Listens (g.proc p).alt c i ∨ Sends (g.proc p).alt c i) :=
            not_uses (by rw [kind]; rfl) (by simp [kind])
          obtain rfl := alone fun c sends => other c (Or.inr sends)
          split
          · exact inv.enableSilent rfl rfl rfl (found (fun c sends => other c (Or.inr sends))
              (by rw [kind]; rfl)) rfl
          · exact inv.enableSilent rfl rfl rfl
              ⟨wired, more, inside, listed.skip other, Or.inl rfl⟩ rfl
        · rename_i x dest kind
          have other : ∀ c, ¬ (Listens (g.proc p).alt c i ∨ Sends (g.proc p).alt c i) :=
            not_uses (by rw [kind]; rfl) (by simp [kind])
          obtain rfl := alone fun c sends => other c (Or.inr sends)
          split
          · exact inv.enableSilent rfl rfl rfl (found (fun c sends => other c (Or.inr sends))
              (by rw [kind]; rfl)) rfl
          · exact inv.enableSilent rfl rfl rfl (pass _ _ (listed.skip other) (Or.inl rfl)) rfl
      · rename_i inactive
        refine inv.enableSilent rfl rfl rfl (pass _ _ (listed.skip ?_) before) rfl
        exact fun c uses' => inactive (uses'.elim Listens.active Sends.active)
    · rename_i all
      split
      · trivial
      · rename_i some
        have last : k - 1 + 1 = (g.proc p).alt.nrGuards := by omega
        have same : k = k - 1 + 1 := by omega
        refine inv.enableSilent rfl rfl rfl ⟨wired, by omega, minus1Mod_lt (by omega), last, ?_⟩ rfl
        rw [← same]
        exact listed
  | insert i k t partner =>
    obtain ⟨wired, more, inside, listed, ofOutput⟩ := ok
    simp only [execEnableAlt]
    split
    · trivial
    · refine inv.enableSilent rfl rfl rfl ⟨wired, more, plus1Mod_lt, ?_, ?_⟩ rfl
      · rw [minus1Mod_plus1Mod inside]
        exact listed
      · rw [minus1Mod_plus1Mod inside]
        exact ofOutput
  | done i k ready partner => exact inv.retEnableAlt alive

end Enabling

/-! ## Disabling -/

section Disabling

variable {w : Wiring} {rest : List Act} {g g' : Globals} {p : Addr}

/-- A guard is visited: the index may change, and the process may leave a channel. -/
theorem Rendezvous.visit {pc pc' : DisablePc} {index : Nat}
    (alive : initialised (.disableAlt p pc :: rest) g p = true)
    (held : p ∈ rest.filterMap Act.holds)
    (inv : Rendezvous w (.disableAlt p pc :: rest) g)
    (proc : g'.proc = (g.setAlt p { (g.proc p).alt with index := index }).proc)
    (log : allocated g'.log = allocated g.log)
    (ok : DisableOk w g'.waiting p { (g.proc p).alt with index := index } pc')
    (own : ∀ q, q ≠ p → ∀ d, g'.waiting d = some q ↔ g.waiting d = some q)
    (sender : ∀ q, q ≠ p → ∀ d, q = w.reader d → g'.waiting d = g.waiting d) :
    Rendezvous w (.disableAlt p pc' :: rest) g' := by
  have others : ∀ q, q ≠ p → g'.proc q = g.proc q := fun q other => by
    rw [proc]
    exact Function.update_of_ne other _ _
  have state : ∀ q, (g'.proc q).state = (g.proc q).state := fun q => by
    rw [proc, Globals.setAlt_state]
  have alt : (g'.proc p).alt = { (g.proc p).alt with index := index } := by
    rw [proc, Globals.setAlt_alt_self]
  refine inv.step (· = p) (initialised_congr log rfl) ?_ ?_ others own ?_ (fun q _ free => free) ?_ ?_
    ?_ ?_ ?_
  · rintro q rfl
    rw [alt]
    exact inv.small q alive
  · intro c q there
    by_cases same : q = p
    · subst same
      exact alive
    · exact inv.known c q ((own q same c).mp there)
  · intro q other d v reads there apart
    exact ⟨v, (sender q other d reads).trans there, apart⟩
  · rintro q - rfl free
    exact absurd List.mem_cons_self free
  · refine List.forall_mem_cons.mpr ⟨trivial, fun a mem => ?_⟩
    exact (inv.phase a (List.mem_cons_of_mem _ mem)).keep fun q _ => Or.inl (state q)
  · intro q free
    by_cases same : q = p
    · subst same
      exact absurd held free
    · exact Or.inl ⟨same, free⟩
  · rintro _ ⟨⟩
    change DisableOk w g'.waiting p (g'.proc p).alt pc'
    rw [alt]
    exact ok
  · rintro _ ⟨⟩ t mem
    cases mem

/-- `disable_alt` returns without a partner. -/
theorem Rendezvous.retNone {base : Int} {under : List Act} {pc : DisablePc}
    (inv : Rendezvous w (.disableAlt p pc :: .schedule base p .disabling :: under) g)
    (proc : g'.proc = g.proc) (waiting : g'.waiting = g.waiting)
    (log : allocated g'.log = allocated g.log) (absent : Absent g.waiting p) :
    Rendezvous w (.schedule base p (.disabled none) :: under) g' := by
  have phase := List.forall_mem_cons.mp (List.forall_mem_cons.mp inv.phase).2
  refine inv.silent proc waiting (initialised_congr log rfl) (fun q mem => Or.inl mem)
    (fun q _ mem free => absurd mem free) (List.forall_mem_cons.mpr ⟨phase.1, phase.2⟩) ?_ ?_
  · rintro _ ⟨⟩
    change Absent g'.waiting p ∧ none ≠ some p
    rw [waiting]
    exact ⟨absent, nofun⟩
  · rintro _ ⟨⟩ t mem
    cases mem

/-- The channel of the input is emptied, and the sender is returned. -/
theorem Rendezvous.retClear {base : Int} {under : List Act} {c : ChanId} {partner : Option Addr}
    (alive : initialised (.disableAlt p (.clear c partner) :: .schedule base p .disabling :: under) g p
      = true)
    (inv : Rendezvous w (.disableAlt p (.clear c partner) :: .schedule base p .disabling :: under) g) :
    Rendezvous w (.schedule base p (.disabled partner) :: under)
      (g.setChan c { g.chan c with waiting := none }) := by
  obtain ⟨absent, reads, v, rfl, here, other⟩ := inv.focus _ rfl
  have phase := List.forall_mem_cons.mp (List.forall_mem_cons.mp inv.phase).2
  have known := inv.known c v here
  obtain ⟨state, released⟩ := (inv.stands v known (by simpa [exempt, Act.inAlt, Act.targets])).served
    here reads other
  have waiting : (g.setChan c { g.chan c with waiting := none }).waiting =
      Function.update g.waiting c none := g.waiting_setChan c _
  have touched : ∀ q, (q = p ∨ q = v) → initialised
      (.disableAlt p (.clear c (some v)) :: .schedule base p .disabling :: under) g q = true := by
    rintro q (rfl | rfl)
    · exact alive
    · exact known
  have others : ∀ d, d ≠ c → Function.update g.waiting c none d = g.waiting d := fun d other =>
    Function.update_of_ne other _ _
  have before : ∀ d q, Function.update g.waiting c none d = some q → d ≠ c ∧ g.waiting d = some q := by
    intro d q there
    rcases eq_or_ne d c with rfl | ne
    · rw [Function.update_self] at there
      cases there
    · exact ⟨ne, (others d ne).symm.trans there⟩
  refine inv.step (fun q => q = p ∨ q = v) (initialised_congr rfl rfl)
    (fun q mine => inv.small q (touched q mine)) ?_ (fun q _ => rfl) ?_ ?_ ?_ ?_ ?_ ?_ ?_ ?_
  · intro d q there
    rw [waiting] at there
    exact inv.known d q (before d q there).2
  · intro q mine d
    rw [waiting]
    refine ⟨fun there => (before d q there).2, fun there => ?_⟩
    rcases eq_or_ne d c with rfl | ne
    · exact absurd (Or.inr (Option.some.inj (there.symm.trans here))) mine
    · rw [others d ne]
      exact there
  · intro q mine d v' reads' there apart
    rw [waiting]
    rcases eq_or_ne d c with rfl | ne
    · exact absurd (Or.inl (reads'.trans reads.symm)) mine
    · exact ⟨v', (others d ne).trans there, apart⟩
  · intro q mine _
    simpa [exempt, Act.inAlt, Act.targets] using fun same => mine (Or.inl same)
  · rintro q - mine free
    simp only [exempt, Act.inAlt, Act.targets, Option.toList_some, List.mem_append,
      List.mem_singleton] at free
    exact absurd mine free
  · exact List.forall_mem_cons.mpr ⟨phase.1, phase.2⟩
  · intro q free
    by_cases mine : q = p ∨ q = v
    · exact Or.inr (inv.idle q (touched q mine) free)
    · exact Or.inl ⟨mine, free⟩
  · rintro _ ⟨⟩
    change Absent (g.setChan c { g.chan c with waiting := none }).waiting p ∧ some v ≠ some p
    rw [waiting]
    exact ⟨fun d there => absent d (before d p there).2, fun same => other (Option.some.inj same)⟩
  · rintro _ ⟨⟩ t mem
    obtain rfl : t = v := by simpa [Act.targets] using mem
    refine ⟨known, Or.inl state, ?_⟩
    rw [waiting]
    exact released

/-- Where an input is disabled, another process is found, or the channel is left. -/
theorem Globals.waiting_disableChannelInput (g : Globals) (current : g.current = some p) (c : ChanId) :
    (∃ v, (g.disableChannelInput c).1 = some v ∧ g.waiting c = some v ∧ v ≠ p ∧
      (g.disableChannelInput c).2.waiting = g.waiting) ∨
    ((g.disableChannelInput c).1 = none ∧ (g.waiting c = none ∨ g.waiting c = some p) ∧
      (g.disableChannelInput c).2.waiting = Function.update g.waiting c none) := by
  have snd : (g.disableChannelInput c).2.waiting =
      Function.update g.waiting c ((g.chan c).disableInput g.current).2.waiting :=
    g.waiting_setChan c _
  rw [snd, Globals.disableChannelInput_fst, Channel.disableInput, current]
  cases waits : (g.chan c).waiting with
  | none => exact Or.inr ⟨rfl, Or.inl waits, by simp only [waits]⟩
  | some v =>
    have here : g.waiting c = some v := waits
    by_cases same : p = v
    · subst same
      exact Or.inr ⟨by simp, Or.inr here, by simp⟩
    · have other : some p ≠ some v := fun eq => same (Option.some.inj eq)
      simp only [if_pos other]
      refine Or.inl ⟨v, rfl, here, Ne.symm same, ?_⟩
      exact Function.update_eq_self c g.waiting

/-- A guard that is passed is not the reason why the process was made ready. -/
theorem Choice.pass {waiting : ChanId → Option Addr} {alt : Alternation} {i : Nat} {left : List Nat}
    {partner : Option Addr} (choice : Choice waiting p alt (i :: left) partner)
    (sends : ∀ c, ¬ Sends alt c i)
    (listens : ∀ c v, Listens alt c i → waiting c = some v → v = p) :
    Choice waiting p alt left partner := by
  rcases choice with ⟨none, called⟩ | chosen
  · refine Or.inl ⟨none, ?_⟩
    rcases called with ⟨j, mem, c, v, listens', here, other⟩ | ⟨j, mem, c, sends'⟩
    · rcases List.mem_cons.mp mem with rfl | later
      · exact absurd (listens c v listens' here) other
      · exact Or.inl ⟨j, later, c, v, listens', here, other⟩
    · rcases List.mem_cons.mp mem with rfl | later
      · exact absurd sends' (sends c)
      · exact Or.inr ⟨j, later, c, sends'⟩
  · exact Or.inr chosen

/-- When the process leaves a channel of an input, the others remain. -/
theorem Choice.leave {waiting : ChanId → Option Addr} {alt : Alternation} {c : ChanId}
    {left : List Nat} {partner : Option Addr} (choice : Choice waiting p alt left partner)
    (free : waiting c = none ∨ waiting c = some p) :
    Choice (Function.update waiting c none) p alt left partner := by
  have stays : ∀ d v, waiting d = some v → v ≠ p → Function.update waiting c none d = some v := by
    intro d v here other
    have ne : d ≠ c := by
      rintro rfl
      rcases free with empty | own
      · cases here.symm.trans empty
      · exact other (Option.some.inj (here.symm.trans own))
    rw [Function.update_of_ne ne]
    exact here
  rcases choice with ⟨none, called⟩ | harmless | ⟨d, v, listens, partner, here, other⟩
  · refine Or.inl ⟨none, ?_⟩
    rcases called with ⟨j, mem, d, v, listens, here, other⟩ | output
    · exact Or.inl ⟨j, mem, d, v, listens, stays d v here other, other⟩
    · exact Or.inr output
  · exact Or.inr (Or.inl harmless)
  · exact Or.inr (Or.inr ⟨d, v, listens, partner, stays d v here other, other⟩)

theorem execDisableAlt_rendezvous {pc : DisablePc} (orderly : Orderly (.disableAlt p pc :: rest))
    (current : g.current = some p) (holds : Holds (.disableAlt p pc :: rest) g)
    (serves : servesPartner .run ⟨.disableAlt p pc :: rest, g, none⟩ = true)
    (inv : Rendezvous w (.disableAlt p pc :: rest) g) :
    (execDisableAlt p pc g).All (Settled (Rendezvous w)) rest := by
  obtain ⟨base, under, rfl⟩ :=
    (orderly.stacked.1 : Admitted (.disableAlt p) rest).caller_of_disableAlt
  have alive : initialised (.disableAlt p pc :: .schedule base p .disabling :: under) g p = true :=
    holds.held p (by simp [Act.holds])
  have held : p ∈ (Act.schedule base p .disabling :: under).filterMap Act.holds := by
    simp [Act.holds]
  have small := inv.small p alive
  have ok := inv.focus _ rfl
  -- a silent step to another point
  have next : ∀ pc' g', g'.proc = g.proc → g'.waiting = g.waiting →
      allocated g'.log = allocated g.log → DisableOk w g.waiting p (g.proc p).alt pc' →
      Rendezvous w (.disableAlt p pc' :: .schedule base p .disabling :: under) g' := by
    intro pc' g' proc waiting log ok
    refine inv.next proc waiting log rfl rfl (fun q _ mem free => absurd mem free) trivial ?_
      (by simp [Act.targets])
    rw [Act.Focus, proc, waiting]
    exact ok
  cases pc with
  | enter =>
    obtain ⟨wired, inside, there, cause⟩ := ok
    refine next _ _ rfl rfl rfl ⟨wired, inside, inside, there, ?_⟩
    exact cause.imp (fun called => ⟨rfl, called⟩) Or.inl
  | loop i left partner =>
    obtain ⟨wired, index, inside, there, choice⟩ := ok
    cases left with
    | zero =>
      have absent : Absent g.waiting p := by
        intro c here
        obtain ⟨j, mem, -⟩ := there c here
        cases mem
      -- a partner is returned for an input only
      have none : ((g.proc p).alt.guards (g.proc p).alt.index).kind.isChanin = false →
          partner = none := by
        intro kind
        cases partner with
        | none => rfl
        | some v => cases serves.symm.trans kind
      simp only [execDisableAlt]
      split
      · rename_i c dest len kind
        rcases choice with ⟨-, ⟨j, mem, -⟩ | ⟨j, mem, -⟩⟩ | ⟨-, harmless⟩ |
          ⟨d, v, listens, rfl, here, other⟩
        · cases mem
        · cases mem
        · rw [kind] at harmless
          cases harmless
        · obtain ⟨dest', len', guard⟩ := listens
          rw [guard] at kind
          cases kind
          exact next _ _ rfl rfl rfl
            ⟨absent, wired.reads _ index c ⟨_, _, guard⟩, v, rfl, here, other⟩
      · rename_i x dest kind
        obtain rfl := none (by rw [kind]; rfl)
        exact inv.retNone rfl rfl rfl absent
      · rename_i chanin interrupt
        have kind : ((g.proc p).alt.guards (g.proc p).alt.index).kind.isChanin = false := by
          cases kind : ((g.proc p).alt.guards (g.proc p).alt.index).kind with
          | chanin c dest len => exact absurd kind (chanin c dest len)
          | _ => rfl
        obtain rfl := none kind
        exact inv.retNone rfl rfl rfl absent
    | succ left =>
      have positive : 0 < (g.proc p).alt.nrGuards := Nat.zero_lt_of_lt inside
      have before : minus1Mod i (g.proc p).alt.nrGuards < (g.proc p).alt.nrGuards :=
        minus1Mod_lt positive
      have stored : toUint8 i = i := toUint8_of_lt small inside
      -- no channel of the process is that of the guard
      have past : (∀ c, Listens (g.proc p).alt c i → g.waiting c ≠ some p) → ∀ c,
          g.waiting c = some p → ∃ j ∈ downFrom (g.proc p).alt.nrGuards
            (minus1Mod i (g.proc p).alt.nrGuards) left, Listens (g.proc p).alt c j := by
        intro free c here
        obtain ⟨j, mem, listens⟩ := there c here
        rcases List.mem_cons.mp mem with rfl | later
        · exact absurd here (free c listens)
        · exact ⟨j, later, listens⟩
      -- a guard without an input is found ready
      have found : ∀ g', g'.proc = (g.setAlt p { (g.proc p).alt with index := toUint8 i }).proc →
          g'.waiting = g.waiting → allocated g'.log = allocated g.log →
          ((g.proc p).alt.guards i).active = true →
          ((g.proc p).alt.guards i).kind.isChanin = false →
          Rendezvous w (.disableAlt p (.loop (minus1Mod i (g.proc p).alt.nrGuards) left partner) ::
            .schedule base p .disabling :: under) g' := by
        intro g' proc waiting log active kind
        rw [stored] at proc
        refine inv.visit alive held proc log ⟨⟨small, wired.reads, wired.writes, wired.alone⟩, inside,
          before, ?_, Or.inr (Or.inl ⟨active, kind⟩)⟩ (fun q _ d => by rw [waiting])
          fun q _ d _ => by rw [waiting]
        rw [waiting]
        refine past fun c listens => ?_
        obtain ⟨dest, len, guard⟩ := listens
        rw [guard] at kind
        cases kind
      -- a guard without a channel is not
      have passed : ∀ g', g'.proc = (g.setAlt p { (g.proc p).alt with index := (g.proc p).alt.index }).proc →
          g'.waiting = g.waiting → allocated g'.log = allocated g.log →
          (∀ c, ¬ (Listens (g.proc p).alt c i ∨ Sends (g.proc p).alt c i)) →
          Rendezvous w (.disableAlt p (.loop (minus1Mod i (g.proc p).alt.nrGuards) left partner) ::
            .schedule base p .disabling :: under) g' := by
        intro g' proc waiting log other
        refine inv.visit alive held proc log ⟨⟨small, wired.reads, wired.writes, wired.alone⟩, index,
          before, ?_, ?_⟩ (fun q _ d => by rw [waiting]) fun q _ d _ => by rw [waiting]
        · rw [waiting]
          exact past fun c listens => absurd (Or.inl listens) (other c)
        · rw [waiting]
          exact choice.pass (fun c sends => other c (Or.inr sends))
            fun c v listens => absurd (Or.inl listens) (other c)
      simp only [execDisableAlt, if_neg positive.ne']
      split
      · rename_i active
        split
        · rename_i c dest len kind
          have listens : Listens (g.proc p).alt c i := Listens.of_kind kind active
          have reads := wired.reads i inside c listens
          have used : ∀ d, Listens (g.proc p).alt d i → d = c := fun d other => other.unique listens
          let visited := (g.emit (.visit p i ((g.proc p).alt.guards i).kind
            (((g.proc p).alt.guards i).active && g.branchReady p i))).disable
          have waiting : visited.waiting = g.waiting := rfl
          have disabled := visited.waiting_disableChannelInput current c
          rw [waiting] at disabled
          rcases disabled with ⟨v, fst, waits, apart, snd⟩ | ⟨fst, free, snd⟩
          · have after : (visited.disableChannelInput c).2.enable.waiting = g.waiting := snd
            simp only [Result.all_next, show ((g.emit _).disable.disableChannelInput c).1 = some v from
              fst, Option.some_or, Option.isSome_some, if_true, stored]
            refine inv.visit alive held rfl rfl ⟨⟨small, wired.reads, wired.writes, wired.alone⟩,
              inside, before, fun d here => ?_, Or.inr (Or.inr ⟨c, v, listens, rfl, ?_, apart⟩)⟩
              (fun q _ d => ?_) fun q _ d _ => ?_
            · refine past (fun e listens' here' => ?_) d ((congrFun after d).symm.trans here)
              rw [used e listens', waits] at here'
              exact apart (Option.some.inj here')
            · exact (congrFun after c).trans waits
            · rw [← after]
              rfl
            · exact congrFun after d
          · have after : (visited.disableChannelInput c).2.enable.waiting =
                Function.update g.waiting c none := snd
            have others : ∀ d, d ≠ c → (visited.disableChannelInput c).2.enable.waiting d =
                g.waiting d := fun d other => by rw [after, Function.update_of_ne other]
            have left' : (visited.disableChannelInput c).2.enable.waiting c = none := by
              rw [after, Function.update_self]
            simp only [Result.all_next, show ((g.emit _).disable.disableChannelInput c).1 = none from
              fst, Option.none_or, Option.isSome_none]
            refine inv.visit alive held rfl rfl ⟨⟨small, wired.reads, wired.writes, wired.alone⟩,
              index, before, fun d here => ?_, ?_⟩ (fun q other d => ?_) fun q other d reads' => ?_
            · rcases eq_or_ne d c with rfl | ne
              · cases here.symm.trans left'
              · obtain ⟨j, mem, listens'⟩ := there d ((others d ne).symm.trans here)
                rcases List.mem_cons.mp mem with rfl | later
                · exact absurd (used d listens') ne
                · exact ⟨j, later, listens'⟩
            · have passed := choice.pass (fun d => listens.not_sends) fun d v listens' here => by
                rw [used d listens'] at here
                rcases free with empty | own
                · cases here.symm.trans empty
                · exact Option.some.inj (here.symm.trans own)
              have leaves := passed.leave free
              rw [← after] at leaves
              exact leaves
            · rcases eq_or_ne d c with rfl | ne
              · refine ⟨fun here => ?_, fun here => ?_⟩
                · cases here.symm.trans left'
                · rcases free with empty | own
                  · cases here.symm.trans empty
                  · exact absurd (Option.some.inj (here.symm.trans own)) other
              · exact iff_of_eq (congrArg (· = some q) (others d ne))
            · refine others d ?_
              rintro rfl
              exact other (reads'.trans reads.symm)
        · rename_i c src kind
          exact found _ rfl rfl rfl active (by rw [kind]; rfl)
        · rename_i kind
          exact found _ rfl rfl rfl active (by rw [kind]; rfl)
        · rename_i t kind
          simp only [Result.all_next]
          split
          · exact found _ rfl rfl rfl active (by rw [kind]; rfl)
          · exact passed _ rfl rfl rfl (not_uses (by rw [kind]; rfl) (by simp [kind]))
        · rename_i x dest kind
          simp only [Result.all_next]
          split
          · exact found _ rfl rfl rfl active (by rw [kind]; rfl)
          · exact passed _ rfl rfl rfl (not_uses (by rw [kind]; rfl) (by simp [kind]))
      · rename_i inactive
        refine next _ _ rfl rfl rfl ⟨wired, index, before, ?_, ?_⟩
        · exact past fun c listens => absurd listens.active inactive
        · exact choice.pass (fun c sends => inactive sends.active)
            fun c v listens => absurd listens.active inactive
  | copy c dest len partner =>
    simp only [execDisableAlt]
    split
    · trivial
    · exact next _ _ rfl rfl rfl ok
  | clear c partner => exact inv.retClear alive

end Disabling

/-! ## Application code -/

section Application

variable {w : Wiring} {rest : List Act} {g g' : Globals} {p : Addr}

/-- The process that executes is in no channel. -/
theorem Rendezvous.executing (orderly : Orderly (.rtc p :: rest))
    (alive : initialised (.rtc p :: rest) g p = true) (inv : Rendezvous w (.rtc p :: rest) g) :
    ((g.proc p).state = .initial ∨ (g.proc p).state = .quiescent ∨ (g.proc p).state = .done) ∧
      Absent g.waiting p := by
  have states : (g.proc p).state = .initial ∨ (g.proc p).state = .quiescent ∨
      (g.proc p).state = .done := by
    obtain ⟨base, under, rfl | rfl⟩ := (orderly.stacked.1 : Admitted (.rtc p) rest).caller_of_rtc
    · have fits := inv.phase _ (List.mem_cons_of_mem _ List.mem_cons_self)
      have state : (g.proc p).state = .initial ∨ (g.proc p).state = .done := by
        simpa [Act.Fits, SchedulePc.states] using fits
      exact state.imp_right Or.inr
    · have fits := inv.phase _ (List.mem_cons_of_mem _ List.mem_cons_self)
      have state : (g.proc p).state = .quiescent ∨ (g.proc p).state = .done := by
        simpa [Act.Fits, SchedulePc.states] using fits
      exact Or.inr state
  exact ⟨states, (inv.stands p alive List.not_mem_nil).absent states⟩

/-- The process that executes changes its own record. -/
theorem Rendezvous.store (alive : initialised (.rtc p :: rest) g p = true)
    (held : p ∈ rest.filterMap Act.holds) (absent : Absent g.waiting p)
    (inv : Rendezvous w (.rtc p :: rest) g) (others : ∀ q, q ≠ p → g'.proc q = g.proc q)
    (waiting : g'.waiting = g.waiting) (log : allocated g'.log = allocated g.log)
    (small : (g'.proc p).alt.nrGuards ≤ 255)
    (state : (g'.proc p).state = .initial ∨ (g'.proc p).state = .quiescent ∨
      (g'.proc p).state = .done)
    (fits : ∀ a ∈ rest, a.Fits g') : Rendezvous w (.rtc p :: rest) g' := by
  refine inv.step (· = p) (initialised_congr log rfl) ?_ ?_ others ?_ ?_ (fun q _ free => free) ?_
    (List.forall_mem_cons.mpr ⟨trivial, fits⟩) ?_ ?_ ?_
  · rintro q rfl
    exact small
  · intro c q there
    rw [waiting] at there
    exact inv.known c q there
  · intro q _ c
    rw [waiting]
  · intro q _ c v _ there other
    rw [waiting]
    exact ⟨v, there, other⟩
  · rintro q - rfl -
    rw [waiting]
    constructor
    · intro waits
      rw [waits] at state
      simp at state
    · intro ready
      rw [ready] at state
      simp at state
    · exact fun _ => absent
    · intro enabling
      rw [enabling] at state
      simp at state
  · intro q free
    by_cases same : q = p
    · subst same
      exact absurd held free
    · exact Or.inl ⟨same, free⟩
  · rintro _ ⟨⟩
    trivial
  · rintro _ ⟨⟩ t mem
    cases mem

theorem execUser_rendezvous {op : Op} {act : Act} (orderly : Orderly (act :: rest))
    (coherent : CurrentInv (act :: rest) g) (holds : Holds (act :: rest) g)
    (inv : Rendezvous w (act :: rest) g) : (execUser op act g).All (Settled (Rendezvous w)) rest := by
  unfold execUser
  split
  · rename_i p
    split
    · obtain ⟨current, -⟩ := coherent
      have outside : OutsideAlt rest := orderly.stacked.1.outsideAlt (by simp [Act.callee])
      have held : p ∈ rest.filterMap Act.holds := by
        obtain ⟨base, under, rfl | rfl⟩ := (orderly.stacked.1 : Admitted (.rtc p) rest).caller_of_rtc
        · exact List.mem_cons_self
        · exact List.mem_cons_self
      have alive := holds.held p held
      obtain ⟨state, absent⟩ := inv.executing orderly alive
      -- a silent step
      have next : ∀ g', g'.proc = g.proc → g'.waiting = g.waiting →
          allocated g'.log = allocated g.log → Rendezvous w (.rtc p :: rest) g' :=
        fun g' proc waiting log => inv.next proc waiting log rfl rfl
          (fun q _ mem => absurd mem List.not_mem_nil) trivial trivial (by simp [Act.targets])
      -- a store into the ALT record
      have alter : ∀ g' alt, g'.proc = (g.setAlt p alt).proc → g'.waiting = g.waiting →
          allocated g'.log = allocated g.log → alt.nrGuards ≤ 255 →
          Rendezvous w (.rtc p :: rest) g' := by
        intro g' alt proc waiting log small
        have same : ∀ q, (g'.proc q).state = (g.proc q).state := fun q => by
          rw [proc, Globals.setAlt_state]
        refine inv.store alive held absent (fun q other => ?_) waiting log ?_ ?_ fun a mem => ?_
        · rw [proc]
          exact Function.update_of_ne other _ _
        · rw [proc, Globals.setAlt_alt_self]
          exact small
        · rw [same]
          exact state
        · exact (inv.phase a (List.mem_cons_of_mem _ mem)).keep fun q _ => Or.inl (same q)
      have bound : (g.proc p).alt.nrGuards ≤ 255 := inv.small p alive
      cases op with
      | ret =>
        rw [userRtc, Result.all_ret, settled_of_not_queueing (orderly.caller _), returnTo_unit]
        exact inv.ret rfl rfl rfl rfl rfl (fun q _ mem => absurd mem List.not_mem_nil) outside
      | terminate =>
        simp only [userRtc, current]
        have atop : ((g.setState p .done).proc p).state = .done := g.setState_state_self p .done
        refine inv.store alive held absent (fun q other => Globals.setState_of_ne g _ other) rfl rfl ?_
          (Or.inr (Or.inr atop)) ?_
        · change ((g.setState p .done).proc p).alt.nrGuards ≤ 255
          rw [Globals.setState_alt]
          exact bound
        · have inner : ∀ a ∈ rest.tail, a.Fits ((g.setState p .done).emit (.terminate p)) := by
            intro a mem
            refine (inv.phase a (List.mem_cons_of_mem _ (List.mem_of_mem_tail mem))).keep
              fun q own => Or.inl ?_
            have other : q ≠ p := by
              rintro rfl
              have single := holds.single
              obtain ⟨base, under, rfl | rfl⟩ :=
                (orderly.stacked.1 : Admitted (.rtc q) rest).caller_of_rtc
              · exact (List.nodup_cons.mp single).1 (List.mem_filterMap.mpr ⟨a, mem, own⟩)
              · exact (List.nodup_cons.mp single).1 (List.mem_filterMap.mpr ⟨a, mem, own⟩)
            exact congrArg Process.state (Globals.setState_of_ne g _ other)
          obtain ⟨base, under, rfl | rfl⟩ :=
            (orderly.stacked.1 : Admitted (.rtc p) rest).caller_of_rtc
          · refine List.forall_mem_cons.mpr ⟨?_, inner⟩
            simp [Act.Fits, SchedulePc.states]
          · refine List.forall_mem_cons.mpr ⟨?_, inner⟩
            simp [Act.Fits, SchedulePc.states]
      | start args =>
        exact inv.call rfl rfl rfl rfl rfl rfl rfl (fun q _ mem => absurd mem List.not_mem_nil)
          trivial trivial trivial (by simp [Act.targets])
      | initAlt size =>
        simp only [userRtc, current]
        exact alter _ _ rfl rfl rfl (toUint8_le size)
      | initAltPri size =>
        simp only [userRtc, current]
        exact alter _ _ rfl rfl rfl (toUint8_le size)
      | initGuard i kind =>
        simp only [userRtc]
        split
        · trivial
        · exact alter _ _ rfl rfl rfl bound
      | initTimeoutGuard i t time => exact alter _ _ rfl rfl rfl bound
      | setActive i active => exact alter _ _ rfl rfl rfl bound
      | assign v bytes => exact next _ rfl rfl rfl
      | connect x intrno =>
        simp only [userRtc]
        split
        · exact next _ rfl rfl rfl
        · trivial
      | disconnect intrno =>
        simp only [userRtc]
        split
        · exact next _ rfl rfl rfl
        · trivial
      | error why => trivial
    · trivial
  · have call : ∀ pc callee g', g'.proc = g.proc → g'.waiting = g.waiting →
        allocated g'.log = allocated g.log → Act.reserves (.main pc) = none → callee.reserves = none →
        callee.holds = none → callee.Fits g → (∀ g, callee.Focus w g) → callee.targets = [] →
        Rendezvous w (callee :: .main pc :: rest) g' := by
      intro pc callee g' proc waiting log reserves none idle fits focus targets
      exact inv.call proc waiting log reserves rfl none idle
        (fun q _ mem => absurd mem List.not_mem_nil) trivial fits (focus g') (by simp [targets])
    cases op with
    | ret =>
      exact call .running (.select _ .top) _ rfl rfl rfl rfl rfl rfl trivial (fun _ => trivial) rfl
    | start args =>
      exact call .user (.start args .check) _ rfl rfl rfl rfl rfl rfl trivial (fun _ => trivial) rfl
    | connect x intrno =>
      simp only [userMain]
      split
      · exact inv.next rfl rfl rfl rfl rfl (fun q _ mem => absurd mem List.not_mem_nil) trivial
          trivial (by simp [Act.targets])
      · trivial
    | _ => trivial
  · trivial

end Application

/-! ## Runs -/

/-- No activation of `handle_signal` is on the stack. -/
def Unsignalled (stack : List Act) : Prop := ∀ act ∈ stack, act.callee ≠ .signal

/-- Without interrupts there is none. -/
theorem unsignalled_kept : Kept (fun label s => withoutInterrupts label s = true)
    (fun stack _ => Unsignalled stack) := by
  have all : ∀ {act : Act} {rest : List Act} {r : Result}, Unsignalled (act :: rest) →
      r.All (fun stack _ => Follows act stack) [] → r.All (fun stack _ => Unsignalled stack) rest := by
    intro act rest r free follows
    obtain ⟨first, others⟩ := List.forall_mem_cons.mp free
    cases r with
    | next act' g =>
      refine List.forall_mem_cons.mpr ⟨?_, others⟩
      rcases follows with same | ⟨-, ready⟩
      · rw [same]
        exact first
      · rw [ready]
        simp
    | call caller callee g =>
      obtain ⟨same, -, other⟩ := follows
      refine List.forall_mem_cons.mpr ⟨other, List.forall_mem_cons.mpr ⟨?_, others⟩⟩
      rw [same]
      exact first
    | ret v g =>
      cases rest with
      | nil => exact others
      | cons caller under =>
        obtain ⟨second, below⟩ := List.forall_mem_cons.mp others
        refine List.forall_mem_cons.mpr ⟨?_, below⟩
        rw [Act.resume_callee]
        exact second
    | stop why => trivial
    | stuck => trivial
  exact {
    run := fun act rest g _ free => all free (exec_follows act g)
    user := fun op act rest g _ free => all free (execUser_follows op act g)
    interrupt := fun intr stack g allowed => by cases allowed
    clock := fun t stack g _ free => free }

/-- So there is no handler either. -/
theorem Unsignalled.no_handler {callee : Callee} {rest : List Act} (free : Unsignalled rest)
    (atop : Admitted callee rest) (handler : callee = .timeoutHandler ∨ callee = .userHandler) :
    False := by
  cases rest with
  | nil => rcases handler with rfl | rfl <;> simp [Admitted] at atop
  | cons caller under =>
    have first := free caller List.mem_cons_self
    rcases handler with rfl | rfl
    all_goals
      have calls : Act.admits caller _ := atop
      cases caller with
      | signal intr saved pc => exact absurd rfl first
      | _ => exact calls.elim

/-- `allocate_mem` returns a record that is not allocated. -/
theorem Ranks.fresh {stack : List Act} {g : Globals} (ranks : Ranks stack g) {index : Nat}
    {record : Addr} {mem : Memory} (known : index < nalloc)
    (made : g.mem.allocateMem index = some (record, mem)) : allocated g.log record = false := by
  obtain ⟨s, ⟨queue, free, rep, -⟩, -⟩ := ranks.rising
  exact (rep.allocate known made).1

/-- The conditions under which a rendezvous is kept. -/
structure Orderings (w : Wiring) (label : Label) (s : State) : Prop where
  /-- There are no interrupts. -/
  uninterrupted : withoutInterrupts label s = true
  /-- Channels are used from one process to another. -/
  wired : pointToPoint w label s = true
  /-- `disable_alt` serves the sender that it returns. -/
  serves : servesPartner label s = true
  /-- A released record is in no queue. -/
  releases : ReleasesUnqueued label s

theorem exec_rendezvous {w : Wiring} {act : Act} {rest : List Act} {g : Globals}
    (other : queueing (act :: rest) = false) (free : Unsignalled (act :: rest))
    (allowed : Orderings w .run ⟨act :: rest, g, none⟩) (ranks : Ranks (act :: rest) g)
    (inv : Rendezvous w (act :: rest) g) : (exec act g).All (Settled (Rendezvous w)) rest := by
  have holds := ranks.holds
  have below : Unsignalled rest := fun a mem => free a (List.mem_cons_of_mem _ mem)
  cases act with
  | main pc => exact execMain_rendezvous ranks.orderly holds (fun _ _ _ => ranks.fresh) inv
  | select base pc =>
    refine execSelect_rendezvous ranks.orderly holds ?_ inv
    rintro highest rfl above p head
    exact ranks.chosen_free above head
  | schedule base p pc => exact execSchedule_rendezvous holds inv
  | take pri pc => cases other
  | append p pc => cases other
  | start args pc => exact execStart_rendezvous ranks.orderly holds (fun _ _ _ => ranks.fresh) inv
  | rtc p => trivial
  | enableAlt p pc =>
    exact execEnableAlt_rendezvous ranks.orderly ranks.coherent.1 holds allowed.wired inv
  | disableAlt p pc =>
    exact execDisableAlt_rendezvous ranks.orderly ranks.coherent.1 holds allowed.serves inv
  | ready q pc => exact execReady_rendezvous ranks.orderly inv
  | signal intr saved pc => exact absurd rfl (free _ List.mem_cons_self)
  | timeoutHandler pc =>
    exact (below.no_handler ranks.orderly.stacked.1 (Or.inl rfl)).elim
  | userHandler intrsrc =>
    exact (below.no_handler ranks.orderly.stacked.1 (Or.inr rfl)).elim

/-- What the conditions on the scheduler need. -/
theorem Orderings.regular {w : Wiring} {label : Label} {s : State} (allowed : Orderings w label s)
    (free : Unsignalled s.stack) (settled : Settled (Rendezvous w) s.stack s.g) : Regular label s := by
  obtain ⟨stack, g, stopped⟩ := s
  refine ⟨?_, ?_, ?_, allowed.releases⟩
  · cases label with
    | interrupt intr => cases allowed.uninterrupted
    | _ => rfl
  · unfold preemptsNothing
    split
    · rename_i same
      obtain rfl := same
      exact absurd rfl (free _ (List.mem_cons_of_mem _ List.mem_cons_self))
    · rfl
  · unfold readiesLive
    split
    · rename_i q rest same
      obtain rfl : stack = _ := same
      have inv : Rendezvous w (.ready q .test :: rest) g := settled
      exact (inv.targets _ rfl q List.mem_cons_self).1
    · rfl

/-- The rendezvous is kept, and the order of preemption with it. -/
theorem rendezvous_kept (w : Wiring) : Kept (Orderings w)
    (fun stack g => Unsignalled stack ∧ Ranked stack g ∧ Settled (Rendezvous w) stack g) := by
  refine (unsignalled_kept.mono fun label s allowed => allowed.uninterrupted).and ?_
  refine Kept.over_ranks (fun label s known settled _ => known.1.regular known.2 settled) ?_ ?_ ?_ ?_
  · exact fun act rest g other known ranks inv => exec_rendezvous other known.2 known.1 ranks inv
  · exact fun op act rest g _ ranks inv =>
      execUser_rendezvous ranks.orderly ranks.coherent ranks.holds inv
  · intro intr stack g known
    cases known.1.uninterrupted
  · intro t stack g inv
    exact ⟨inv.small, inv.known, inv.stands, inv.phase, inv.idle, inv.focus, inv.targets⟩

/-- After `sched_init` there is nobody. -/
theorem rendezvous_start (w : Wiring) {arena memlen : Nat} {g : Globals}
    {handlers : Nat → Option Handler} (pristine : Pristine g) :
    Rendezvous w [.main .idleAlloc] { g with
      mem := g.mem.memoryInit arena memlen, interruptHandler := handlers } := by
  have nobody : ∀ q, initialised [.main .idleAlloc] { g with
      mem := g.mem.memoryInit arena memlen, interruptHandler := handlers } q = true → False := by
    intro q known
    simp [initialised, pristine.log, allocated] at known
  constructor
  · exact fun q known => (nobody q known).elim
  · intro c q there
    change (g.chan c).waiting = some q at there
    rw [pristine.chan] at there
    cases there
  · exact fun q known => (nobody q known).elim
  · exact List.forall_mem_cons.mpr ⟨trivial, fun a mem => absurd mem List.not_mem_nil⟩
  · exact fun q known => (nobody q known).elim
  · rintro _ ⟨⟩
    trivial
  · rintro _ ⟨⟩ t mem
    cases mem

end Microcsp
