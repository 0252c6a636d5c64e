import Microcsp.Attendance

/-!
# The indices of the guards

`enable_alt` and `disable_alt` step through the guards with `plus1_mod` and `minus1_mod`, whose
modulus is the number of guards, and `disable_alt` goes on from the index that `enable_alt` has left.
The number is zero until `init_alt` or `init_alt_pri` is called, and again for a size that is a
multiple of 256.
-/

open Library

namespace Microcsp

/-! ## What is to be shown -/

/-- What the next statements of `enable_alt` divide by is not zero, and what they address is a
guard. -/
def EnablePc.InRange (alt : Alternation) : EnablePc → Prop
  | .enter => alt.altPri = false → alt.nrGuards ≠ 0
  | .loop i k _ => if k < alt.nrGuards then i < alt.nrGuards else alt.nrGuards ≠ 0
  | .insert _ _ _ _ => alt.nrGuards ≠ 0
  | .done _ _ _ _ => True

/-- The same of `disable_alt`, which addresses the selected guard in the end. -/
def DisablePc.InRange (alt : Alternation) : DisablePc → Prop
  | .loop i (_ + 1) _ => alt.nrGuards ≠ 0 ∧ i < alt.nrGuards
  | .loop _ 0 _ => alt.index < alt.nrGuards
  | _ => True

/-- The same of an activation that works on the ALT of the process. -/
def Act.InRange (p : Addr) (alt : Alternation) : Act → Prop
  | .enableAlt q pc => q = p → pc.InRange alt
  | .disableAlt q pc => q = p → pc.InRange alt
  | _ => True

/-- What is about to be executed divides by no zero and stays within the guards of the process. -/
def GuardsInRange (p : Addr) (s : State) : Prop :=
  ∀ act ∈ s.stack.head?, act.InRange p (s.g.proc p).alt

/-- The message of a division by zero. -/
def dividesByZero : Stop := .fault "division by zero"

/-- A step ends with it. -/
def Result.divides : Result → Bool
  | .stop why => decide (why = dividesByZero)
  | _ => false

/-- The activation is about to enter `enable_alt` for the process. -/
def Act.entersAlt (p : Addr) : Act → Bool
  | .enableAlt q .enter => decide (q = p)
  | _ => false

/-! ## Conditions -/

/-- The process is in an ALT, or waits or is ready in it. -/
def PState.inAlt : PState → Bool
  | .enabling | .waiting | .ready => true
  | _ => false

/-- `schedule` calls `enable_alt` for the process when it has guards. -/
def hasGuards (p : Addr) (label : Label) (s : State) : Bool :=
  match label, s.stack with
  | .run, .schedule _ q (.dispatch .quiescent) :: _ =>
    decide (q = p → (s.g.proc p).alt.nrGuards ≠ 0)
  | _, _ => true

/-- The call sets up the ALT of `current` or ends it. -/
def Op.resets : Op → Bool
  | .initAlt _ | .initAltPri _ | .terminate => true
  | _ => false

/-- Such a call is made for the process when it is not in an ALT. -/
def resetsOutside (p : Addr) (label : Label) (s : State) : Bool :=
  match label with
  | .user op => decide (op.resets = true → s.g.current = some p → (s.g.proc p).state.inAlt = false)
  | _ => true

/-- The process is made ready when it is in an ALT. -/
def readiesInAlt (p : Addr) (label : Label) (s : State) : Bool :=
  match label, s.stack with
  | .run, .ready q .test :: _ => decide (q = p → (s.g.proc p).state.inAlt = true)
  | _, _ => true

/-- The record of the process is given to a new one when it is not in progress. -/
def refilledIdle (p : Addr) (label : Label) (s : State) : Bool :=
  match label, s.stack with
  | .run, .start _ (.fill _ q) :: rest => decide (q = p → p ∉ frames rest)
  | .run, .main (.idleFill _ q) :: rest => decide (q = p → p ∉ frames rest)
  | _, _ => true

/-- The conditions. -/
structure AltsInOrder (p : Addr) (label : Label) (s : State) : Prop where
  /-- The process has guards when its ALT is enabled. -/
  guards : hasGuards p label s = true
  /-- Its ALT is set up when it is not in one. -/
  outside : resetsOutside p label s = true
  /-- It is made ready in an ALT. -/
  readies : readiesInAlt p label s = true
  /-- It is in progress once. -/
  once : takenOnce p label s = true
  /-- Its record is not given away while it is in progress. -/
  idle : refilledIdle p label s = true

/-! ## The invariant -/

/-- The index in hand is that of a guard. -/
def EnablePc.Within (n : Nat) : EnablePc → Prop
  | .enter => True
  | .loop i _ _ | .insert i _ _ _ | .done i _ _ _ => i < n

/-- The index in hand is that of a guard. -/
def DisablePc.Within (n : Nat) : DisablePc → Prop
  | .loop i _ _ => i < n
  | _ => True

/-- `enable_alt` has returned and `disable_alt` is to be called, if the process is ready. -/
def SchedulePc.between : SchedulePc → Bool
  | .dispatch state => decide (state = .ready)
  | .enabled _ _ => true
  | .branch state _ => decide (state = .ready)
  | _ => false

/-- What an activation of the process knows of its record. -/
def Act.Ranges (p : Addr) (proc : Process) : Act → Prop
  | .enableAlt q pc => q = p →
    proc.state.inAlt = true ∧ proc.alt.nrGuards ≠ 0 ∧ pc.Within proc.alt.nrGuards
  | .disableAlt q pc => q = p →
    proc.state.inAlt = true ∧ proc.alt.index < proc.alt.nrGuards ∧ pc.Within proc.alt.nrGuards
  | .schedule _ q pc => q = p → pc.between = true →
    proc.state.inAlt = true ∧ proc.alt.index < proc.alt.nrGuards
  | _ => True

/-- The activation is `enable_alt` for the process. -/
def Act.enables (p : Addr) : Act → Bool
  | .enableAlt q _ => decide (q = p)
  | _ => false

/-- The invariant. -/
structure Ranged (p : Addr) (stack : List Act) (g : Globals) : Prop where
  /-- The process is in progress once. -/
  once : (frames stack).count p ≤ 1
  /-- Eight bits hold the number of guards. -/
  small : initialised stack g p = true → (g.proc p).alt.nrGuards ≤ 255
  /-- In an ALT that is not being enabled the index is that of a guard. -/
  enabled : initialised stack g p = true → (g.proc p).state.inAlt = true →
    stack.all (fun act => !act.enables p) = true → (g.proc p).alt.index < (g.proc p).alt.nrGuards
  /-- Its activations know their part of this. -/
  acts : initialised stack g p = true → ∀ act ∈ stack, act.Ranges p (g.proc p)

/-! ## Steps in general -/

section General

variable {p : Addr} {stack stack' rest : List Act} {act act' callee : Act} {g g' : Globals}

/-- Activations of other processes have no part. -/
theorem Act.Ranges.of_other {proc : Process} (other : act.process ≠ some p) : act.Ranges p proc := by
  unfold Act.Ranges
  split
  · exact fun same => absurd (congrArg some same) other
  · exact fun same => absurd (congrArg some same) other
  · exact fun same => absurd (congrArg some same) other
  · trivial

/-- An activation knows no more than the state, the number of guards and the index. -/
theorem Act.Ranges.congr {proc proc' : Process} (ranges : act.Ranges p proc)
    (state : proc'.state.inAlt = proc.state.inAlt) (size : proc'.alt.nrGuards = proc.alt.nrGuards)
    (index : proc'.alt.index = proc.alt.index) : act.Ranges p proc' := by
  unfold Act.Ranges at ranges ⊢
  rw [state, size, index]
  exact ranges

/-- A step that leaves these alone. -/
theorem Ranged.step (inv : Ranged p stack g)
    (life : initialised stack' g' p = true → initialised stack g p = true)
    (once : (frames stack').count p ≤ 1)
    (state : (g'.proc p).state.inAlt = (g.proc p).state.inAlt)
    (size : (g'.proc p).alt.nrGuards = (g.proc p).alt.nrGuards)
    (index : (g'.proc p).alt.index = (g.proc p).alt.index)
    (enables : stack'.all (fun act => !act.enables p) = stack.all (fun act => !act.enables p))
    (acts : initialised stack g p = true → ∀ act ∈ stack', act ∈ stack ∨ act.Ranges p (g'.proc p)) :
    Ranged p stack' g' where
  once := once
  small alive := by
    rw [size]
    exact inv.small (life alive)
  enabled alive inside none := by
    rw [size, index]
    exact inv.enabled (life alive) (state ▸ inside) (enables ▸ none)
  acts alive act mem := by
    rcases acts (life alive) act mem with before | now
    · exact (inv.acts (life alive) act before).congr state size index
    · exact now

/-- A step to another point. -/
theorem Ranged.next (inv : Ranged p (act :: rest) g) (frame : frames [act'] = frames [act])
    (reserves : act'.reserves = act.reserves) (log : allocated g'.log = allocated g.log)
    (proc : g'.proc p = g.proc p) (enables : act'.enables p = act.enables p)
    (ranges : initialised (act :: rest) g p = true → act'.Ranges p (g.proc p)) :
    Ranged p (act' :: rest) g' := by
  have life : initialised (act' :: rest) g' p = initialised (act :: rest) g p := by
    refine initialised_congr log ?_ p
    simp only [List.filterMap_cons, reserves]
  have once : (frames (act' :: rest)).count p ≤ 1 := by
    rw [frames_cons, frame, ← frames_cons]
    exact inv.once
  refine inv.step (fun alive => life ▸ alive) once (by rw [proc]) (by rw [proc]) (by rw [proc]) ?_
    fun alive => ?_
  · simp only [List.all_cons, enables]
  · rw [proc]
    exact List.forall_mem_cons.mpr ⟨Or.inr (ranges alive),
      fun a mem => Or.inl (List.mem_cons_of_mem _ mem)⟩

/-- A call of a function that does not work on an ALT of the process. -/
theorem Ranged.call (inv : Ranged p (act :: rest) g) (frame : frames [act'] = frames [act])
    (reserves : act'.reserves = act.reserves) (log : allocated g'.log = allocated g.log)
    (proc : g'.proc p = g.proc p) (enables : act'.enables p = act.enables p)
    (none : frames [callee] = []) (unreserved : callee.reserves = Option.none)
    (elsewhere : callee.enables p = false)
    (ranges : initialised (act :: rest) g p = true →
      act'.Ranges p (g.proc p) ∧ callee.Ranges p (g.proc p)) :
    Ranged p (callee :: act' :: rest) g' := by
  have life : initialised (callee :: act' :: rest) g' p = initialised (act :: rest) g p := by
    refine initialised_congr log ?_ p
    simp only [List.filterMap_cons, reserves, unreserved]
  have once : (frames (callee :: act' :: rest)).count p ≤ 1 := by
    rw [frames_cons, none, List.nil_append, frames_cons, frame, ← frames_cons]
    exact inv.once
  refine inv.step (fun alive => life ▸ alive) once (by rw [proc]) (by rw [proc]) (by rw [proc]) ?_
    fun alive => ?_
  · simp only [List.all_cons, enables, elsewhere, Bool.not_false, Bool.true_and]
  · rw [proc]
    exact List.forall_mem_cons.mpr ⟨Or.inr (ranges alive).2, List.forall_mem_cons.mpr
      ⟨Or.inr (ranges alive).1, fun a mem => Or.inl (List.mem_cons_of_mem _ mem)⟩⟩

/-- A return without a value. -/
theorem Ranged.ret (inv : Ranged p (act :: rest) g) (frame : frames [act] = [])
    (reserves : act.reserves = none) (log : allocated g'.log = allocated g.log)
    (proc : g'.proc p = g.proc p) (elsewhere : act.enables p = false) : Ranged p rest g' := by
  have life : initialised rest g' p = initialised (act :: rest) g p := by
    refine initialised_congr log ?_ p
    simp only [List.filterMap_cons, reserves]
  have once : (frames rest).count p ≤ 1 := by
    have before := inv.once
    rwa [frames_cons, frame, List.nil_append] at before
  refine inv.step (fun alive => life ▸ alive) once (by rw [proc]) (by rw [proc]) (by rw [proc]) ?_
    fun alive a mem => Or.inl (List.mem_cons_of_mem _ mem)
  simp only [List.all_cons, elsewhere, Bool.not_false, Bool.true_and]

end General

/-! ## Each function -/

section Steps

variable {p : Addr} {rest : List Act} {g : Globals}

/-- Where the process is new, or not in an ALT, nothing is asked for but the size of the number. -/
theorem Ranged.calm {stack : List Act} (once : (frames stack).count p ≤ 1)
    (small : initialised stack g p = true → (g.proc p).alt.nrGuards ≤ 255)
    (outside : initialised stack g p = true → (g.proc p).state.inAlt = false)
    (acts : initialised stack g p = true → ∀ act ∈ stack, act.Ranges p (g.proc p)) :
    Ranged p stack g where
  once := once
  small := small
  enabled alive inside _ := by
    rw [outside alive] at inside
    cases inside
  acts := acts

/-- Outside of an ALT no activation of the process has a part. -/
theorem Act.Ranges.outside {act : Act} {proc : Process} (ranges : act.Ranges p proc)
    (outside : proc.state.inAlt = false) (proc' : Process) : act.Ranges p proc' := by
  have never : ¬proc.state.inAlt = true := by
    rw [outside]
    exact Bool.false_ne_true
  cases act with
  | schedule base q pc => exact fun same between => absurd (ranges same between).1 never
  | enableAlt q pc => exact fun same => absurd (ranges same).1 never
  | disableAlt q pc => exact fun same => absurd (ranges same).1 never
  | _ => trivial

theorem execTake_ranged {pri : Nat} {pc : TakePc} (atop : Admitted .take rest)
    (inv : Ranged p (.take pri pc :: rest) g) : (execTake pri pc g).All (Ranged p) rest := by
  obtain ⟨base, under, rfl⟩ := atop.caller_of_take
  have next : ∀ pc' g', allocated g'.log = allocated g.log → g'.proc = g.proc →
      Ranged p (.take pri pc' :: .select base .taking :: under) g' := fun pc' g' log proc =>
    inv.next rfl rfl log (congrFun proc p) rfl fun _ => trivial
  have back : ∀ r g', allocated g'.log = allocated g.log → g'.proc = g.proc →
      Ranged p (.select base (.took r) :: under) g' := by
    intro r g' log proc
    have caller : Ranged p (.select base .taking :: under) g' :=
      inv.ret rfl rfl log (congrFun proc p) rfl
    exact caller.next rfl rfl rfl rfl rfl fun _ => trivial
  cases pc with
  | head =>
    simp only [execTake]
    split
    · exact back _ _ rfl rfl
    · exact next _ _ rfl rfl
  | next q => exact next _ _ rfl rfl
  | test q =>
    simp only [execTake]
    split
    · exact next _ _ rfl rfl
    · exact back _ _ rfl rfl
  | tail q => exact next _ _ rfl rfl
  | mask q => exact back _ _ rfl rfl

theorem execAppend_ranged {q : Addr} {pc : AppendPc} (inv : Ranged p (.append q pc :: rest) g) :
    (execAppend q pc g).All (Ranged p) rest := by
  have next : ∀ pc' g', allocated g'.log = allocated g.log → g'.proc = g.proc →
      Ranged p (.append q pc' :: rest) g' := fun pc' g' log proc =>
    inv.next rfl rfl log (congrFun proc p) rfl fun _ => trivial
  have back : ∀ g', allocated g'.log = allocated g.log → g'.proc = g.proc → Ranged p rest g' :=
    fun g' log proc => inv.ret rfl rfl log (congrFun proc p) rfl
  cases pc with
  | link =>
    simp only [execAppend]
    split <;> exact next _ _ rfl rfl
  | tail => exact next _ _ rfl rfl
  | next => exact next _ _ rfl rfl
  | test =>
    simp only [execAppend]
    split
    · exact next _ _ rfl rfl
    · rw [Result.all_ret, returnTo_unit]
      exact back _ rfl rfl
  | head => exact next _ _ rfl rfl
  | mask =>
    rw [execAppend, Result.all_ret, returnTo_unit]
    exact back _ rfl rfl

/-- A record is allocated and reserved. -/
theorem Ranged.alloc {act act' : Act} {g' : Globals} {record : Addr}
    (inv : Ranged p (act :: rest) g) (unreserved : act.reserves = none)
    (reserved : act'.reserves = some record) (frame : frames [act'] = frames [act])
    (log : g'.log = .alloc record :: g.log) (proc : g'.proc = g.proc)
    (enables : act'.enables p = act.enables p) (ranges : ∀ proc, act'.Ranges p proc) :
    Ranged p (act' :: rest) g' := by
  have once : (frames (act' :: rest)).count p ≤ 1 := by
    rw [frames_cons, frame, ← frames_cons]
    exact inv.once
  refine inv.step (fun alive => ?_) once (by rw [proc]) (by rw [proc]) (by rw [proc]) ?_ fun _ => ?_
  · by_cases same : record = p
    · subst same
      simp [initialised, reserved] at alive
    · simpa [initialised, log, allocated, reserved, unreserved, same, Ne.symm same] using alive
  · simp only [List.all_cons, enables]
  · exact List.forall_mem_cons.mpr ⟨Or.inr (ranges _),
      fun a mem => Or.inl (List.mem_cons_of_mem _ mem)⟩

/-- A record is filled, and if it is that of the process, nothing is in progress there. -/
theorem Ranged.fill {act act' : Act} {g' : Globals} {record q : Addr}
    (inv : Ranged p (act :: rest) g) (stacked : Stacked rest) (idle : record = p → p ∉ frames rest)
    (reserved : act.reserves = some record) (unreserved : act'.reserves = none)
    (frame : frames [act] = []) (frame' : frames [act'] = []) (none : act'.process = Option.none)
    (log : allocated g'.log = allocated g.log) (others : ∀ r, r ≠ record → g'.proc r = g.proc r)
    (state : (g'.proc record).state = .initial) (size : (g'.proc record).alt.nrGuards = 0)
    (enables : act'.enables p = false) (before : act.enables p = false) :
    Ranged p (.append q .link :: act' :: rest) g' := by
  have once : (frames (.append q .link :: act' :: rest)).count p ≤ 1 := by
    have before := inv.once
    rw [frames_cons, frame] at before
    rw [frames_cons, frames_cons act', frame']
    exact before
  have plain : ∀ proc, act'.Ranges p proc := fun proc => .of_other (by rw [none]; exact (Option.some_ne_none p).symm)
  by_cases same : record = p
  · subst same
    refine Ranged.calm once (fun _ => by rw [size]; exact Nat.zero_le _) (fun _ => by rw [state]; rfl)
      fun _ => ?_
    refine List.forall_mem_cons.mpr ⟨trivial, List.forall_mem_cons.mpr ⟨plain _, fun a mem => ?_⟩⟩
    exact .of_other fun own => idle rfl (stacked.frame_of_process mem own)
  · have proc := others p (Ne.symm same)
    refine inv.step (fun alive => ?_) once (by rw [proc]) (by rw [proc]) (by rw [proc]) ?_ fun _ => ?_
    · have called : (Act.append q .link).reserves = Option.none := rfl
      simp only [initialised, log, List.filterMap_cons, called, unreserved, reserved,
        Bool.and_eq_true, decide_eq_true_eq, List.mem_cons, not_or] at alive ⊢
      exact ⟨alive.1, Ne.symm same, alive.2⟩
    · simp only [List.all_cons, enables, before]
      rfl
    · exact List.forall_mem_cons.mpr ⟨Or.inr trivial, List.forall_mem_cons.mpr
        ⟨Or.inr (plain _), fun a mem => Or.inl (List.mem_cons_of_mem _ mem)⟩⟩

theorem execStart_ranged {args : StartArgs} {pc : StartPc}
    (stacked : Stacked (.start args pc :: rest))
    (allowed : AltsInOrder p .run ⟨.start args pc :: rest, g, none⟩)
    (inv : Ranged p (.start args pc :: rest) g) : (execStart args pc g).All (Ranged p) rest := by
  cases pc with
  | check =>
    simp only [execStart]
    split
    · trivial
    · split
      · exact inv.next rfl rfl rfl rfl rfl fun _ => trivial
      · trivial
      · trivial
  | alloc index =>
    simp only [execStart]
    split
    · trivial
    · exact inv.alloc rfl rfl rfl rfl rfl rfl fun _ => trivial
  | fill index record =>
    have idle := allowed.idle
    simp only [refilledIdle, decide_eq_true_eq] at idle
    refine inv.fill stacked.2 idle rfl rfl rfl rfl rfl rfl
      (fun r other => Globals.setProc_of_ne g _ other) ?_ ?_ rfl rfl
    · simp [Globals.setProc]
    · simp [Globals.setProc]
  | appended =>
    rw [execStart, Result.all_ret, returnTo_unit]
    exact inv.ret rfl rfl rfl rfl rfl

theorem execMain_ranged {pc : MainPc} (stacked : Stacked (.main pc :: rest))
    (allowed : AltsInOrder p .run ⟨.main pc :: rest, g, none⟩)
    (inv : Ranged p (.main pc :: rest) g) : (execMain pc g).All (Ranged p) rest := by
  cases pc with
  | memoryInit arena memlen =>
    cases arena with
    | none => trivial
    | some arena => exact inv.next rfl rfl rfl rfl rfl fun _ => trivial
  | schedInit => exact inv.next rfl rfl rfl rfl rfl fun _ => trivial
  | idleAlloc =>
    simp only [execMain]
    split
    · split
      · trivial
      · exact inv.alloc rfl rfl rfl rfl rfl rfl fun _ => trivial
    · trivial
    · trivial
  | idleFill index record =>
    have idle := allowed.idle
    simp only [refilledIdle, decide_eq_true_eq] at idle
    refine inv.fill stacked.2 idle rfl rfl rfl rfl rfl rfl
      (fun r other => Globals.setProc_of_ne g _ other) ?_ ?_ rfl rfl
    · simp [Globals.setProc]
    · simp [Globals.setProc]
  | timerInit => exact inv.next rfl rfl rfl rfl rfl fun _ => trivial
  | user => trivial
  | running => trivial

theorem execSelect_ranged {base : Int} {pc : SelectPc}
    (allowed : AltsInOrder p .run ⟨.select base pc :: rest, g, none⟩)
    (inv : Ranged p (.select base pc :: rest) g) : (execSelect base pc g).All (Ranged p) rest := by
  cases pc with
  | top => exact inv.next rfl rfl rfl rfl rfl fun _ => trivial
  | chosen highest =>
    simp only [execSelect]
    split
    · rw [Result.all_ret, returnTo_unit]
      exact inv.ret rfl rfl rfl rfl rfl
    · exact inv.call rfl rfl rfl rfl rfl rfl rfl rfl fun _ => ⟨trivial, trivial⟩
  | taking => trivial
  | took r =>
    cases r with
    | none => trivial
    | some q =>
      have once : (frames (.schedule base q .top :: rest)).count p ≤ 1 := by
        have before : (frames rest).count p ≤ 1 := inv.once
        change (q :: frames rest).count p ≤ 1
        by_cases same : q = p
        · have free : p ∉ frames rest := by
            have taken := allowed.once
            simp only [takenOnce, decide_eq_true_eq] at taken
            exact taken same
          rw [same, List.count_cons_self, List.count_eq_zero_of_not_mem free]
        · rw [List.count_cons_of_ne same]
          exact before
      refine inv.step (fun alive => alive) once rfl rfl rfl rfl fun _ => ?_
      exact List.forall_mem_cons.mpr ⟨Or.inr fun _ => elim_of_false rfl,
        fun a mem => Or.inl (List.mem_cons_of_mem _ mem)⟩

theorem execSignal_ranged {intr : Nat} {saved : SigSet} {pc : SignalPc}
    (inv : Ranged p (.signal intr saved pc :: rest) g) :
    (execSignal intr saved pc g).All (Ranged p) rest := by
  cases pc with
  | enter =>
    simp only [execSignal]
    split
    · exact inv.call rfl rfl rfl rfl rfl rfl rfl rfl fun _ => ⟨trivial, trivial⟩
    · exact inv.call rfl rfl rfl rfl rfl rfl rfl rfl fun _ => ⟨trivial, trivial⟩
    · exact inv.next rfl rfl rfl rfl rfl fun _ => trivial
  | handled previously =>
    simp only [execSignal, callScheduleAtCurrent, callSchedule]
    split
    · split
      · trivial
      · exact inv.call rfl rfl rfl rfl rfl rfl rfl rfl fun _ => ⟨trivial, trivial⟩
    · exact inv.next rfl rfl rfl rfl rfl fun _ => trivial
  | scheduled previously => exact inv.next rfl rfl rfl rfl rfl fun _ => trivial
  | leave =>
    rw [execSignal, Result.all_ret, returnTo_unit]
    exact inv.ret rfl rfl rfl rfl rfl

theorem execTimeoutHandler_ranged {pc : TimeoutPc} (inv : Ranged p (.timeoutHandler pc :: rest) g) :
    (execTimeoutHandler pc g).All (Ranged p) rest := by
  have back : ∀ g', g'.log = g.log → g'.proc = g.proc → Ranged p rest g' := fun g' log proc =>
    inv.ret rfl rfl (congrArg allocated log) (congrFun proc p) rfl
  cases pc with
  | enter => exact inv.next rfl rfl rfl rfl rfl fun _ => trivial
  | test now head =>
    cases head with
    | none =>
      rw [execTimeoutHandler, Result.all_ret, returnTo_unit]
      exact back _ rfl rfl
    | some t =>
      simp only [execTimeoutHandler]
      split
      · exact inv.next rfl rfl rfl rfl rfl fun _ => trivial
      · rw [Result.all_ret, returnTo_unit]
        exact back _ rfl rfl
  | remove now t =>
    simp only [execTimeoutHandler, readyOrFault]
    split
    · trivial
    · split
      · trivial
      · exact inv.call rfl rfl rfl rfl rfl rfl rfl rfl fun _ => ⟨trivial, trivial⟩
  | resume now => exact inv.next rfl rfl rfl rfl rfl fun _ => trivial

theorem execUserHandler_ranged {intrsrc : Nat} (inv : Ranged p (.userHandler intrsrc :: rest) g) :
    (execUserHandler intrsrc g).All (Ranged p) rest := by
  have back : ∀ g', g'.log = g.log → g'.proc = g.proc → Ranged p rest g' := fun g' log proc =>
    inv.ret rfl rfl (congrArg allocated log) (congrFun proc p) rfl
  simp only [execUserHandler]
  split
  · rw [Result.all_ret, returnTo_unit]
    exact back _ rfl rfl
  · split
    · split
      · rw [Result.all_ret, returnTo_unit]
        exact back _ rfl rfl
      · exact inv.next rfl rfl rfl rfl rfl fun _ => trivial
    · trivial

/-- In an ALT the index is that of a guard. -/
def Chosen (proc : Process) : Prop :=
  proc.state.inAlt = true ∧ proc.alt.index < proc.alt.nrGuards

/-- The process is in progress at a point of `schedule`. -/
theorem Ranged.own {base : Int} {pc : SchedulePc} (stacked : Stacked (.schedule base p pc :: rest))
    (once : (frames (.schedule base p pc :: rest)).count p ≤ 1)
    (small : initialised (.schedule base p pc :: rest) g p = true → (g.proc p).alt.nrGuards ≤ 255)
    (chosen : initialised (.schedule base p pc :: rest) g p = true →
      pc.between = true ∨ (g.proc p).state.inAlt = true → Chosen (g.proc p)) :
    Ranged p (.schedule base p pc :: rest) g where
  once := once
  small := small
  enabled alive inside _ := (chosen alive (Or.inr inside)).2
  acts alive := by
    refine List.forall_mem_cons.mpr ⟨fun _ between => chosen alive (Or.inl between), ?_⟩
    exact fun act mem => .of_other (stacked.outer once act mem)

/-- A function works on the ALT of the process for `schedule`. -/
theorem Ranged.over {base : Int} {pc : SchedulePc} {under : List Act} {act : Act}
    (stacked : Stacked (.schedule base p pc :: under)) (closed : pc.between = false)
    (once : (frames (act :: .schedule base p pc :: under)).count p ≤ 1) (frame : frames [act] = [])
    (small : initialised (act :: .schedule base p pc :: under) g p = true →
      (g.proc p).alt.nrGuards ≤ 255)
    (enabled : act.enables p = true ∨ (initialised (act :: .schedule base p pc :: under) g p = true →
      (g.proc p).alt.index < (g.proc p).alt.nrGuards))
    (ranges : initialised (act :: .schedule base p pc :: under) g p = true →
      act.Ranges p (g.proc p)) : Ranged p (act :: .schedule base p pc :: under) g where
  once := once
  small := small
  enabled alive _ none := by
    rcases enabled with enables | chosen
    · simp [enables] at none
    · exact chosen alive
  acts alive := by
    have below : (frames (.schedule base p pc :: under)).count p ≤ 1 := by
      rwa [frames_cons, frame, List.nil_append] at once
    refine List.forall_mem_cons.mpr ⟨ranges alive, List.forall_mem_cons.mpr ⟨fun _ between => ?_,
      fun act mem => .of_other (stacked.outer below act mem)⟩⟩
    rw [closed] at between
    cases between

/-- What `schedule` knows of its process that is in progress once. -/
theorem Ranged.chosen {base : Int} {pc : SchedulePc} (stacked : Stacked (.schedule base p pc :: rest))
    (inv : Ranged p (.schedule base p pc :: rest) g)
    (alive : initialised (.schedule base p pc :: rest) g p = true)
    (inside : pc.between = true ∨ (g.proc p).state.inAlt = true) : Chosen (g.proc p) := by
  rcases inside with between | inside
  · exact inv.acts alive _ List.mem_cons_self rfl between
  · refine ⟨inside, inv.enabled alive inside ?_⟩
    refine List.all_eq_true.mpr fun act mem => ?_
    rcases List.mem_cons.mp mem with rfl | below
    · rfl
    · have other := stacked.outer inv.once act below
      cases act with
      | enableAlt q pc =>
        have apart : q ≠ p := fun same => other (congrArg some same)
        simp [Act.enables, apart]
      | _ => rfl

/-- `schedule` stores the state of its process. -/
theorem Ranged.setState {base : Int} {q : Addr} {pc pc' : SchedulePc} {state : PState} {g' : Globals}
    (stacked : Stacked (.schedule base q pc :: rest)) (inv : Ranged p (.schedule base q pc :: rest) g)
    (log : allocated g'.log = allocated g.log) (proc : g'.proc = (g.setState q state).proc)
    (stays : initialised (.schedule base q pc :: rest) g p = true → q = p →
      pc'.between = true ∨ state.inAlt = true → pc.between = true ∧ state.inAlt = true) :
    Ranged p (.schedule base q pc' :: rest) g' := by
  have life : initialised (.schedule base q pc' :: rest) g' p =
      initialised (.schedule base q pc :: rest) g p := initialised_congr log rfl p
  by_cases same : q = p
  · subst same
    have alt : (g'.proc q).alt = (g.proc q).alt := by
      rw [proc]
      exact g.setState_alt q q state
    have stored : (g'.proc q).state = state := by
      rw [proc]
      exact g.setState_state_self q state
    have atop : Stacked (.schedule base q pc' :: rest) := stacked
    refine Ranged.own atop inv.once (fun alive => ?_) fun alive inside => ?_
    · rw [alt]
      exact inv.small (life ▸ alive)
    · rw [stored] at inside
      obtain ⟨between, within⟩ := stays (life ▸ alive) rfl inside
      refine ⟨by rw [stored]; exact within, ?_⟩
      rw [alt]
      exact (inv.chosen stacked (life ▸ alive) (Or.inl between)).2
  · refine inv.next rfl rfl log ?_ rfl fun _ own => absurd own same
    rw [proc, Globals.setState_of_ne g state (Ne.symm same)]

/-- A process that was in its ALT when `enable_alt` returned is still in it. -/
theorem inAlt_afterEnabling {state : PState} (found : Bool) (inside : state.inAlt = true) :
    (state.afterEnabling found).inAlt = true := by
  unfold PState.afterEnabling
  split
  · cases found <;> rfl
  · exact inside

theorem execSchedule_ranged {base : Int} {q : Addr} {pc : SchedulePc}
    (stacked : Stacked (.schedule base q pc :: rest))
    (allowed : AltsInOrder p .run ⟨.schedule base q pc :: rest, g, none⟩)
    (inv : Ranged p (.schedule base q pc :: rest) g) :
    (execSchedule base q pc g).All (Ranged p) rest := by
  -- a step to a point at which nothing is asked for
  have next : ∀ pc' g', allocated g'.log = allocated g.log → g'.proc = g.proc → pc'.between = false →
      Ranged p (.schedule base q pc' :: rest) g' := fun pc' g' log proc closed =>
    inv.next rfl rfl log (congrFun proc p) rfl fun _ _ between =>
      elim_of_false closed between
  have call : ∀ pc' callee g', allocated g'.log = allocated g.log → g'.proc = g.proc →
      frames [callee] = [] → callee.reserves = none → callee.enables p = false →
      (initialised (.schedule base q pc :: rest) g p = true → callee.Ranges p (g.proc p)) →
      pc'.between = false → Ranged p (callee :: .schedule base q pc' :: rest) g' :=
    fun pc' callee g' log proc frame reserves elsewhere ranges closed =>
      inv.call rfl rfl log (congrFun proc p) rfl frame reserves elsewhere fun alive =>
        ⟨fun _ => elim_of_false closed, ranges alive⟩
  -- `disable_alt` is called for a process whose index has been stored
  have disable : pc.between = true →
      (callDisableAlt base q g).All (Ranged p) rest := by
    intro between
    refine call _ _ _ rfl rfl rfl rfl rfl (fun alive own => ?_) rfl
    subst own
    obtain ⟨inside, index⟩ := inv.chosen stacked alive (Or.inl between)
    exact ⟨inside, index, trivial⟩
  cases pc with
  | top =>
    refine inv.next rfl rfl rfl rfl rfl fun alive own between => ?_
    subst own
    have ready : (g.proc q).state = .ready := of_decide_eq_true between
    refine inv.chosen stacked alive (Or.inr ?_)
    rw [ready]
    rfl
  | dispatch state =>
    cases state with
    | initial => exact call _ _ _ rfl rfl rfl rfl rfl (fun _ => trivial) rfl
    | quiescent =>
      by_cases same : q = p
      · subst same
        have positive := allowed.guards
        simp only [hasGuards, decide_eq_true_eq] at positive
        have life : initialised (.enableAlt q .enter :: .schedule base q .enabling :: rest)
            ((g.setState q .enabling).emit (.enable q)) q =
            initialised (.schedule base q (.dispatch .quiescent) :: rest) g q :=
          initialised_congr rfl rfl q
        have alt : ((g.setState q .enabling).proc q).alt = (g.proc q).alt :=
          g.setState_alt q q .enabling
        have state : ((g.setState q .enabling).proc q).state = .enabling :=
          g.setState_state_self q .enabling
        have atop : Stacked (.schedule base q .enabling :: rest) := stacked
        refine Ranged.over atop rfl inv.once rfl (fun alive => ?_) (Or.inl (decide_eq_true rfl)) ?_
        · rw [Globals.emit_proc, alt]
          exact inv.small (life ▸ alive)
        · intro _ _
          rw [Globals.emit_proc, alt, state]
          exact ⟨rfl, positive trivial, trivial⟩
      · refine inv.call rfl rfl rfl ?_ rfl rfl rfl ?_ fun _ =>
          ⟨fun own => absurd own same, fun own => absurd own same⟩
        · exact Globals.setState_of_ne g .enabling (Ne.symm same)
        · exact decide_eq_false same
    | ready => exact disable rfl
    | waiting => exact next _ _ rfl rfl rfl
    | enabling => exact next _ _ rfl rfl rfl
    | done => exact next _ _ rfl rfl rfl
  | initial =>
    refine inv.setState stacked rfl rfl fun _ _ inside => ?_
    rcases inside with between | inside
    · cases between
    · cases inside
  | enabling => trivial
  | enabled found partner =>
    refine inv.setState stacked rfl rfl fun alive own _ => ⟨rfl, ?_⟩
    subst own
    exact inAlt_afterEnabling found (inv.chosen stacked alive (Or.inl rfl)).1
  | branch state partner =>
    simp only [execSchedule]
    split
    · rename_i ready
      exact disable (decide_eq_true ready)
    · exact next _ _ rfl rfl rfl
  | disabling => trivial
  | disabled partner =>
    refine inv.setState stacked rfl rfl fun _ _ inside => ?_
    rcases inside with between | inside
    · cases between
    · cases inside
  | partner partner executes =>
    cases partner with
    | none => exact next _ _ rfl rfl rfl
    | some r => exact call _ _ _ rfl rfl rfl rfl rfl (fun _ => trivial) rfl
  | readying executes => exact next _ _ rfl rfl rfl
  | execute executes =>
    cases executes with
    | false => exact next _ _ rfl rfl rfl
    | true => exact call _ _ _ rfl rfl rfl rfl rfl (fun _ => trivial) rfl
  | executing => exact next _ _ rfl rfl rfl
  | finish =>
    have fewer : (frames (.select base .top :: rest)).count p ≤ 1 := by
      have once : (q :: frames rest).count p ≤ 1 := inv.once
      exact (List.count_le_count_cons).trans once
    have leave : ∀ g', (initialised (.select base .top :: rest) g' p = true →
        initialised (.schedule base q .finish :: rest) g p = true) → g'.proc = g.proc →
        Ranged p (.select base .top :: rest) g' := by
      intro g' life proc
      refine inv.step life fewer (by rw [proc]) (by rw [proc]) (by rw [proc]) rfl fun _ => ?_
      exact List.forall_mem_cons.mpr ⟨Or.inr trivial, fun a mem => Or.inl (List.mem_cons_of_mem _ mem)⟩
    simp only [execSchedule]
    split
    · refine leave _ (fun alive => ?_) rfl
      have reserves : (Act.select base .top :: rest).filterMap Act.reserves =
          (Act.schedule base q .finish :: rest).filterMap Act.reserves := rfl
      by_cases same : q = p
      · simp [initialised, allocated, same] at alive
      · simpa [initialised, allocated, reserves, same] using alive
    · exact leave _ id rfl
    · exact next _ _ rfl rfl rfl

/-- `enable_alt` or `disable_alt` for another process returns. -/
theorem Ranged.back {act : Act} {base : Int} {q : Addr} {pc pc' : SchedulePc} {under : List Act}
    {g' : Globals} (inv : Ranged p (act :: .schedule base q pc :: under) g) (other : q ≠ p)
    (frame : frames [act] = []) (reserves : act.reserves = none)
    (log : allocated g'.log = allocated g.log) (proc : g'.proc p = g.proc p)
    (elsewhere : act.enables p = false) : Ranged p (.schedule base q pc' :: under) g' :=
  (inv.ret frame reserves log proc elsewhere).next rfl rfl rfl rfl rfl fun _ own => absurd own other

theorem execEnableAlt_ranged {q : Addr} {pc : EnablePc} (stacked : Stacked (.enableAlt q pc :: rest))
    (inv : Ranged p (.enableAlt q pc :: rest) g) :
    (execEnableAlt q pc g).All (Ranged p) rest := by
  obtain ⟨base, under, rfl⟩ := (stacked.1 : Admitted (.enableAlt q) rest).caller_of_enableAlt
  -- a step to another point with an index in range
  have next : ∀ pc' g', allocated g'.log = allocated g.log → g'.proc = g.proc →
      ((g.proc q).alt.nrGuards ≠ 0 → pc.Within (g.proc q).alt.nrGuards →
        pc'.Within (g.proc q).alt.nrGuards) →
      Ranged p (.enableAlt q pc' :: .schedule base q .enabling :: under) g' := by
    intro pc' g' log proc within
    refine inv.next rfl rfl log (congrFun proc p) rfl fun alive own => ?_
    subst own
    obtain ⟨inside, positive, before⟩ := inv.acts alive _ List.mem_cons_self rfl
    exact ⟨inside, positive, within positive before⟩
  have onward : ∀ i k partner, (g.proc q).alt.nrGuards ≠ 0 →
      EnablePc.Within (g.proc q).alt.nrGuards
        (.loop (plus1Mod i (g.proc q).alt.nrGuards) k partner) := fun i k partner positive =>
    plus1Mod_lt (Nat.pos_of_ne_zero positive)
  cases pc with
  | enter =>
    simp only [execEnableAlt]
    split
    · trivial
    · split
      · exact next _ _ rfl rfl fun positive _ => Nat.pos_of_ne_zero positive
      · split
        · trivial
        · exact next _ _ rfl rfl fun positive _ => onward _ _ _ positive
  | loop i k partner =>
    simp only [execEnableAlt]
    split
    · split
      · split
        · split
          · exact next _ _ rfl rfl fun _ within => within
          · exact next _ _ rfl rfl fun positive _ => onward _ _ _ positive
        · exact next _ _ rfl rfl fun positive _ => onward _ _ _ positive
        · exact next _ _ rfl rfl fun _ within => within
        · split
          · exact next _ _ rfl rfl fun _ within => within
          · exact next _ _ rfl rfl fun _ within => within
        · split
          · exact next _ _ rfl rfl fun _ within => within
          · exact next _ _ rfl rfl fun positive _ => onward _ _ _ positive
      · exact next _ _ rfl rfl fun positive _ => onward _ _ _ positive
    · split
      · trivial
      · exact next _ _ rfl rfl fun positive _ => minus1Mod_lt (Nat.pos_of_ne_zero positive)
  | insert i k t partner =>
    simp only [execEnableAlt]
    split
    · trivial
    · exact next _ _ rfl rfl fun positive _ => onward _ _ _ positive
  | done i k ready partner =>
    simp only [execEnableAlt, Result.all_ret, returnTo, Act.resume]
    have life : ∀ g', allocated g'.log = allocated g.log →
        initialised (.schedule base q (.enabled ready partner) :: under) g' p =
        initialised (.enableAlt q (.done i k ready partner) :: .schedule base q .enabling :: under) g p :=
      fun g' log => initialised_congr log rfl p
    by_cases same : q = p
    · subst same
      have atop : Stacked (.schedule base q (.enabled ready partner) :: under) := stacked.2
      refine Ranged.own atop inv.once (fun alive => ?_) fun alive _ => ?_
      · rw [Globals.setAlt_alt_self]
        exact inv.small (life _ rfl ▸ alive)
      · have alive := (life _ rfl).symm.trans alive
        obtain ⟨inside, -, within⟩ := inv.acts alive _ List.mem_cons_self rfl
        have small := inv.small alive
        have index : toUint8 i = i := toUint8_of_lt small within
        refine ⟨by rw [Globals.setAlt_state]; exact inside, ?_⟩
        rw [Globals.setAlt_alt_self, index]
        exact within
    · exact inv.back same rfl rfl rfl (Globals.setAlt_of_ne g _ (Ne.symm same)) (decide_eq_false same)

theorem execDisableAlt_ranged {q : Addr} {pc : DisablePc}
    (stacked : Stacked (.disableAlt q pc :: rest)) (inv : Ranged p (.disableAlt q pc :: rest) g) :
    (execDisableAlt q pc g).All (Ranged p) rest := by
  obtain ⟨base, under, rfl⟩ := (stacked.1 : Admitted (.disableAlt q) rest).caller_of_disableAlt
  have known : initialised (.disableAlt q pc :: .schedule base q .disabling :: under) g p = true →
      q = p → Chosen (g.proc q) ∧ pc.Within (g.proc q).alt.nrGuards := by
    rintro alive rfl
    obtain ⟨inside, index, within⟩ := inv.acts alive _ List.mem_cons_self rfl
    exact ⟨⟨inside, index⟩, within⟩
  -- a step that leaves the record alone
  have next : ∀ pc' g', allocated g'.log = allocated g.log → g'.proc = g.proc →
      (Chosen (g.proc q) → pc.Within (g.proc q).alt.nrGuards →
        pc'.Within (g.proc q).alt.nrGuards) →
      Ranged p (.disableAlt q pc' :: .schedule base q .disabling :: under) g' := by
    intro pc' g' log proc within
    refine inv.next rfl rfl log (congrFun proc p) rfl fun alive own => ?_
    subst own
    obtain ⟨chosen, before⟩ := known alive rfl
    exact ⟨chosen.1, chosen.2, within chosen before⟩
  have back : ∀ partner g', allocated g'.log = allocated g.log → g'.proc = g.proc →
      Ranged p (.schedule base q (.disabled partner) :: under) g' := by
    intro partner g' log proc
    have life : initialised (.schedule base q (.disabled partner) :: under) g' p =
        initialised (.disableAlt q pc :: .schedule base q .disabling :: under) g p :=
      initialised_congr log rfl p
    by_cases same : q = p
    · subst same
      have atop : Stacked (.schedule base q (.disabled partner) :: under) := stacked.2
      refine Ranged.own atop inv.once (fun alive => ?_) fun alive _ => ?_
      · rw [proc]
        exact inv.small (life ▸ alive)
      · rw [proc]
        exact (known (life ▸ alive) rfl).1
    · exact inv.back same rfl rfl log (congrFun proc p) rfl
  -- a guard is visited, and its index stored if it is ready
  have visit : ∀ (i left : Nat) (partner partner' : Option Addr) (ready : Bool) (g' : Globals), pc = .loop i (left + 1) partner →
      allocated g'.log = allocated g.log → g'.proc = (g.setAlt q { (g.proc q).alt with
        index := if ready then toUint8 i else (g.proc q).alt.index }).proc →
      Ranged p (.disableAlt q (.loop (minus1Mod i (g.proc q).alt.nrGuards) left partner') ::
        .schedule base q .disabling :: under) g' := by
    rintro i left partner partner' ready g' rfl log proc
    by_cases same : q = p
    · subst same
      have life : initialised (.disableAlt q (.loop (minus1Mod i (g.proc q).alt.nrGuards) left
          partner') :: .schedule base q .disabling :: under) g' q =
          initialised (.disableAlt q (.loop i (left + 1) partner) :: .schedule base q .disabling ::
            under) g q := initialised_congr log rfl q
      have alt : (g'.proc q).alt = { (g.proc q).alt with
          index := if ready then toUint8 i else (g.proc q).alt.index } := by
        rw [proc, Globals.setAlt_alt_self]
      have state : (g'.proc q).state = (g.proc q).state := by
        rw [proc, Globals.setAlt_state]
      have index : initialised (.disableAlt q (.loop i (left + 1) partner) ::
          .schedule base q .disabling :: under) g q = true →
          (g'.proc q).alt.index < (g'.proc q).alt.nrGuards := by
        intro alive
        obtain ⟨chosen, within⟩ := known alive rfl
        rw [alt]
        cases ready with
        | false => exact chosen.2
        | true =>
          have stored : toUint8 i = i := toUint8_of_lt (inv.small alive) within
          change toUint8 i < (g.proc q).alt.nrGuards
          rw [stored]
          exact within
      refine Ranged.over stacked.2 rfl inv.once rfl (fun alive => ?_)
        (Or.inr fun alive => index (life ▸ alive)) fun alive _ => ?_
      · rw [alt]
        exact inv.small (life ▸ alive)
      · have chosen := (known (life ▸ alive) rfl).1
        refine ⟨by rw [state]; exact chosen.1, index (life ▸ alive), ?_⟩
        rw [alt]
        exact minus1Mod_lt (Nat.zero_lt_of_lt chosen.2)
    · refine inv.next rfl rfl log ?_ rfl fun _ own => absurd own same
      rw [proc, Globals.setAlt_of_ne g _ (Ne.symm same)]
  cases pc with
  | enter => exact next _ _ rfl rfl fun chosen _ => chosen.2
  | loop i left partner =>
    cases left with
    | zero =>
      simp only [execDisableAlt]
      split
      · exact next _ _ rfl rfl fun _ _ => trivial
      · exact back _ _ rfl rfl
      · exact back _ _ rfl rfl
    | succ left =>
      simp only [execDisableAlt]
      split
      · trivial
      · split
        · split
          · exact visit _ _ _ _ _ _ rfl rfl rfl
          · exact visit _ _ _ _ true _ rfl rfl rfl
          · exact visit _ _ _ _ true _ rfl rfl rfl
          · exact visit _ _ _ _ _ _ rfl rfl rfl
          · exact visit _ _ _ _ _ _ rfl rfl rfl
        · exact next _ _ rfl rfl fun chosen _ => minus1Mod_lt (Nat.zero_lt_of_lt chosen.2)
  | copy c dest len partner =>
    simp only [execDisableAlt]
    split
    · trivial
    · exact next _ _ rfl rfl fun _ _ => trivial
  | clear c partner => exact back _ _ rfl rfl

theorem execReady_ranged {q : Addr} {pc : ReadyPc}
    (allowed : AltsInOrder p .run ⟨.ready q pc :: rest, g, none⟩)
    (inv : Ranged p (.ready q pc :: rest) g) : (execReady q pc g).All (Ranged p) rest := by
  cases pc with
  | test =>
    by_cases same : q = p
    · subst same
      have inside : (g.proc q).state.inAlt = true := by
        have readies := allowed.readies
        simpa only [readiesInAlt, decide_eq_true_eq, true_imp_iff] using readies
      have step : ∀ stack' g', initialised stack' g' q = initialised (.ready q .test :: rest) g q →
          frames stack' = frames rest → (g'.proc q).alt = (g.proc q).alt →
          (g'.proc q).state = .ready →
          stack'.all (fun act => !act.enables q) = rest.all (fun act => !act.enables q) →
          (∀ act ∈ stack', act ∈ rest ∨ act.Ranges q (g'.proc q)) → Ranged q stack' g' := by
        intro stack' g' life frame alt state enables acts
        have once : (frames stack').count q ≤ 1 := by
          rw [frame]
          exact inv.once
        refine inv.step (fun alive => life ▸ alive) once ?_ (by rw [alt]) (by rw [alt]) enables
          fun _ act mem => (acts act mem).imp_left (List.mem_cons_of_mem _)
        rw [state, inside]
        rfl
      simp only [execReady]
      split
      · rw [Result.all_ret, returnTo_unit]
        exact step _ _ (initialised_congr rfl rfl q) rfl (by simp) (by simp) rfl
          fun act mem => Or.inl mem
      · refine step _ _ (initialised_congr rfl rfl q) rfl (by simp) (by simp) rfl fun act mem => ?_
        rcases List.mem_cons.mp mem with rfl | mem
        · exact Or.inr trivial
        · rcases List.mem_cons.mp mem with rfl | mem
          · exact Or.inr trivial
          · exact Or.inl mem
    · have apart : ∀ g : Globals, ∀ state, (g.setState q state).proc p = g.proc p := fun g state =>
        Globals.setState_of_ne g state (Ne.symm same)
      simp only [execReady]
      split
      · rw [Result.all_ret, returnTo_unit]
        exact inv.ret rfl rfl rfl (apart g .ready) rfl
      · exact inv.call rfl rfl rfl ((apart (g.setState q .waiting) .ready).trans (apart g .waiting))
          rfl rfl rfl rfl fun _ => ⟨trivial, trivial⟩
  | appended =>
    simp only [execReady, callSchedule]
    split
    · trivial
    · split
      · exact inv.call rfl rfl rfl rfl rfl rfl rfl rfl fun _ => ⟨trivial, trivial⟩
      · rw [Result.all_ret, returnTo_unit]
        exact inv.ret rfl rfl rfl rfl rfl
  | scheduling prev =>
    rw [execReady, Result.all_ret, returnTo_unit]
    exact inv.ret rfl rfl rfl rfl rfl

/-- A call for `current` that sets up its ALT or ends it: if `current` is the process, the process
is not in an ALT. -/
theorem Ranged.reset {q c : Addr} {g' : Globals} (inv : Ranged p (.rtc q :: rest) g)
    (outside : c = p → (g.proc c).state.inAlt = false) (log : allocated g'.log = allocated g.log)
    (others : ∀ r, r ≠ c → g'.proc r = g.proc r)
    (small : (g'.proc c).alt.nrGuards ≤ 255 ∨ (g'.proc c).alt = (g.proc c).alt)
    (stays : (g.proc c).state.inAlt = false → (g'.proc c).state.inAlt = false) :
    Ranged p (.rtc q :: rest) g' := by
  by_cases same : c = p
  · subst same
    have before := outside rfl
    have life : initialised (.rtc q :: rest) g' c = initialised (.rtc q :: rest) g c :=
      initialised_congr log rfl c
    refine Ranged.calm inv.once (fun alive => ?_) (fun _ => stays before) fun alive act mem =>
      (inv.acts (life ▸ alive) act mem).outside before _
    rcases small with fits | alt
    · exact fits
    · rw [alt]
      exact inv.small (life ▸ alive)
  · exact inv.next rfl rfl log (others p (Ne.symm same)) rfl fun _ => trivial

theorem execUser_ranged {op : Op} {act : Act}
    (allowed : AltsInOrder p (.user op) ⟨act :: rest, g, none⟩) (inv : Ranged p (act :: rest) g) :
    (execUser op act g).All (Ranged p) rest := by
  have outside : ∀ c, g.current = some c → op.resets = true → c = p →
      (g.proc c).state.inAlt = false := by
    rintro c current resets rfl
    have condition := allowed.outside
    simp only [resetsOutside, decide_eq_true_eq] at condition
    exact condition resets current
  unfold execUser
  split
  · rename_i q
    split
    · have next : ∀ g', allocated g'.log = allocated g.log → g'.proc p = g.proc p →
          Ranged p (.rtc q :: rest) g' := fun g' log proc =>
        inv.next rfl rfl log proc rfl fun _ => trivial
      -- the guards of a process are stored
      have guards : ∀ g' i guard, g'.log = g.log →
          g'.proc = (g.setAlt q ((g.proc q).alt.setGuard i guard)).proc →
          Ranged p (.rtc q :: rest) g' := by
        intro g' i guard log proc
        by_cases same : p = q
        · subst same
          have alt : (g'.proc p).alt = (g.proc p).alt.setGuard i guard := by
            rw [proc, Globals.setAlt_alt_self]
          have life : initialised (.rtc p :: rest) g' p = initialised (.rtc p :: rest) g p :=
            initialised_congr (congrArg allocated log) rfl p
          refine inv.step (fun alive => life ▸ alive) inv.once ?_ (by rw [alt]; rfl) (by rw [alt]; rfl)
            rfl fun _ a mem => Or.inl mem
          rw [proc, Globals.setAlt_state]
        · refine next _ (congrArg allocated log) ?_
          rw [proc, Globals.setAlt_of_ne g _ same]
      cases op with
      | ret =>
        rw [userRtc, Result.all_ret, returnTo_unit]
        exact inv.ret rfl rfl rfl rfl rfl
      | terminate =>
        simp only [userRtc]
        split
        · trivial
        · rename_i c current
          exact inv.reset (outside c current rfl) rfl (fun r other => g.setState_of_ne _ other)
            (Or.inr (by simp)) fun _ => by simp [PState.inAlt]
      | start args => exact inv.call rfl rfl rfl rfl rfl rfl rfl rfl fun _ => ⟨trivial, trivial⟩
      | initAlt size =>
        simp only [userRtc]
        split
        · trivial
        · rename_i c current
          refine inv.reset (outside c current rfl) rfl (fun r other => g.setAlt_of_ne _ other)
            (Or.inl ?_) fun before => ?_
          · rw [Globals.setAlt_alt_self]
            exact toUint8_le size
          · rw [Globals.setAlt_state]
            exact before
      | initAltPri size =>
        simp only [userRtc]
        split
        · trivial
        · rename_i c current
          refine inv.reset (outside c current rfl) rfl (fun r other => g.setAlt_of_ne _ other)
            (Or.inl ?_) fun before => ?_
          · rw [Globals.setAlt_alt_self]
            exact toUint8_le size
          · rw [Globals.setAlt_state]
            exact before
      | initGuard i kind =>
        simp only [userRtc]
        split
        · trivial
        · exact guards _ _ _ rfl rfl
      | initTimeoutGuard i t time => exact guards _ _ _ rfl rfl
      | setActive i active => exact guards _ _ _ rfl rfl
      | assign v bytes => exact next _ rfl rfl
      | connect y intrno =>
        simp only [userRtc]
        split
        · exact next _ rfl rfl
        · trivial
      | disconnect intrno =>
        simp only [userRtc]
        split
        · exact next _ rfl rfl
        · trivial
      | error why => trivial
    · trivial
  · cases op with
    | ret => exact inv.call rfl rfl rfl rfl rfl rfl rfl rfl fun _ => ⟨trivial, trivial⟩
    | start args => exact inv.call rfl rfl rfl rfl rfl rfl rfl rfl fun _ => ⟨trivial, trivial⟩
    | connect y intrno =>
      simp only [userMain]
      split
      · exact inv.next rfl rfl rfl rfl rfl fun _ => trivial
      · trivial
    | _ => trivial
  · trivial

end Steps

/-- Every step under the conditions keeps the invariant. -/
theorem ranged_kept (p : Addr) :
    Kept (fun label s => AltsInOrder p label s ∧ Stacked s.stack) (Ranged p) where
  run act rest g known inv := by
    obtain ⟨allowed, stacked⟩ := known
    cases act with
    | main pc => exact execMain_ranged stacked allowed inv
    | select base pc => exact execSelect_ranged allowed inv
    | schedule base q pc => exact execSchedule_ranged stacked allowed inv
    | take pri pc => exact execTake_ranged stacked.1 inv
    | append q pc => exact execAppend_ranged inv
    | start args pc => exact execStart_ranged stacked allowed inv
    | rtc q => trivial
    | enableAlt q pc => exact execEnableAlt_ranged stacked inv
    | disableAlt q pc => exact execDisableAlt_ranged stacked inv
    | ready q pc => exact execReady_ranged allowed inv
    | signal intr saved pc => exact execSignal_ranged inv
    | timeoutHandler pc => exact execTimeoutHandler_ranged inv
    | userHandler intrsrc => exact execUserHandler_ranged inv
  user op act rest g known inv := execUser_ranged known.1 inv
  interrupt intr stack g _ _ _ inv := by
    refine inv.step (fun alive => alive) inv.once rfl rfl rfl rfl fun _ => ?_
    exact List.forall_mem_cons.mpr ⟨Or.inr trivial, fun a mem => Or.inl mem⟩
  clock t stack g _ inv :=
    inv.step (fun alive => alive) inv.once rfl rfl rfl rfl fun _ a mem => Or.inl mem

/-! ## Runs -/

/-- The number of guards that is stored is zero exactly for the multiples of 256. -/
theorem toUint8_eq_zero (size : Int) : toUint8 size = 0 ↔ (256 : Int) ∣ size := by
  unfold toUint8
  omega

section Runs

variable {p : Addr} {stack : List Act} {g : Globals}

/-- The invariant keeps the statements of `enable_alt` and `disable_alt` in range. -/
theorem Ranged.inRange {act : Act} (inv : Ranged p stack g) (alive : initialised stack g p = true)
    (mem : act ∈ stack) : act.InRange p (g.proc p).alt := by
  have ranges := inv.acts alive act mem
  cases act with
  | enableAlt q pc =>
    intro own
    obtain ⟨-, positive, within⟩ := ranges own
    cases pc with
    | enter => exact fun _ => positive
    | loop i k partner =>
      simp only [EnablePc.InRange]
      split
      · exact within
      · exact positive
    | insert i k t partner => exact positive
    | done i k ready partner => trivial
  | disableAlt q pc =>
    intro own
    obtain ⟨-, index, within⟩ := ranges own
    cases pc with
    | loop i left partner =>
      cases left with
      | zero => exact index
      | succ left => exact ⟨Nat.ne_of_gt (Nat.zero_lt_of_lt index), within⟩
    | _ => trivial
  | _ => trivial

/-- A statement in range does not divide by zero. -/
theorem Act.InRange.not_divides {act : Act} (inRange : act.InRange p (g.proc p).alt)
    (own : act.process = some p) : (exec act g).divides = false := by
  cases act with
  | enableAlt q pc =>
    obtain rfl := Option.some.inj own
    have known := inRange rfl
    cases pc with
    | enter =>
      simp only [exec, execEnableAlt]
      split
      · rfl
      · split
        · rfl
        · rename_i fair
          rw [if_neg (known (Bool.eq_false_iff.mpr fair))]
          rfl
    | loop i k partner =>
      simp only [exec, execEnableAlt]
      simp only [EnablePc.InRange] at known
      split
      · repeat' split
        all_goals rfl
      · rename_i all
        rw [if_neg all] at known
        rw [if_neg known]
        rfl
    | insert i k t partner =>
      simp only [exec, execEnableAlt]
      split <;> rfl
    | done i k ready partner => rfl
  | disableAlt q pc =>
    obtain rfl := Option.some.inj own
    have known := inRange rfl
    cases pc with
    | enter => rfl
    | loop i left partner =>
      cases left with
      | zero =>
        simp only [exec, execDisableAlt]
        split <;> rfl
      | succ left =>
        simp only [exec, execDisableAlt, if_neg known.1]
        repeat' split
        all_goals rfl
    | copy c dest len partner =>
      simp only [exec, execDisableAlt]
      split <;> rfl
    | clear c partner => rfl
  | schedule base q pc =>
    cases pc <;> simp only [exec, execSchedule, callDisableAlt] <;> (repeat' split) <;> rfl
  | rtc q => rfl
  | _ => cases own

/-- `schedule` is about to call `enable_alt` for the process, which has no guards. -/
def CallsWithoutGuards (p : Addr) (s : State) : Prop :=
  s.stopped = none ∧ (s.g.proc p).alt.nrGuards = 0 ∧
    ∃ base rest, s.stack = .schedule base p (.dispatch .quiescent) :: rest

/-- Then it divides by zero, in a fair ALT at the start and in a priority ALT after the loop. -/
theorem CallsWithoutGuards.divides {s : State} (calls : CallsWithoutGuards p s) :
    ∃ later, Run step Always s later ∧ ¬GuardsInRange p later ∧
      step .run later = some { later with stopped := some dividesByZero } := by
  obtain ⟨stack, g, stopped⟩ := s
  obtain ⟨running, none, base, rest, same⟩ := calls
  obtain rfl : stopped = _ := running
  obtain rfl : stack = _ := same
  have empty : (g.proc p).alt.nrGuards = 0 := none
  let g' := (g.setState p .enabling).emit (.enable p)
  have alt : (g'.proc p).alt = (g.proc p).alt := g.setState_alt p p .enabling
  have alone : (g'.proc p).alt.outputAlone = true := by
    rw [alt, Alternation.outputAlone, empty]
    rfl
  have called : step .run ⟨.schedule base p (.dispatch .quiescent) :: rest, g, Option.none⟩ =
      some ⟨.enableAlt p .enter :: .schedule base p .enabling :: rest, g', Option.none⟩ := rfl
  cases fair : (g'.proc p).alt.altPri with
  | false =>
    refine ⟨_, Run.head trivial called (.refl _), fun inRange => ?_, ?_⟩
    · have divides : (g'.proc p).alt.nrGuards ≠ 0 := inRange _ rfl rfl fair
      exact divides (by rw [alt, empty])
    · simp [step, exec, execEnableAlt, alone, fair, show (g'.proc p).alt.nrGuards = 0 by
        rw [alt, empty], Result.apply, dividesByZero]
  | true =>
    have entered : step .run ⟨.enableAlt p .enter :: .schedule base p .enabling :: rest, g',
        Option.none⟩ = some ⟨.enableAlt p (.loop 0 0 Option.none) :: .schedule base p .enabling ::
          rest, g', Option.none⟩ := by
      simp [step, exec, execEnableAlt, alone, fair, Result.apply]
    refine ⟨_, Run.head trivial called (Run.head trivial entered (.refl _)), fun inRange => ?_, ?_⟩
    · have divides : EnablePc.InRange (g'.proc p).alt (.loop 0 0 Option.none) := inRange _ rfl rfl
      rw [alt] at divides
      simp [EnablePc.InRange, empty] at divides
    · simp [step, exec, execEnableAlt, show (g'.proc p).alt.nrGuards = 0 by rw [alt, empty],
        Result.apply, dividesByZero]

/-- In every run under the conditions the statements of `enable_alt` and `disable_alt` for a process
divide by no zero and address its guards only; and without guards `enable_alt` divides by zero. -/
theorem guards_in_range {first : State} (booted : Booted first) :
    (∀ last, Run step (fun label s => AltsInOrder p label s) first last →
      initialised last.stack last.g p = true → GuardsInRange p last) ∧
    ∀ last, CallsWithoutGuards p last → ∃ later, Run step Always last later ∧
      ¬GuardsInRange p later ∧
      step .run later = some { later with stopped := some dividesByZero } := by
  refine ⟨fun last run alive act mem => ?_, fun last calls => calls.divides⟩
  have both : Kept (fun label s => AltsInOrder p label s) (fun stack g => Stacked stack ∧ Ranged p stack g) :=
    (stacked_kept.mono fun _ _ _ => trivial).and (ranged_kept p)
  have base : Stacked first.stack ∧ Ranged p first.stack first.g := by
    obtain ⟨arena, memlen, stack, pristine⟩ := booted.uninitialised
    have unborn : initialised first.stack first.g p ≠ true := by
      rw [booted.not_initialised]
      exact Bool.false_ne_true
    rw [stack] at unborn ⊢
    refine ⟨by simp [Stacked, Act.callee, Admitted], Ranged.calm (Nat.zero_le 1) ?_ ?_ ?_⟩
    · exact fun alive => absurd alive unborn
    · exact fun alive => absurd alive unborn
    · exact fun alive => absurd alive unborn
  exact (both.invariant base run).2.inRange alive (List.mem_of_mem_head? mem)

end Runs

/-- A process with two skip guards, the second of which has been passed by `disable_alt`. -/
def twoSkipsDisabled : List Label :=
  runs 11 ++ [.user (startWith ⟨.skip, true⟩ 1)] ++ runs 10 ++ [.user .ret] ++ runs 10 ++
    [.user (.initAlt 2), .user .ret] ++ runs 11

/-- The last guard in hand is the first of two. -/
theorem guards_in_range_of_two : ∃ last : State, initialised last.stack last.g 1024 = true ∧
    last.stack.head?.any (· matches .disableAlt 1024 (.loop 1 0 none)) = true ∧
    GuardsInRange 1024 last := by
  obtain ⟨last, run, checked⟩ := exists_run_of_executeUnder twoSkipsDisabled
    (fun s : State => initialised s.stack s.g 1024 &&
      s.stack.head?.any (· matches .disableAlt 1024 (.loop 1 0 none)))
    (by decide +kernel : (executeUnder step (fun label s => hasGuards 1024 label s &&
      resetsOutside 1024 label s && readiesInAlt 1024 label s && takenOnce 1024 label s &&
      refilledIdle 1024 label s) twoSkipsDisabled (zeroBoot 1000)).any _ = true)
  simp only [Bool.and_eq_true] at checked
  obtain ⟨alive, top⟩ := checked
  have ordered : Run step (fun label s => AltsInOrder 1024 label s) (zeroBoot 1000) last := by
    refine run.mono fun label s keeps => ?_
    simp only [Bool.and_eq_true] at keeps
    exact ⟨keeps.1.1.1.1, keeps.1.1.1.2, keeps.1.1.2, keeps.1.2, keeps.2⟩
  exact ⟨last, alive, top, (guards_in_range (zeroBoot_booted 1000)).1 last ordered alive⟩

/-- A process whose rtc function returns without having called `init_alt` or `init_alt_pri`. -/
theorem sometimes_divides_by_zero :
    ¬ ∀ p first last, Booted first → Run step Always first last →
      initialised last.stack last.g p = true → GuardsInRange p last := by
  intro always
  obtain ⟨last, run, checked⟩ := exists_run_of_execute
    (runs 11 ++ [.user (startWith ⟨.skip, true⟩ 1)] ++ runs 10 ++ [.user .ret] ++ runs 10 ++
      [.user .ret] ++ runs 4)
    (fun s : State => initialised s.stack s.g 1024 &&
      s.stack.head?.any (Act.entersAlt 1024) &&
      !(s.g.proc 1024).alt.altPri && decide ((s.g.proc 1024).alt.nrGuards = 0))
    (by decide +kernel : (execute step _ (zeroBoot 1000)).any _ = true)
  simp only [Bool.and_eq_true, Bool.not_eq_true', decide_eq_true_eq] at checked
  obtain ⟨⟨⟨alive, top⟩, fair⟩, none⟩ := checked
  have inRange := always 1024 _ last (zeroBoot_booted 1000) run alive
  unfold GuardsInRange at inRange
  cases first : last.stack.head? with
  | none =>
    rw [first] at top
    cases top
  | some act =>
    rw [first] at top inRange
    have enters : act.entersAlt 1024 = true := top
    unfold Act.entersAlt at enters
    split at enters
    · have own := of_decide_eq_true enters
      exact inRange _ rfl own fair none
    · cases enters

end Microcsp
