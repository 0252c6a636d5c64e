import Microcsp.Steps

/-!
# Interrupt masking

DISABLE and ENABLE do not nest, and `allocate_mem` ends with ENABLE. `start_idle` calls it and then
`append`, so that the first process of every program is queued with interrupts enabled. The
entries whose comments ask for disabled interrupts all find them disabled exactly when the program
stops before it comes to that.
-/

open Library

namespace Microcsp

/-- Every entry noted so far found interrupts disabled. -/
def EntriesMasked (s : State) : Prop := ∀ f masked, .enter f masked ∈ s.g.log → masked = true

/-- The points `main` passes before `start_idle` has a record, with what the arena has left. -/
inductive Initialising (memlen : Nat) : List Act → Globals → Prop where
  /-- `memory_init` is called. -/
  | memory (arena : Option Addr) (g : Globals) (short : arena = none ∨ memlen < 24) :
      Initialising memlen [.main (.memoryInit arena memlen)] g
  /-- The arena is there, and too short for a process record. -/
  | sched (g : Globals) (left : g.mem.taillen = memlen) (empty : ∀ i, g.mem.procmemlist i = none)
      (short : memlen < 24) : Initialising memlen [.main .schedInit] g
  /-- `start_idle` asks for a record. -/
  | idle (g : Globals) (left : g.mem.taillen = memlen) (empty : ∀ i, g.mem.procmemlist i = none)
      (short : memlen < 24) : Initialising memlen [.main .idleAlloc] g

/-- The program has not got past its initialisation and has entered none of the functions. -/
structure MaskingInv (memlen : Nat) (stack : List Act) (g : Globals) : Prop where
  /-- Where it is. -/
  stage : Initialising memlen stack g
  /-- `hardware_init` has blocked all signals. -/
  blocked : ∀ intr, g.blocked intr = true
  /-- Nothing is on record. -/
  silent : g.log = []

/-- The memory class of a process without local variables. -/
theorem findMemIndex_procOffset : findMemIndex procOffset = .found 3 := rfl

/-- A short arena has no record for the idle process. -/
theorem allocateMem_short {m : Memory} {memlen : Nat} (left : m.taillen = memlen)
    (empty : ∀ i, m.procmemlist i = none) (short : memlen < 24) : m.allocateMem 3 = none := by
  have tooShort : ¬ procmemlen.getD 3 0 ≤ m.taillen := by
    change ¬ 24 ≤ m.taillen
    omega
  simp only [Memory.allocateMem, empty, if_neg tooShort]

/-- Every step keeps it: there is no interrupt, and the allocation fails. -/
theorem maskingInv_kept (memlen : Nat) : Kept Always (MaskingInv memlen) where
  run act rest g _ inv := by
    obtain ⟨stage, blocked, silent⟩ := inv
    cases stage with
    | memory arena g short =>
      cases arena with
      | none => trivial
      | some arena =>
        have short : memlen < 24 := by simpa using short
        exact ⟨.sched _ rfl (fun _ => rfl) short, blocked, silent⟩
    | sched g left empty short => exact ⟨.idle _ left empty short, blocked, silent⟩
    | idle g left empty short =>
      simp only [exec, execMain, findMemIndex_procOffset, allocateMem_short left empty short]
      trivial
  user op act rest g _ inv := by
    obtain ⟨stage, blocked, silent⟩ := inv
    cases stage <;> trivial
  interrupt intr stack g _ _ unblocked inv := by
    have masked := inv.blocked intr
    rw [unblocked] at masked
    cases masked
  clock t stack g _ inv := by
    obtain ⟨stage, blocked, silent⟩ := inv
    refine ⟨?_, blocked, silent⟩
    cases stage with
    | memory arena g short => exact .memory arena _ short
    | sched g left empty short => exact .sched _ left empty short
    | idle g left empty short => exact .idle _ left empty short

/-- With an arena that has room for the idle process, four steps bring `start_idle` to its call of
`append`. -/
theorem idle_appended_unmasked (arena : Addr) {memlen : Nat} (proc : Addr → Process)
    (link : Addr → Option Addr) (vars : Addr → Var → Buffer) (time : TimeoutId → Time)
    (enough : 24 ≤ memlen) :
    ∃ last, Run step Always (boot (some arena) memlen proc link vars time) last ∧
      .enter .append false ∈ last.g.log := by
  have fits : procmemlen.getD 3 0 ≤ memlen := enough
  have allocated : ((⟨link, fun _ => none, 0, 0⟩ : Memory).memoryInit arena memlen).allocateMem 3 =
      some (arena, ⟨link, fun _ => none, arena + 24, memlen - 24⟩) := by
    have unfolded : ((⟨link, fun _ => none, 0, 0⟩ : Memory).memoryInit arena memlen).allocateMem 3 =
        if procmemlen.getD 3 0 ≤ memlen then
          some (arena, ⟨link, fun _ => none, arena + 24, memlen - 24⟩) else none := rfl
    rw [unfolded, if_pos fits]
  have executed : ∃ last, execute step (runs 4) (boot (some arena) memlen proc link vars time) =
      some last ∧ .enter .append false ∈ last.g.log := by
    simp [execute, runs, List.replicate, step, boot, exec, execMain, Result.apply,
      findMemIndex_procOffset, allocated, Globals.masked, allSignals, nintrSources, List.range,
      List.range.loop]
  obtain ⟨last, done, entered⟩ := executed
  exact ⟨last, run_of_execute done, entered⟩

/-- Every entry in every run finds interrupts disabled if and only if `initialize` fails, for want
of an arena or of room for the idle process in it. -/
theorem entries_masked_iff (arena : Option Addr) (memlen : Nat) (proc : Addr → Process)
    (link : Addr → Option Addr) (vars : Addr → Var → Buffer) (time : TimeoutId → Time) :
    (∀ last, Run step Always (boot arena memlen proc link vars time) last → EntriesMasked last) ↔
      arena = none ∨ memlen < 24 := by
  constructor
  · intro masked
    by_contra fails
    obtain ⟨present, enough⟩ := not_or.mp fails
    obtain ⟨arena, rfl⟩ := Option.ne_none_iff_exists'.mp present
    obtain ⟨last, run, entered⟩ :=
      idle_appended_unmasked arena proc link vars time (Nat.le_of_not_lt enough)
    have wrong := masked last run _ _ entered
    cases wrong
  · intro fails last run f masked entered
    have base : MaskingInv memlen (boot arena memlen proc link vars time).stack
        (boot arena memlen proc link vars time).g :=
      ⟨.memory arena _ fails, fun _ => rfl, rfl⟩
    have inv := (maskingInv_kept memlen).invariant base run
    rw [inv.silent] at entered
    cases entered

theorem entries_not_always_masked :
    ¬ ∀ first last, Booted first → Run step Always first last → EntriesMasked last := by
  intro always
  obtain ⟨last, run, wrong⟩ := exists_run_of_execute (runs 4)
    (fun s : State => decide (Event.enter .append false ∈ s.g.log))
    (by decide +kernel : (execute step (runs 4) (zeroBoot 32768)).any _ = true)
  have masked := always _ last (zeroBoot_booted 32768) run _ _ (by simpa using wrong)
  cases masked

end Microcsp
