import Microcsp.Allocation
import Microcsp.Idle
import Microcsp.Lookup

/-!
# Process records in the arena

The scheduler is the client of the allocator. `start` and `initialize` allocate a block for each record,
`append` stores into the first words of records, which are their links, and `schedule` releases them
with the index that is kept in them. As long as records are not used after their release, this is what
the allocator asks of a client, so that no two records overlap, nor does a record and a free block.
-/

open Library

namespace Microcsp

/-! ## Blocks in use -/

/-- The block that an activation has allocated and not filled yet. -/
def Act.block : Act → Option Block
  | .main (.idleFill index record) => some ⟨record, index⟩
  | .start _ (.fill index record) => some ⟨record, index⟩
  | _ => none

/-- Its address is that of the record. -/
theorem Act.block_addr (act : Act) : act.block.map Block.addr = act.reserves := by
  cases act with
  | main pc => cases pc <;> rfl
  | start args pc => cases pc <;> rfl
  | _ => rfl

/-- So it is in a whole stack. -/
theorem blocks_addr (stack : List Act) :
    (stack.filterMap Act.block).map Block.addr = stack.filterMap Act.reserves := by
  rw [List.map_filterMap]
  exact List.filterMap_congr fun act _ => act.block_addr

/-- The blocks of the records: those that an activation is about to fill, and those of processes, which
keep their indices. -/
def InUse (stack : List Act) (g : Globals) (b : Block) : Prop :=
  b ∈ stack.filterMap Act.block ∨
    initialised stack g b.addr = true ∧ (g.proc b.addr).index = b.index

/-- The scheduler has used the allocator as it should: it has the blocks of the records, and a record
fits in each. -/
def Client (arena memlen : Nat) (stack : List Act) (g : Globals) : Prop :=
  ∃ m s, Run memStep Always (.fresh m arena memlen) s ∧ s.mem = g.mem ∧
    (∀ b, b ∈ s.live ↔ InUse stack g b) ∧ ∀ b ∈ s.live, procOffset ≤ procmemlen.getD b.index 0

section Client

variable {arena memlen : Nat} {act : Act} {stack stack' rest : List Act} {g g' : Globals} {b : Block}

/-- Blocks depend on what is allocated, what is to be filled and the indices in the records. -/
theorem inUse_congr (blocks : stack'.filterMap Act.block = stack.filterMap Act.block)
    (log : allocated g'.log = allocated g.log) (index : ∀ q, (g'.proc q).index = (g.proc q).index) :
    InUse stack' g' b ↔ InUse stack g b := by
  have reserves : stack'.filterMap Act.reserves = stack.filterMap Act.reserves := by
    rw [← blocks_addr, blocks, blocks_addr]
  rw [InUse, InUse, blocks, initialised_congr log reserves, index]

/-- Nothing of the allocator has moved. -/
theorem Client.congr (client : Client arena memlen stack g)
    (blocks : stack'.filterMap Act.block = stack.filterMap Act.block) (mem : g'.mem = g.mem)
    (log : allocated g'.log = allocated g.log) (index : ∀ q, (g'.proc q).index = (g.proc q).index) :
    Client arena memlen stack' g' := by
  obtain ⟨m, s, run, same, live, roomy⟩ := client
  exact ⟨m, s, run, same.trans mem.symm, fun b => (live b).trans (inUse_congr blocks log index).symm,
    roomy⟩

/-- The links of records in use may be stored. -/
theorem Client.store (client : Client arena memlen stack g) (used : InUse stack g b)
    (next : Option Addr) : Client arena memlen stack (g.setLink b.addr next) := by
  obtain ⟨m, s, run, same, live, roomy⟩ := client
  have any : s.live.any (·.addr = b.addr) = true :=
    List.any_eq_true.mpr ⟨b, (live b).mpr used, decide_eq_true rfl⟩
  have stored : memStep (.store b.addr next) s = some { s with mem := s.mem.setLink b.addr next } := by
    simp only [memStep, any, if_true]
  exact ⟨m, _, run.tail trivial stored, congrArg (·.setLink b.addr next) same, live, roomy⟩

/-- `append` stores into the records that its queue ends with. -/
theorem Client.enqueue {p : Addr} {i : Nat} (client : Client arena memlen stack g)
    (used : InUse stack g ⟨p, i⟩)
    (last : ∀ q, (g.readyQ (g.proc p).pri).tail = some q → ∃ j, InUse stack g ⟨q, j⟩) :
    Client arena memlen stack (g.enqueue p) := by
  cases tail : (g.readyQ (g.proc p).pri).tail with
  | none =>
    refine (client.store used none).congr rfl ?_ rfl fun _ => rfl
    simp [Globals.enqueue, tail, Globals.setLink, Memory.setLink]
  | some q =>
    obtain ⟨j, used'⟩ := last q tail
    refine ((client.store used' (some p)).store (b := ⟨p, i⟩) used none).congr rfl ?_ rfl fun _ => rfl
    simp [Globals.enqueue, tail, Globals.setLink, Memory.setLink]

/-- The blocks that the allocator has cut are accounted for. -/
theorem allocOk_of_run {m : Memory} {s : MemState} (run : Run memStep Always (.fresh m arena memlen) s) :
    ∃ free, AllocOk arena memlen free s :=
  run.invariant (fun s => ∃ free, AllocOk arena memlen free s) ⟨_, .fresh m arena memlen⟩ <| by
    rintro label s next ⟨free, ok⟩ - stepped
    exact ok.step stepped

/-- A block is allocated for a record. -/
theorem Client.alloc {act' : Act} {index : Nat} {record : Addr} {mem : Memory}
    (client : Client arena memlen (act :: rest) g) (fresh : allocated g.log record = false)
    (known : index < nalloc) (roomy : procOffset ≤ procmemlen.getD index 0)
    (made : g.mem.allocateMem index = some (record, mem)) (none : act.block = none)
    (block : act'.block = some ⟨record, index⟩) (moved : g'.mem = mem)
    (log : allocated g'.log = allocated (.alloc record :: g.log))
    (same : ∀ q, (g'.proc q).index = (g.proc q).index) :
    Client arena memlen (act' :: rest) g' := by
  obtain ⟨m, s, run, mem', live, large⟩ := client
  have stepped : memStep (.allocate index) s = some ⟨mem, ⟨record, index⟩ :: s.live,
      if s.mem.procmemlist index = Option.none then ⟨record, index⟩ :: s.cut else s.cut⟩ := by
    rw [← mem'] at made
    simp only [memStep, if_pos known, made, Option.map_some]
  refine ⟨m, _, run.tail trivial stepped, moved.symm, fun b => ?_, List.forall_mem_cons.mpr ⟨roomy, large⟩⟩
  have blocks : (act' :: rest).filterMap Act.block =
      ⟨record, index⟩ :: (act :: rest).filterMap Act.block := by
    rw [List.filterMap_cons_some block, List.filterMap_cons_none none]
  have known' : ∀ q, initialised (act' :: rest) g' q = initialised (act :: rest) g q := by
    intro q
    rw [initialised, initialised, ← blocks_addr, ← blocks_addr, blocks, log, List.map_cons]
    by_cases own : q = record
    · subst own
      simp [fresh]
    · have before : allocated (.alloc record :: g.log) q = allocated g.log q := if_neg (Ne.symm own)
      rw [before]
      simp [beq_false_of_ne own]
  rw [List.mem_cons, live b, InUse, InUse, blocks, List.mem_cons, known', same, or_assoc]

/-- The record in it is filled. -/
theorem Client.fill {act' : Act} {index : Nat} {record : Addr} {s : Sched Addr}
    (client : Client arena memlen (act :: rest) g) (impl : Implements s (act :: rest) g)
    (block : act.block = some ⟨record, index⟩) (none : act'.block = none) (moved : g'.mem = g.mem)
    (log : allocated g'.log = allocated g.log) (filled : (g'.proc record).index = index)
    (others : ∀ q, q ≠ record → g'.proc q = g.proc q) :
    Client arena memlen (act' :: rest) g' ∧ InUse (act' :: rest) g' ⟨record, index⟩ ∧
      ∀ q, initialised (act :: rest) g q = true → initialised (act' :: rest) g' q = true := by
  obtain ⟨queue, free, rep, -⟩ := impl
  have blocks : (act :: rest).filterMap Act.block =
      ⟨record, index⟩ :: (act' :: rest).filterMap Act.block := by
    rw [List.filterMap_cons_some block, List.filterMap_cons_none none]
  have reserves : (act :: rest).filterMap Act.reserves =
      record :: (act' :: rest).filterMap Act.reserves := by
    rw [← blocks_addr, blocks, List.map_cons, blocks_addr]
  have distinct : ((act :: rest).filterMap Act.reserves).Nodup := rep.distinct
  have reserved : allocated g.log record = true := rep.reserved record (by simp [view, reserves])
  rw [reserves] at distinct
  have free' := (List.nodup_cons.mp distinct).1
  have known : ∀ q, initialised (act' :: rest) g' q = true ↔
      q = record ∨ initialised (act :: rest) g q = true := by
    intro q
    simp only [initialised, log, reserves, Bool.and_eq_true, decide_eq_true_eq, List.mem_cons, not_or]
    by_cases own : q = record
    · subst own
      simp [reserved, free']
    · simp [own]
  have fresh : initialised (act :: rest) g record = false := by
    simp [initialised, reserves]
  obtain ⟨m, s, run, mem, live, roomy⟩ := client
  refine ⟨⟨m, s, run, mem.trans moved.symm, fun b => (live b).trans ?_, roomy⟩,
    Or.inr ⟨(known record).mpr (Or.inl rfl), filled⟩, fun q before => (known q).mpr (Or.inr before)⟩
  rw [InUse, InUse, blocks, List.mem_cons, known]
  by_cases own : b.addr = record
  · have apart : b ∉ (act' :: rest).filterMap Act.block := fun mem => free' <| by
      rw [← blocks_addr, ← own]
      exact List.mem_map_of_mem mem
    simp only [own, fresh, filled, apart, Bool.false_eq_true, false_and, or_false, true_and,
      false_or]
    constructor
    · rintro rfl
      rfl
    · rintro rfl
      rw [← own]
  · have apart : b ≠ ⟨record, index⟩ := fun same => own (congrArg Block.addr same)
    simp only [apart, own, others b.addr own, false_or]

/-- A record is released. -/
theorem Client.release {base : Int} {p : Addr} (client : Client arena memlen (.schedule base p .finish :: rest) g)
    (alive : initialised (.schedule base p .finish :: rest) g p = true)
    (moved : g'.mem = g.mem.releaseMem (g.proc p).index p)
    (log : allocated g'.log = allocated (.release p :: g.log))
    (same : ∀ q, (g'.proc q).index = (g.proc q).index) :
    Client arena memlen (.select base .top :: rest) g' := by
  obtain ⟨m, s, run, mem, live, roomy⟩ := client
  obtain ⟨free, ok⟩ := allocOk_of_run run
  have nodup : s.live.Nodup := by
    have all : (s.live ++ freeBlocks free).Nodup := (ok.accounted.nodup_iff).mpr ok.addresses.of_map
    exact (List.nodup_append.mp all).1
  have used : ⟨p, (g.proc p).index⟩ ∈ s.live := (live _).mpr (Or.inr ⟨alive, rfl⟩)
  have stepped : memStep (.release (g.proc p).index p) s = some { s with
      mem := s.mem.releaseMem (g.proc p).index p, live := s.live.erase ⟨p, (g.proc p).index⟩ } := by
    simp only [memStep, if_pos used]
  refine ⟨m, _, run.tail trivial stepped, (congrArg (·.releaseMem (g.proc p).index p) mem).trans moved.symm,
    fun b => ?_, fun b left => roomy b (List.mem_of_mem_erase left)⟩
  have blocks : (Act.select base .top :: rest).filterMap Act.block =
      (Act.schedule base p .finish :: rest).filterMap Act.block := rfl
  have reserves : (Act.select base .top :: rest).filterMap Act.reserves =
      (Act.schedule base p .finish :: rest).filterMap Act.reserves := rfl
  simp only [initialised, Bool.and_eq_true, decide_eq_true_eq] at alive
  rw [nodup.mem_erase_iff, live b, InUse, InUse, blocks, initialised, initialised, reserves, log, same]
  by_cases own : b.addr = p
  · have released : allocated (.release p :: g.log) b.addr = false := by rw [own, allocated, if_pos rfl]
    have apart : b ∉ (Act.schedule base p .finish :: rest).filterMap Act.block := fun mem => alive.2 <| by
      rw [← blocks_addr, ← own]
      exact List.mem_map_of_mem mem
    simp only [released, apart, Bool.false_and, Bool.false_eq_true, false_and, false_or, iff_false, not_and]
    rintro other - index
    rw [own] at index
    exact other (by rw [index, ← own])
  · have kept : allocated (.release p :: g.log) b.addr = allocated g.log b.addr := if_neg (Ne.symm own)
    have apart : b ≠ ⟨p, (g.proc p).index⟩ := fun same => own (congrArg Block.addr same)
    rw [kept]
    simp only [apart, ne_eq, not_false_eq_true, true_and]

end Client

/-! ## Steps -/

/-- Nothing that the blocks depend on has changed. -/
def Unmoved (g g' : Globals) : Prop :=
  g'.mem = g.mem ∧ allocated g'.log = allocated g.log ∧ ∀ q, (g'.proc q).index = (g.proc q).index

/-- The activation is one of `append`. -/
def Act.appends : Act → Bool
  | .append _ _ => true
  | _ => false

/-- The outcome moves no block and is no call of `append`. -/
def Result.Unmoved (act : Act) (g : Globals) : Result → Prop
  | .next act' g' => act'.block = act.block ∧ act'.appends = false ∧ Microcsp.Unmoved g g'
  | .call act' callee g' => act'.block = act.block ∧ callee.block = none ∧ callee.appends = false ∧
      Microcsp.Unmoved g g'
  | .ret _ g' => act.block = none ∧ Microcsp.Unmoved g g'
  | _ => True

/-- The activation is about to move a block, or to call `append`. -/
def Act.moves : Act → Bool
  | .main .idleAlloc | .main (.idleFill _ _) => true
  | .start _ (.alloc _) | .start _ (.fill _ _) => true
  | .schedule _ _ .finish => true
  | .ready _ .test => true
  | _ => false

section Steps

variable {arena memlen : Nat} {act : Act} {rest : List Act} {g : Globals}

theorem execEnableAlt_unmoved (p : Addr) (pc : EnablePc) :
    (execEnableAlt p pc g).Unmoved (.enableAlt p pc) g := by
  cases pc <;> simp only [execEnableAlt] <;> (repeat' split) <;>
    first
      | trivial
      | exact ⟨rfl, rfl, rfl, rfl, fun _ => rfl⟩
      | exact ⟨rfl, rfl, rfl, fun _ => Globals.setAlt_index ..⟩

theorem execDisableAlt_unmoved (p : Addr) (pc : DisablePc) :
    (execDisableAlt p pc g).Unmoved (.disableAlt p pc) g := by
  cases pc with
  | enter => exact ⟨rfl, rfl, rfl, rfl, fun _ => rfl⟩
  | clear c partner => exact ⟨rfl, rfl, rfl, fun _ => rfl⟩
  | copy c dest len partner =>
    simp only [execDisableAlt]
    split
    · trivial
    · exact ⟨rfl, rfl, rfl, rfl, fun _ => rfl⟩
  | loop i left partner =>
    cases left with
    | zero =>
      simp only [execDisableAlt]
      split
      · exact ⟨rfl, rfl, rfl, rfl, fun _ => rfl⟩
      · exact ⟨rfl, rfl, rfl, fun _ => rfl⟩
      · exact ⟨rfl, rfl, rfl, fun _ => rfl⟩
    | succ left =>
      simp only [execDisableAlt]
      split
      · trivial
      · split
        · split <;> exact ⟨rfl, rfl, rfl, rfl, fun _ => Globals.setAlt_index ..⟩
        · exact ⟨rfl, rfl, rfl, rfl, fun _ => rfl⟩

theorem execSchedule_unmoved (base : Int) (p : Addr) {pc : SchedulePc} (going : pc ≠ .finish) :
    (execSchedule base p pc g).Unmoved (.schedule base p pc) g := by
  cases pc with
  | finish => exact absurd rfl going
  | _ =>
    simp only [execSchedule, callDisableAlt]
    repeat' split
    all_goals
      first
        | trivial
        | exact ⟨rfl, rfl, rfl, rfl, fun _ => rfl⟩
        | exact ⟨rfl, rfl, rfl, rfl, rfl, fun _ => rfl⟩
        | exact ⟨rfl, rfl, rfl, rfl, fun _ => Globals.setState_index ..⟩
        | exact ⟨rfl, rfl, rfl, rfl, rfl, fun _ => Globals.setState_index ..⟩

/-- The others move none. -/
theorem exec_unmoved (still : act.moves = false) (sound : act.Sound) (other : queueing [act] = false) :
    (exec act g).Unmoved act g := by
  cases act with
  | main pc =>
    cases pc with
    | memoryInit arena memlen => exact sound.elim
    | schedInit => exact sound.elim
    | idleAlloc => cases still
    | idleFill index record => cases still
    | timerInit => exact ⟨rfl, rfl, rfl, rfl, fun _ => rfl⟩
    | user => trivial
    | running => trivial
  | select base pc =>
    cases pc <;> simp only [exec, execSelect] <;> (repeat' split) <;>
      first
        | trivial
        | exact ⟨rfl, rfl, rfl, fun _ => rfl⟩
        | exact ⟨rfl, rfl, rfl, rfl, fun _ => rfl⟩
        | exact ⟨rfl, rfl, rfl, rfl, rfl, fun _ => rfl⟩
  | schedule base p pc => exact execSchedule_unmoved base p (by rintro rfl; cases still)
  | take pri pc => cases other
  | append p pc => cases other
  | start args pc =>
    cases pc with
    | alloc index => cases still
    | fill index record => cases still
    | check =>
      simp only [exec, execStart]
      repeat' split
      all_goals first | trivial | exact ⟨rfl, rfl, rfl, rfl, fun _ => rfl⟩
    | appended => exact ⟨rfl, rfl, rfl, fun _ => rfl⟩
  | rtc p => trivial
  | enableAlt p pc => exact execEnableAlt_unmoved p pc
  | disableAlt p pc => exact execDisableAlt_unmoved p pc
  | ready q pc =>
    cases pc with
    | test => cases still
    | _ =>
      simp only [exec, execReady, callSchedule]
      repeat' split
      all_goals
        first
          | trivial
          | exact ⟨rfl, rfl, rfl, fun _ => rfl⟩
          | exact ⟨rfl, rfl, rfl, rfl, rfl, fun _ => rfl⟩
  | signal intr saved pc =>
    cases pc <;> simp only [exec, execSignal, callScheduleAtCurrent, callSchedule] <;>
      (repeat' split) <;>
      first
        | trivial
        | exact ⟨rfl, rfl, rfl, fun _ => rfl⟩
        | exact ⟨rfl, rfl, rfl, rfl, fun _ => rfl⟩
        | exact ⟨rfl, rfl, rfl, rfl, rfl, fun _ => rfl⟩
  | timeoutHandler pc =>
    cases pc <;> simp only [exec, execTimeoutHandler, readyOrFault] <;> (repeat' split) <;>
      first
        | trivial
        | exact ⟨rfl, rfl, rfl, fun _ => rfl⟩
        | exact ⟨rfl, rfl, rfl, rfl, fun _ => rfl⟩
        | exact ⟨rfl, rfl, rfl, rfl, rfl, fun _ => rfl⟩
  | userHandler intrsrc =>
    simp only [exec, execUserHandler]
    repeat' split
    all_goals
      first
        | trivial
        | exact ⟨rfl, rfl, rfl, fun _ => rfl⟩
        | exact ⟨rfl, rfl, rfl, rfl, fun _ => rfl⟩

/-- Nor does application code. -/
theorem execUser_unmoved (op : Op) : (execUser op act g).Unmoved act g := by
  unfold execUser
  split
  · split
    · cases op <;> simp only [userRtc] <;> (repeat' split) <;>
        first
          | trivial
          | exact ⟨rfl, rfl, rfl, fun _ => rfl⟩
          | exact ⟨rfl, rfl, rfl, rfl, fun _ => rfl⟩
          | exact ⟨rfl, rfl, rfl, rfl, rfl, fun _ => rfl⟩
          | exact ⟨rfl, rfl, rfl, rfl, fun _ => Globals.setState_index ..⟩
          | exact ⟨rfl, rfl, rfl, rfl, fun _ => Globals.setAlt_index ..⟩
    · trivial
  · cases op <;> simp only [userMain, callSchedule] <;> (repeat' split) <;>
      first
        | trivial
        | exact ⟨rfl, rfl, rfl, rfl, fun _ => rfl⟩
        | exact ⟨rfl, rfl, rfl, rfl, rfl, fun _ => rfl⟩
  · trivial

end Steps

/-! ## Room for records -/

/-- A class that `start` has found has room for a record. -/
def Act.Roomy : Act → Prop
  | .start _ (.alloc index) => procOffset ≤ procmemlen.getD index 0
  | _ => True

/-- `start` computes the size of a record and its local variables without wrap-around. -/
def sizesFit (label : Label) (s : State) : Bool :=
  match label, s.stack with
  | .run, .start args .check :: _ => decide (procOffset + args.localSize < 2 ^ 32)
  | _, _ => true

section Roomy

variable {act : Act} {rest : List Act} {g : Globals}

theorem Act.Roomy.of_callee (other : act.callee ≠ .start) : act.Roomy := by
  cases act with
  | start args pc => exact absurd rfl other
  | _ => trivial

theorem Act.Roomy.resume (roomy : act.Roomy) (v : Value) : (act.resume v).Roomy := by
  unfold Act.resume
  split
  · trivial
  · trivial
  · trivial
  · exact roomy

/-- Returns leave the callers as they are. -/
theorem roomy_returnTo (roomy : ∀ a ∈ rest, a.Roomy) (v : Value) : ∀ a ∈ returnTo v rest, a.Roomy := by
  cases rest with
  | nil => exact List.forall_mem_nil _
  | cons caller under =>
    obtain ⟨first, others⟩ := List.forall_mem_cons.mp roomy
    exact List.forall_mem_cons.mpr ⟨first.resume v, others⟩

theorem exec_roomy (sized : sizesFit .run ⟨act :: rest, g, none⟩ = true)
    (roomy : ∀ a ∈ act :: rest, a.Roomy) : (exec act g).All (fun stack _ => ∀ a ∈ stack, a.Roomy) rest := by
  have below : ∀ a ∈ rest, a.Roomy := fun a mem => roomy a (List.mem_cons_of_mem _ mem)
  by_cases own : act.callee = .start
  · cases act with
    | start args pc =>
      cases pc with
      | check =>
        simp only [exec, execStart]
        split
        · trivial
        · split
          · rename_i index found
            have fits := (findMemIndex_smallest found).fits
            rw [Nat.mod_eq_of_lt (of_decide_eq_true sized)] at fits
            exact List.forall_mem_cons.mpr ⟨(Nat.le_add_right _ _).trans fits, below⟩
          · trivial
          · trivial
      | alloc index =>
        simp only [exec, execStart]
        split
        · trivial
        · exact List.forall_mem_cons.mpr ⟨trivial, below⟩
      | fill index record =>
        exact List.forall_mem_cons.mpr ⟨trivial, List.forall_mem_cons.mpr ⟨trivial, below⟩⟩
      | appended => exact roomy_returnTo below _
    | _ => cases own
  · have follows := exec_follows act g
    cases outcome : exec act g with
    | next act' g' =>
      rw [outcome] at follows
      refine List.forall_mem_cons.mpr ⟨.of_callee fun start => ?_, below⟩
      rcases follows with same | ⟨-, ready⟩
      · exact own (same.symm.trans start)
      · cases start.symm.trans ready
    | call caller callee g' =>
      rw [outcome] at follows
      obtain ⟨same, admits, -⟩ := follows
      refine List.forall_mem_cons.mpr ⟨.of_callee fun start => ?_, List.forall_mem_cons.mpr
        ⟨.of_callee (same ▸ own), below⟩⟩
      rw [start] at admits
      have kinds : act.callee = .main ∨ ∃ p, act.callee = .rtc p := by
        rw [← same]
        cases caller <;> first | exact Or.inl rfl | exact Or.inr ⟨_, rfl⟩ | cases admits
      cases act with
      | main pc =>
        cases pc <;> simp only [exec, execMain] at outcome <;> (repeat' split at outcome) <;>
          cases outcome
        cases admits
      | rtc p => cases outcome
      | _ => rcases kinds with kind | ⟨p, kind⟩ <;> cases kind
    | ret v g' => exact roomy_returnTo below v
    | stop why => trivial
    | stuck => trivial

theorem execUser_roomy {op : Op} (roomy : ∀ a ∈ act :: rest, a.Roomy) :
    (execUser op act g).All (fun stack _ => ∀ a ∈ stack, a.Roomy) rest := by
  have below : ∀ a ∈ rest, a.Roomy := fun a mem => roomy a (List.mem_cons_of_mem _ mem)
  have goOn : ∀ {a : Act}, a.Roomy → ∀ x ∈ a :: rest, x.Roomy := fun first =>
    List.forall_mem_cons.mpr ⟨first, below⟩
  unfold execUser
  split
  · split
    · cases op <;> simp only [userRtc] <;> (repeat' split) <;>
        first
          | trivial
          | exact roomy_returnTo below _
          | exact goOn trivial
          | exact List.forall_mem_cons.mpr ⟨trivial, goOn trivial⟩
    · trivial
  · cases op <;> simp only [userMain, callSchedule] <;> (repeat' split) <;>
      first
        | trivial
        | exact goOn trivial
        | exact List.forall_mem_cons.mpr ⟨trivial, goOn trivial⟩
  · trivial

end Roomy

/-! ## The invariant -/

/-- The scheduler has used the allocator as it should, and is about to. -/
structure ClientInv (arena memlen : Nat) (stack : List Act) (g : Globals) : Prop where
  /-- The classes that were found have room for records. -/
  roomy : ∀ act ∈ stack, act.Roomy
  /-- The blocks are those of the records. -/
  client : Client arena memlen stack g

section Client

variable {arena memlen : Nat} {act : Act} {stack rest : List Act} {g : Globals}

theorem Act.block_resume (act : Act) (v : Value) : (act.resume v).block = act.block := by
  unfold Act.resume
  split <;> rfl

theorem blocks_returnTo (v : Value) (rest : List Act) :
    (returnTo v rest).filterMap Act.block = rest.filterMap Act.block := by
  cases rest with
  | nil => rfl
  | cons caller under =>
    change (caller.resume v :: under).filterMap Act.block = _
    simp only [List.filterMap_cons, Act.block_resume]

/-- A queue operation other than `append` moves no block. -/
theorem Client.settled (client : Client arena memlen stack g)
    (still : ∀ act ∈ stack.head?, act.appends = false) :
    Settled (Client arena memlen) stack g := by
  unfold Settled
  split
  · rename_i pri pc under
    have same := takeFrom_store (g := g) pri pc
    simp only [Prod.mk.injEq] at same
    refine client.congr (blocks_returnTo _ under) same.1 ?_ fun q => congrArg (fun proc => (proc q).index) same.2.1
    rcases g.takeFrom_log pri pc with log | ⟨q, log⟩
    · rw [log]
    · rw [log]
      rfl
  · cases still _ rfl
  · exact client

/-- Where a step moves no block, the scheduler has the same blocks as before. -/
theorem Client.unmoved {r : Result} (client : Client arena memlen (act :: rest) g)
    (orderly : Orderly (act :: rest)) (unmoved : r.Unmoved act g) :
    r.All (Settled (Client arena memlen)) rest := by
  cases r with
  | next act' g' =>
    obtain ⟨block, still, mem, log, index⟩ := unmoved
    refine (client.congr ?_ mem log index).settled fun a top => Option.some.inj top ▸ still
    simp only [List.filterMap_cons, block]
  | call act' callee g' =>
    obtain ⟨block, none, still, mem, log, index⟩ := unmoved
    refine (client.congr ?_ mem log index).settled fun a top => Option.some.inj top ▸ still
    simp only [List.filterMap_cons, block, none]
  | ret v g' =>
    obtain ⟨none, mem, log, index⟩ := unmoved
    rw [Result.all_ret, settled_of_not_queueing (orderly.caller v)]
    refine client.congr ?_ mem log index
    rw [blocks_returnTo, List.filterMap_cons_none none]
  | stop why => trivial
  | stuck => trivial

/-- The last process of a queue has its record. -/
theorem Implements.tail_live {s : Sched Addr} (impl : Implements s stack g) (rising : s.Rising) {i : Nat}
    {q : Addr} (tail : (g.readyQ i).tail = some q) : initialised stack g q = true := by
  refine impl.live_iff.mp (rising.live i q ?_)
  obtain ⟨queue, free, rep, rfl⟩ := impl
  exact List.mem_of_getLast? ((rep.fifo i).last.symm.trans tail)

/-- A record is filled, and appended to its queue. -/
theorem Client.create {act' : Act} {index : Nat} {record : Addr} {g' : Globals}
    (client : Client arena memlen (act :: rest) g) (ranks : Ranks (act :: rest) g) (proc : Process)
    (block : act.block = some ⟨record, index⟩) (none : act'.block = Option.none) (filled : proc.index = index)
    (log : allocated g'.log = allocated g.log) (same : (g'.mem, g'.proc, g'.readyQ) =
      (((g.setProc record proc).setLink record Option.none).mem, (g.setProc record proc).proc, g.readyQ)) :
    Settled (Client arena memlen) (.append record .link :: act' :: rest) g' := by
  obtain ⟨s, impl, rising⟩ := ranks.rising
  simp only [Prod.mk.injEq] at same
  obtain ⟨mem, procs, queues⟩ := same
  obtain ⟨made, used, kept⟩ := client.fill impl block none
    (rfl : (g.setProc record proc).mem = g.mem) rfl
    (by simp [filled]) fun q other => g.setProc_of_ne proc other
  have stored : Client arena memlen (act' :: rest) g' :=
    (made.store used Option.none).congr rfl mem log
      fun q => congrArg (fun p => (p q).index) procs
  have moved : ∀ b, InUse (act' :: rest) (g.setProc record proc) b → InUse (act' :: rest) g' b := fun b =>
    (inUse_congr (g := g.setProc record proc) rfl log
      fun q => congrArg (fun p => (p q).index) procs).mpr
  change Client arena memlen (act' :: rest) (g'.appendLink record)
  rw [Globals.appendLink_eq]
  refine stored.enqueue (moved _ used) fun q tail => ?_
  rw [queues] at tail
  exact ⟨((g.setProc record proc).proc q).index, moved _ (Or.inr ⟨kept q (impl.tail_live rising tail), rfl⟩)⟩

/-- `start` and `initialize` allocate a record. -/
theorem Client.reserve {act' : Act} {index : Nat} {record : Addr} {mem : Memory}
    (client : Client arena memlen (act :: rest) g) (ranks : Ranks (act :: rest) g) (known : index < nalloc)
    (roomy : procOffset ≤ procmemlen.getD index 0)
    (made : g.mem.allocateMem index = some (record, mem)) (none : act.block = Option.none)
    (block : act'.block = some ⟨record, index⟩) :
    Client arena memlen (act' :: rest) ({ g.disable with mem := mem }.enable.emit (.alloc record)) := by
  obtain ⟨s, ⟨queue, free, rep, -⟩, -⟩ := ranks.rising
  exact client.alloc (rep.allocate known made).1 known roomy made none block rfl rfl fun _ => rfl

/-- Every step of the running code keeps the blocks. -/
theorem Client.step (client : Client arena memlen (act :: rest) g) (ranks : Ranks (act :: rest) g)
    (roomy : act.Roomy) (other : queueing (act :: rest) = false)
    (references : ReferencesInv (act :: rest) g) :
    (exec act g).All (Settled (Client arena memlen)) rest := by
  by_cases still : act.moves = false
  · exact client.unmoved ranks.orderly
      (exec_unmoved still (ranks.orderly.sound act List.mem_cons_self) (by cases act <;> exact other))
  cases act with
  | main pc =>
    cases pc with
    | idleAlloc =>
      simp only [exec, execMain]
      split
      · rename_i index found
        split
        · trivial
        · rename_i record mem made
          exact client.reserve ranks (findMemIndex_bound found) (findMemIndex_smallest found).fits made rfl
            rfl
      · trivial
      · trivial
    | idleFill index record =>
      let alt := { (g.proc record).alt with nrGuards := 0 }
      exact client.create ranks ⟨.idle, alt, index, priMin, .initial⟩ rfl rfl rfl rfl rfl
    | _ => exact absurd rfl still
  | start args pc =>
    cases pc with
    | alloc index =>
      simp only [exec, execStart]
      split
      · trivial
      · rename_i record mem made
        have sound := ranks.orderly.sound _ List.mem_cons_self
        exact client.reserve ranks sound.1 roomy made rfl rfl
    | fill index record =>
      let alt := { (g.proc record).alt with guards := args.guards, nrGuards := 0 }
      exact client.create ranks ⟨.user, alt, index, args.pri.toNat, .initial⟩ rfl rfl rfl rfl rfl
    | _ => exact absurd rfl still
  | schedule base p pc =>
    cases pc with
    | finish =>
      simp only [exec, execSchedule]
      split
      · exact client.release (ranks.holds.held p List.mem_cons_self) rfl rfl fun _ => rfl
      · exact client.congr rfl rfl rfl fun _ => rfl
      · exact client.congr rfl rfl rfl fun _ => rfl
    | _ => exact absurd rfl still
  | ready q pc =>
    cases pc with
    | test =>
      have alive : initialised (.ready q .test :: rest) g q = true :=
        references q (Or.inr ⟨_, List.mem_cons_self, rfl⟩)
      obtain ⟨s, impl, rising⟩ := ranks.rising
      simp only [exec, execReady]
      split
      · rw [Result.all_ret, settled_of_not_queueing (ranks.orderly.caller _)]
        refine client.congr ?_ rfl rfl fun r => Globals.setState_index ..
        rw [blocks_returnTo]
        rfl
      · let readied := (((g.setState q .waiting).setState q .ready).enter .append)
        have index : ∀ r, (readied.proc r).index = (g.proc r).index := fun r => by simp [readied]
        have made : Client arena memlen (.ready q .appended :: rest) readied := client.congr rfl rfl rfl index
        have used : ∀ r, initialised (.ready q .test :: rest) g r = true →
            InUse (.ready q .appended :: rest) readied ⟨r, (readied.proc r).index⟩ := fun r alive =>
          Or.inr ⟨alive, rfl⟩
        change Client arena memlen (.ready q .appended :: rest) (readied.appendLink q)
        rw [Globals.appendLink_eq]
        exact made.enqueue (used q alive) fun r tail => ⟨_, used r (impl.tail_live rising tail)⟩
    | _ => exact absurd rfl still
  | _ => exact absurd rfl still

end Client

/-- The conditions: those under which records are used as long as they are allocated, and the sizes. -/
structure KeepsBlocks (label : Label) (s : State) : Prop extends KeepsRecords label s where
  /-- The sizes that `start` computes. -/
  sizes : sizesFit label s = true

section Run

variable {arena memlen : Nat} {stack : List Act} {g : Globals}

/-- Queue operations find no class. -/
theorem settled_roomy (roomy : ∀ act ∈ stack, act.Roomy) :
    Settled (fun stack _ => ∀ act ∈ stack, act.Roomy) stack g := by
  unfold Settled
  split
  · exact roomy_returnTo (fun a mem => roomy a (List.mem_cons_of_mem _ mem)) _
  · exact fun a mem => roomy a (List.mem_cons_of_mem _ mem)
  · exact roomy

/-- In runs under the conditions the scheduler goes on to use the allocator as it should. -/
theorem client_kept (arena memlen : Nat) : Kept KeepsBlocks (fun stack g =>
    ((Ranked stack g ∧ Settled PreemptionInv stack g) ∧ Settled RecordsInv stack g) ∧
      Settled (ClientInv arena memlen) stack g) := by
  refine Kept.and (records_kept.mono fun label s keeps => keeps.toKeepsRecords)
    (Kept.settled ?_ ?_ ?_ ?_ ?_)
  · exact fun label s known => ⟨undisturbed_of_guarded known.1.guarded, known.2.1.1.orderly.stacked⟩
  · rintro act rest g other ⟨keeps, ⟨ranked, -⟩, records⟩ inv
    rw [settled_of_not_queueing other] at records
    have client := inv.client.step (ranked.ranks other) (inv.roomy act List.mem_cons_self) other
      records.references
    exact (client.and (exec_roomy keeps.sizes inv.roomy)).imp fun stack g both =>
      ((settled_roomy both.2).and both.1).imp fun _ _ both => ⟨both.1, both.2⟩
  · rintro op act rest g ⟨keeps, ⟨ranked, -⟩, -⟩ inv
    have client := inv.client.unmoved ranked.orderly (execUser_unmoved op)
    exact (client.and (execUser_roomy inv.roomy)).imp fun stack g both =>
      ((settled_roomy both.2).and both.1).imp fun _ _ both => ⟨both.1, both.2⟩
  · exact fun intr stack g _ _ _ inv =>
      ⟨List.forall_mem_cons.mpr ⟨trivial, inv.roomy⟩, inv.client.congr rfl rfl rfl fun _ => rfl⟩
  · exact fun t stack g inv => ⟨inv.roomy, inv.client.congr rfl rfl rfl fun _ => rfl⟩

/-- After `memory_init` the scheduler has no block. -/
theorem Client.initial {pc : MainPc} {handlers : Nat → Option Handler} (pristine : Pristine g)
    (none : (Act.main pc).block = none) : Client arena memlen [.main pc] { g with
      mem := g.mem.memoryInit arena memlen, interruptHandler := handlers } := by
  refine ⟨g.mem, _, Run.refl _, rfl, fun b => ?_, fun b mem => absurd mem List.not_mem_nil⟩
  have nobody : allocated g.log b.addr = false := by
    rw [pristine.log]
    rfl
  simp [MemState.fresh, InUse, none, initialised, nobody]

/-- What the memory of a state is made of. -/
structure RecordsInOrder (arena memlen : Nat) (s : State) (m : MemState) (free : Nat → List Addr) :
    Prop where
  /-- The calls of the allocator were a sequence that it allows. -/
  obeyed : ∃ first, Run memStep Always (.fresh first arena memlen) m
  /-- The allocator is in this state. -/
  mem : m.mem = s.g.mem
  /-- Its live blocks are those of the records. -/
  used : ∀ b, b ∈ m.live ↔ InUse s.stack s.g b
  /-- A record fits in each. -/
  roomy : ∀ b ∈ m.live, procOffset ≤ procmemlen.getD b.index 0
  /-- These, the free blocks and the rest are the arena. -/
  integrity : Integrity arena memlen free m

theorem Client.inOrder {s : State} (client : Client arena memlen s.stack s.g) :
    ∃ m free, RecordsInOrder arena memlen s m free := by
  obtain ⟨first, m, run, mem, used, roomy⟩ := client
  obtain ⟨free, ok⟩ := allocOk_of_run run
  exact ⟨m, free, ⟨first, run⟩, mem, used, roomy, ok.integrity⟩

/-- The program is about to call `memory_init` or `sched_init` with this arena. -/
def Preparing (arena memlen : Nat) (stack : List Act) (g : Globals) : Prop :=
  stack = [.main (.memoryInit (some arena) memlen)] ∧ Pristine g ∨
    stack = [.main .schedInit] ∧
      ∃ before, Pristine before ∧ g = { before with mem := before.mem.memoryInit arena memlen }

/-- A property that is kept, and that `sched_init` establishes on this arena, holds from then on. -/
theorem Kept.from_arena {ok : Label → State → Prop} {P : List Act → Globals → Prop} (kept : Kept ok P)
    (base : ∀ g handlers, Pristine g → P [.main .idleAlloc] { g with
      mem := g.mem.memoryInit arena memlen, interruptHandler := handlers }) :
    Kept ok (fun stack g => Preparing arena memlen stack g ∨ P stack g) := {
  run := by
    rintro act rest g allowed ((⟨same, pristine⟩ | ⟨same, before, pristine, rfl⟩) | held)
    · obtain ⟨rfl, rfl⟩ := List.cons.inj same
      exact Or.inl (Or.inr ⟨rfl, g, pristine, rfl⟩)
    · obtain ⟨rfl, rfl⟩ := List.cons.inj same
      have empty : (fun i => if priMin ≤ i ∧ i ≤ priMax then ⟨none, none⟩ else before.readyQ i) =
          before.readyQ := by
        funext i
        split
        · exact (pristine.queues i).symm
        · rfl
      refine Or.inr ?_
      simp only [empty]
      exact base before _ pristine
    · exact (kept.run act rest g allowed held).imp fun _ _ => Or.inr
  user := by
    rintro op act rest g allowed ((⟨same, pristine⟩ | ⟨same, before, pristine, rfl⟩) | held)
    · obtain ⟨rfl, rfl⟩ := List.cons.inj same
      trivial
    · obtain ⟨rfl, rfl⟩ := List.cons.inj same
      trivial
    · exact (kept.user op act rest g allowed held).imp fun _ _ => Or.inr
  interrupt := by
    rintro intr stack g allowed known unblocked ((⟨same, pristine⟩ | ⟨same, before, pristine, rfl⟩) | held)
    · rw [pristine.blocked intr] at unblocked
      cases unblocked
    · have blocked := pristine.blocked intr
      simp only at unblocked
      rw [blocked] at unblocked
      cases unblocked
    · exact Or.inr (kept.interrupt intr stack g allowed known unblocked held)
  clock := by
    rintro t stack g allowed ((⟨same, pristine⟩ | ⟨same, before, pristine, rfl⟩) | held)
    · exact Or.inl (Or.inl ⟨same, { pristine with }⟩)
    · exact Or.inl (Or.inr ⟨same, { before with now := t }, { pristine with }, rfl⟩)
    · exact Or.inr (kept.clock t stack g allowed held) }

/-- In every run under the conditions, outside of queue operations, the records are the live blocks of an
allocator that was used as it asks, so that they lie in the arena and overlap neither each other nor a
free block, and each is large enough for a record. -/
theorem records_in_order {proc : Addr → Process} {link : Addr → Option Addr} {vars : Addr → Var → Buffer}
    {time : TimeoutId → Time} {last : State}
    (run : Run step KeepsBlocks (boot (some arena) memlen proc link vars time) last)
    (boundary : queueing last.stack = false)
    (ready : last.stack ≠ [.main (.memoryInit (some arena) memlen)]) :
    ∃ m free, RecordsInOrder arena memlen last m free := by
  have kept := (client_kept arena memlen).from_arena fun g handlers pristine =>
    ⟨⟨⟨ranked_start pristine, fun known => absurd known (by simp [level])⟩, records_start pristine⟩,
      fun act mem => by
        rw [List.mem_singleton.mp mem]
        trivial, Client.initial pristine rfl⟩
  have pristine : Pristine (boot (some arena) memlen proc link vars time).g := by
    constructor <;> simp [boot, allSignals]
  rcases kept.invariant (Or.inl (Or.inl ⟨rfl, pristine⟩)) run with
    (⟨same, -⟩ | ⟨same, before, clean, set⟩) | ⟨-, inv⟩
  · exact absurd same ready
  · refine Client.inOrder ?_
    rw [same, set]
    exact Client.initial clean rfl
  · rw [settled_of_not_queueing boundary] at inv
    exact inv.client.inOrder

/-- The records of the idle process and two others, one of which the other has made ready. -/
theorem records_in_order_of_three : ∃ (last : State) (m : MemState) (free : Nat → List Addr),
    RecordsInOrder 1000 1000 last m free ∧ (∀ p ∈ [1000, 1024, 1064], allocated last.g.log p = true) ∧
      .readied 1024 ∈ last.g.log := by
  let output : Guard := ⟨.chanout 0 (some ⟨1024, 0⟩), true⟩
  let input : Guard := ⟨.chanin 0 (some ⟨1064, 0⟩) 4, true⟩
  let labels := runs 11 ++ [.user (startWith output 1)] ++ runs 10 ++ [.user (startWith input 1)] ++
    runs 8 ++ [.user .ret] ++ runs 8 ++ [.user (.initAlt 1), .user .ret] ++ runs 23 ++
    [.user (.initAlt 1), .user .ret] ++ runs 26
  obtain ⟨last, run, checked⟩ := exists_run_of_executeUnder labels
    (fun s : State => !queueing s.stack && decide (2 ≤ s.stack.length) &&
      [1000, 1024, 1064].all (allocated s.g.log) && decide (.readied 1024 ∈ s.g.log))
    (by decide +kernel : (executeUnder step (fun label s => guarded label s && startsBelow label s &&
      armsOwn label s && releasesNone label s && sizesFit label s) labels (zeroBoot 1000)).any _ = true)
  simp only [Bool.and_eq_true, Bool.not_eq_true', decide_eq_true_eq, List.all_eq_true] at checked
  obtain ⟨⟨⟨boundary, deep⟩, known⟩, readied⟩ := checked
  have keeps : Run step KeepsBlocks (zeroBoot 1000) last := run.mono fun label s keeps => by
    simp only [Bool.and_eq_true] at keeps
    exact ⟨keepsRecords_of_releasesNone keeps.1.1.1.1 keeps.1.1.1.2 keeps.1.1.2 keeps.1.2, keeps.2⟩
  obtain ⟨m, free, inOrder⟩ := records_in_order keeps boundary fun same => by
    rw [same] at deep
    exact absurd deep (by decide)
  exact ⟨last, m, free, inOrder, known, readied⟩

end Run

end Microcsp
