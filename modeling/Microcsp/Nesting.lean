import Microcsp.Steps

/-!
# Nested schedulers

`schedule` runs only processes above its base, and the base is never below the process whose code
the call interrupts. Hence the priorities of the processes in progress rise from the outermost
activation of `schedule` to the innermost. That the base is right rests on the ready queues, which
hold at each level processes of that priority, whatever the interleaving of `take` and `append`,
and on `current`, which may name another process than the one executing but never one of lower
priority.
-/

open Library

namespace Microcsp

/-- The processes that activations of `schedule` execute, the innermost first. -/
def frames (stack : List Act) : List Addr :=
  stack.filterMap fun act => match act with
    | .schedule _ p _ => some p
    | _ => none

/-- The processes in progress, the innermost activation first. -/
theorem frames_cons (act : Act) (rest : List Act) :
    frames (act :: rest) = frames [act] ++ frames rest := by
  simp only [frames, ← List.filterMap_append, List.singleton_append]

/-- The processes whose rtc function, `enable_alt` or `disable_alt` has been entered and not
left. -/
def executions (stack : List Act) : List Addr :=
  stack.filterMap fun act => match act with
    | .rtc p | .enableAlt p _ | .disableAlt p _ => some p
    | _ => none

/-- The processes that an activation has pointers to. -/
def Act.pointers : Act → List Addr
  | .select _ (.took (some p)) => [p]
  | .schedule _ p (.enabled _ partner) => p :: partner.toList
  | .schedule _ p (.branch _ partner) => p :: partner.toList
  | .schedule _ p (.disabled partner) => p :: partner.toList
  | .schedule _ p (.partner partner _) => p :: partner.toList
  | .schedule _ p _ => [p]
  | .take _ (.next p) | .take _ (.test p) | .take _ (.tail p) | .take _ (.mask p) => [p]
  | .append p _ => [p]
  | .rtc p => [p]
  | .enableAlt p (.loop _ _ partner) => p :: partner.toList
  | .enableAlt p (.insert _ _ _ partner) => p :: partner.toList
  | .enableAlt p (.done _ _ _ partner) => p :: partner.toList
  | .enableAlt p _ => [p]
  | .disableAlt p (.loop _ _ partner) => p :: partner.toList
  | .disableAlt p (.copy _ _ _ partner) => p :: partner.toList
  | .disableAlt p (.clear _ partner) => p :: partner.toList
  | .disableAlt p _ => [p]
  | .ready q (.scheduling prev) => [q, prev]
  | .ready q _ => [q]
  | _ => []

/-- The priority of the process that the innermost activation of `schedule` executes, and less
than every priority when there is none. -/
def level (pri : Addr → Nat) : List Act → Int
  | [] => -1
  | .main _ :: _ => -1
  | .schedule _ p _ :: _ => pri p
  | _ :: rest => level pri rest

/-- An activation of `schedule` has a base at or above what it interrupts, `take` removes from a
level above the base of its caller, and a process that is to be restored is not too low. -/
def Act.Based (pri : Addr → Nat) (rest : List Act) : Act → Prop
  | .schedule base p _ => level pri rest ≤ base ∧ base < pri p
  | .select base (.took r) => level pri rest ≤ base ∧ ∀ p ∈ r, base < pri p
  | .select base _ => level pri rest ≤ base
  | .take lvl pc => (∀ p ∈ (Act.take lvl pc).pointers, pri p = lvl) ∧
      ∀ base pc under, rest = .select base pc :: under → base < lvl
  | .ready _ (.scheduling prev) => level pri rest ≤ pri prev
  | .start args (.alloc i) => i < nalloc ∧ args.pri ≤ priMax
  | .start args (.fill _ _) => args.pri ≤ priMax
  | .main (.memoryInit _ _) => False
  | _ => True

/-- Every activation has valid pointers and a sufficient base. -/
def Nested (valid : Addr → Prop) (pri : Addr → Nat) : List Act → Prop
  | [] => True
  | act :: rest => (∀ p ∈ act.pointers, valid p) ∧ act.Based pri rest ∧ Nested valid pri rest

/-- Every pointer to a process in the global variables is to a valid record, queued processes are
at their own level, and nothing was released. -/
structure StoreOk (valid : Addr → Prop) (g : Globals) : Prop where
  /-- The head of a queue has its priority. -/
  head : ∀ i p, (g.readyQ i).head = some p → valid p ∧ (g.proc p).pri = i
  /-- The tail of a queue has its priority. -/
  tail : ∀ i p, (g.readyQ i).tail = some p → valid p ∧ (g.proc p).pri = i
  /-- A link stays within one priority. -/
  link : ∀ p q, valid p → g.mem.link p = some q → valid q ∧ (g.proc q).pri = (g.proc p).pri
  /-- The current process. -/
  current : ∀ p, g.current = some p → valid p
  /-- The processes that wait in channels. -/
  chan : ∀ c p, (g.chan c).waiting = some p → valid p
  /-- The processes that wait in interrupt channels. -/
  ichan : ∀ x p, (g.ichan x).waiting = some p → valid p
  /-- The processes that expect timeouts. -/
  timeout : ∀ t p, (g.timer.timeout t).proc = some p → valid p
  /-- The free lists are empty. -/
  free : ∀ i, g.mem.procmemlist i = none
  /-- The rest of the arena is above all records. -/
  below : ∀ p, valid p → p < g.mem.tail
  /-- Priorities are within bounds. -/
  bound : ∀ p, valid p → (g.proc p).pri ≤ priMax
  /-- No process has terminated. -/
  live : ∀ p, valid p → (g.proc p).state ≠ .done

/-- The invariant, for a set of valid records. -/
structure NestingOk (valid : Addr → Prop) (stack : List Act) (g : Globals) : Prop where
  /-- The global variables. -/
  store : StoreOk valid g
  /-- The activations. -/
  nested : Nested valid g.pri stack
  /-- `current` is not below what is executing. -/
  current : ∀ p, g.current = some p → level g.pri stack ≤ g.pri p
  /-- No record is reserved twice. -/
  distinct : (stack.filterMap Act.reserves).Nodup
  /-- A reserved record is not valid yet. -/
  reserved : ∀ p ∈ stack.filterMap Act.reserves, ¬ valid p ∧ p < g.mem.tail

/-- The invariant. -/
def NestingInv (stack : List Act) (g : Globals) : Prop := ∃ valid, NestingOk valid stack g

/-! ## Returns -/

@[simp] theorem level_returnTo (pri : Addr → Nat) (v : Value) (rest : List Act) :
    level pri (returnTo v rest) = level pri rest := by
  cases rest with
  | nil => rfl
  | cons act rest =>
    simp only [returnTo, Act.resume]
    split <;> rfl

/-- The processes that a returned value points to. -/
def Value.pointers : Value → List Addr
  | .unit => []
  | .proc r => r.toList
  | .alt _ partner => partner.toList

/-- A value returned to anything but the caller of `take`. -/
theorem Nested.returnTo {valid : Addr → Prop} {pri : Addr → Nat} {rest : List Act} {v : Value}
    (nested : Nested valid pri rest) (pointers : ∀ p ∈ v.pointers, valid p)
    (other : ∀ base under, rest ≠ .select base .taking :: under) :
    Nested valid pri (returnTo v rest) := by
  cases rest with
  | nil => trivial
  | cons act rest =>
    obtain ⟨valids, based, below⟩ := nested
    simp only [Microcsp.returnTo, Act.resume]
    split
    · exact absurd rfl (other _ _)
    · rename_i base p found partner
      have partners : ∀ q ∈ partner.toList, valid q := pointers
      have self : valid p := valids p List.mem_cons_self
      exact ⟨List.forall_mem_cons.mpr ⟨self, partners⟩, based, below⟩
    · rename_i base p partner
      have partners : ∀ q ∈ partner.toList, valid q := pointers
      have self : valid p := valids p List.mem_cons_self
      exact ⟨List.forall_mem_cons.mpr ⟨self, partners⟩, based, below⟩
    · exact ⟨valids, based, below⟩

/-! ## New records -/

section Extend

variable {valid valid' : Addr → Prop} {pri pri' : Addr → Nat} {stack : List Act}

/-- The level depends on the priorities of valid records only. -/
theorem Nested.level_congr (nested : Nested valid pri stack)
    (same : ∀ p, valid p → pri' p = pri p) : level pri' stack = level pri stack := by
  induction stack with
  | nil => rfl
  | cons act rest ih =>
    obtain ⟨pointers, -, below⟩ := nested
    cases act with
    | main pc => rfl
    | schedule base p pc =>
      have known : valid p := pointers p (by simp only [Act.pointers]; split <;> simp_all)
      simp only [level, same p known]
    | _ => exact ih below

/-- So does everything else that is said of the activations. -/
theorem Nested.congr (nested : Nested valid pri stack) (same : ∀ p, valid p → pri' p = pri p)
    (wider : ∀ p, valid p → valid' p) : Nested valid' pri' stack := by
  induction stack with
  | nil => trivial
  | cons act rest ih =>
    obtain ⟨pointers, based, below⟩ := nested
    refine ⟨fun p mem => wider p (pointers p mem), ?_, ih below⟩
    have levels : level pri' rest = level pri rest := below.level_congr same
    cases act with
    | schedule base p pc =>
      have known : valid p := pointers p (by simp only [Act.pointers]; split <;> simp_all)
      simpa only [Act.Based, levels, same p known] using based
    | select base pc =>
      cases pc with
      | took r =>
        obtain ⟨atop, above⟩ := based
        refine ⟨by rw [levels]; exact atop, fun p mem => ?_⟩
        obtain rfl := Option.mem_def.mp mem
        rw [same p (pointers p List.mem_cons_self)]
        exact above p rfl
      | _ => exact (levels ▸ based : level pri' rest ≤ base)
    | take lvl pc =>
      exact ⟨fun p mem => (same p (pointers p mem)).trans (based.1 p mem), based.2⟩
    | ready q pc =>
      cases pc with
      | scheduling prev =>
        have known : valid prev := pointers prev (by simp [Act.pointers])
        simpa only [Act.Based, levels, same prev known] using based
      | _ => trivial
    | main pc => cases pc <;> exact based
    | start args pc => cases pc <;> exact based
    | _ => trivial

end Extend

/-! ## Stores -/

namespace StoreOk

variable {valid : Addr → Prop} {g : Globals} (store : StoreOk valid g)
include store

theorem setState (p : Addr) {state : PState} (live : state ≠ .done) :
    StoreOk valid (g.setState p state) where
  head i q := by simpa using store.head i q
  tail i q := by simpa using store.tail i q
  link q r := by simpa using store.link q r
  current := store.current
  chan := store.chan
  ichan := store.ichan
  timeout := store.timeout
  free := store.free
  below := store.below
  bound q := by simpa using store.bound q
  live q := by
    by_cases same : q = p
    · subst same
      simp [live]
    · rw [Globals.setState_of_ne g state same]
      exact store.live q

theorem setAlt (p : Addr) (alt : Alternation) : StoreOk valid (g.setAlt p alt) where
  head i q := by simpa using store.head i q
  tail i q := by simpa using store.tail i q
  link q r := by simpa using store.link q r
  current := store.current
  chan := store.chan
  ichan := store.ichan
  timeout := store.timeout
  free := store.free
  below := store.below
  bound q := by simpa using store.bound q
  live q := by simpa using store.live q

theorem setHead (i : Nat) {head : Option Addr}
    (ok : ∀ p, head = some p → valid p ∧ (g.proc p).pri = i) : StoreOk valid (g.setHead i head) where
  head j q := by
    by_cases same : j = i
    · subst same
      simpa using ok q
    · simpa [same] using store.head j q
  tail j q := by
    by_cases same : j = i
    · subst same
      simpa using store.tail j q
    · simpa [same] using store.tail j q
  link := store.link
  current := store.current
  chan := store.chan
  ichan := store.ichan
  timeout := store.timeout
  free := store.free
  below := store.below
  bound := store.bound
  live := store.live

theorem setTail (i : Nat) {tail : Option Addr}
    (ok : ∀ p, tail = some p → valid p ∧ (g.proc p).pri = i) : StoreOk valid (g.setTail i tail) where
  head j q := by
    by_cases same : j = i
    · subst same
      simpa using store.head j q
    · simpa [same] using store.head j q
  tail j q := by
    by_cases same : j = i
    · subst same
      simpa using ok q
    · simpa [same] using store.tail j q
  link := store.link
  current := store.current
  chan := store.chan
  ichan := store.ichan
  timeout := store.timeout
  free := store.free
  below := store.below
  bound := store.bound
  live := store.live

theorem setLink (p : Addr) {next : Option Addr}
    (ok : ∀ q, next = some q → valid q ∧ (g.proc q).pri = (g.proc p).pri) :
    StoreOk valid (g.setLink p next) where
  head := store.head
  tail := store.tail
  link q r known linked := by
    by_cases same : q = p
    · subst same
      exact ok r (by simpa [Memory.setLink] using linked)
    · exact store.link q r known (by simpa [Memory.setLink, same] using linked)
  current := store.current
  chan := store.chan
  ichan := store.ichan
  timeout := store.timeout
  free := store.free
  below := store.below
  bound := store.bound
  live := store.live

theorem setChan (c : ChanId) {chan : Channel} (ok : ∀ p, chan.waiting = some p → valid p) :
    StoreOk valid (g.setChan c chan) :=
  { store with
    chan := fun d q => by
      by_cases same : d = c
      · subst same
        simpa using ok q
      · simpa [same] using store.chan d q }

theorem setIchan (x : ChanId) {ichan : InterruptChannel}
    (ok : ∀ p, ichan.waiting = some p → valid p) : StoreOk valid (g.setIchan x ichan) :=
  { store with
    ichan := fun y q => by
      by_cases same : y = x
      · subst same
        simpa using ok q
      · simpa [same] using store.ichan y q }

theorem disable : StoreOk valid g.disable := { store with }

theorem enable : StoreOk valid g.enable := { store with }

theorem emit (e : Event) : StoreOk valid (g.emit e) := { store with }

theorem enter (f : Fn) : StoreOk valid (g.enter f) := { store with }

theorem enableChannelInput (c : ChanId) : StoreOk valid (g.enableChannelInput c).2 :=
  store.setChan c fun p waiting => (Channel.enableInput_waiting waiting).elim
    (store.chan c p) (store.current p)

theorem disableChannelInput (c : ChanId) : StoreOk valid (g.disableChannelInput c).2 :=
  store.setChan c fun p waiting => store.chan c p (Channel.disableInput_waiting waiting)

theorem enableChannelOutput (c : ChanId) (src : Option Ptr) :
    StoreOk valid (g.enableChannelOutput c src).2 :=
  store.setChan c fun p waiting => store.current p waiting

theorem enableInterruptChannel (x : ChanId) : StoreOk valid (g.enableInterruptChannel x).2 :=
  store.setIchan x fun p waiting => (InterruptChannel.enable_waiting waiting).elim
    (store.ichan x p) (store.current p)

theorem disableInterruptChannel (x : ChanId) : StoreOk valid (g.disableInterruptChannel x).2 :=
  store.setIchan x fun p waiting => by cases waiting

theorem setTimer {timer : TimerState} (same : timer.timeout = g.timer.timeout) :
    StoreOk valid { g with timer := timer } :=
  { store with timeout := by rw [same]; exact store.timeout }

theorem receiveInterrupt (x : ChanId) (dest : Option Ptr) :
    StoreOk valid (g.receiveInterrupt x dest) := by
  have cleared : StoreOk valid (g.setIchan x { g.ichan x with count := 0 }) :=
    store.setIchan x (store.ichan x)
  exact { cleared with }

/-- A new record, filled and not linked to any other. -/
theorem fill {record : Addr} (proc : Process) (unknown : ¬ valid record)
    (below : record < g.mem.tail) (bound : proc.pri ≤ priMax) (live : proc.state ≠ .done) :
    StoreOk (fun p => p = record ∨ valid p) ((g.setProc record proc).setLink record none) := by
  have other : ∀ p, valid p → (g.setProc record proc).proc p = g.proc p := fun p known =>
    Globals.setProc_of_ne g proc fun same => unknown (same ▸ known)
  constructor
  case head =>
    intro i p head
    obtain ⟨known, same⟩ := store.head i p head
    exact ⟨Or.inr known, by simpa [other p known] using same⟩
  case tail =>
    intro i p tail
    obtain ⟨known, same⟩ := store.tail i p tail
    exact ⟨Or.inr known, by simpa [other p known] using same⟩
  case link =>
    rintro p q (rfl | known) linked
    · simp [Memory.setLink] at linked
    · have ne : p ≠ record := fun same => unknown (same ▸ known)
      obtain ⟨next, same⟩ := store.link p q known (by simpa [Memory.setLink, ne] using linked)
      exact ⟨Or.inr next, by simpa [other p known, other q next] using same⟩
  case current => exact fun p now => Or.inr (store.current p now)
  case chan => exact fun c p waiting => Or.inr (store.chan c p waiting)
  case ichan => exact fun x p waiting => Or.inr (store.ichan x p waiting)
  case timeout => exact fun t p waiting => Or.inr (store.timeout t p waiting)
  case free => exact store.free
  case below =>
    rintro p (rfl | known)
    · exact below
    · exact store.below p known
  case bound =>
    rintro p (rfl | known)
    · simpa using bound
    · simpa [other p known] using store.bound p known
  case live =>
    rintro p (rfl | known)
    · simpa using live
    · simpa [other p known] using store.live p known

end StoreOk

/-! ## Steps -/

namespace NestingOk

variable {valid : Addr → Prop} {act act' callee : Act} {rest : List Act} {g g' : Globals}

/-- A step to another point of the same activation. -/
theorem next (inv : NestingOk valid (act :: rest) g) (store : StoreOk valid g')
    (pri : g'.pri = g.pri) (tail : g'.mem.tail = g.mem.tail)
    (reserves : act'.reserves = act.reserves) (pointers : ∀ p ∈ act'.pointers, valid p)
    (based : act'.Based g.pri rest)
    (current : ∀ p, g'.current = some p → level g.pri (act' :: rest) ≤ g.pri p) :
    NestingInv (act' :: rest) g' := by
  have filtered : (act' :: rest).filterMap Act.reserves = (act :: rest).filterMap Act.reserves := by
    simp only [List.filterMap_cons, reserves]
  refine ⟨valid, store, ?_, ?_, ?_, ?_⟩
  · rw [pri]
    exact ⟨pointers, based, inv.nested.2.2⟩
  · rw [pri]
    exact current
  · rw [filtered]
    exact inv.distinct
  · rw [filtered, tail]
    exact inv.reserved

/-- A call. -/
theorem call (inv : NestingOk valid (act :: rest) g) (store : StoreOk valid g')
    (pri : g'.pri = g.pri) (tail : g'.mem.tail = g.mem.tail)
    (reserves : act'.reserves = act.reserves) (none : callee.reserves = none)
    (pointers : ∀ p ∈ act'.pointers, valid p) (based : act'.Based g.pri rest)
    (passed : ∀ p ∈ callee.pointers, valid p) (atop : callee.Based g.pri (act' :: rest))
    (current : ∀ p, g'.current = some p → level g.pri (callee :: act' :: rest) ≤ g.pri p) :
    NestingInv (callee :: act' :: rest) g' := by
  have filtered : (callee :: act' :: rest).filterMap Act.reserves =
      (act :: rest).filterMap Act.reserves := by
    simp only [List.filterMap_cons, reserves, none]
  refine ⟨valid, store, ?_, ?_, ?_, ?_⟩
  · rw [pri]
    exact ⟨passed, atop, pointers, based, inv.nested.2.2⟩
  · rw [pri]
    exact current
  · rw [filtered]
    exact inv.distinct
  · rw [filtered, tail]
    exact inv.reserved

/-- A return. -/
theorem ret {v : Value} (inv : NestingOk valid (act :: rest) g) (store : StoreOk valid g')
    (pri : g'.pri = g.pri) (tail : g'.mem.tail = g.mem.tail) (none : act.reserves = none)
    (nested : Nested valid g.pri (returnTo v rest))
    (current : ∀ p, g'.current = some p → level g.pri rest ≤ g.pri p) :
    NestingInv (returnTo v rest) g' := by
  have filtered : rest.filterMap Act.reserves = (act :: rest).filterMap Act.reserves := by
    simp only [List.filterMap_cons, none]
  refine ⟨valid, store, ?_, ?_, ?_, ?_⟩
  · rw [pri]
    exact nested
  · rw [pri, level_returnTo]
    exact current
  · rw [reserves_returnTo, filtered]
    exact inv.distinct
  · rw [reserves_returnTo, filtered, tail]
    exact inv.reserved

/-- A return without a value. -/
theorem retUnit (inv : NestingOk valid (act :: rest) g) (store : StoreOk valid g')
    (pri : g'.pri = g.pri) (tail : g'.mem.tail = g.mem.tail) (none : act.reserves = none)
    (current : ∀ p, g'.current = some p → level g.pri rest ≤ g.pri p) :
    NestingInv (returnTo .unit rest) g' :=
  inv.ret store pri tail none (by rw [returnTo_unit]; exact inv.nested.2.2) current

/-- A reserved record is filled and appended to its queue. -/
theorem fill {record : Addr} {f : Globals} (inv : NestingOk valid (act :: rest) g)
    (reserved : act.reserves = some record) (none : act'.reserves = none)
    (noPointers : act'.pointers = []) (based : ∀ pri, act'.Based pri rest)
    (store : StoreOk (fun p => p = record ∨ valid p) f)
    (same : ∀ p, p ≠ record → f.pri p = g.pri p) (tail : f.mem.tail = g.mem.tail)
    (current : ∀ p, f.current = some p → level g.pri (act' :: rest) ≤ f.pri p) :
    NestingInv (.append record .link :: act' :: rest) f := by
  have whole : (act :: rest).filterMap Act.reserves = record :: rest.filterMap Act.reserves := by
    simp only [List.filterMap_cons, reserved]
  have left : (Act.append record .link :: act' :: rest).filterMap Act.reserves =
      rest.filterMap Act.reserves := by
    have callee : (Act.append record .link).reserves = Option.none := rfl
    simp only [List.filterMap_cons, none, callee]
  have distinct := inv.distinct
  have unfilled := inv.reserved
  rw [whole] at distinct unfilled
  obtain ⟨fresh, distinct⟩ := List.nodup_cons.mp distinct
  have invalid : ¬ valid record := (unfilled record List.mem_cons_self).1
  have agree : ∀ p, valid p → f.pri p = g.pri p := fun p known =>
    same p fun is => invalid (is ▸ known)
  have nested : Nested (fun p => p = record ∨ valid p) f.pri (act' :: rest) :=
    ⟨by simp [noPointers], based _, inv.nested.2.2.congr agree fun p known => Or.inr known⟩
  refine ⟨fun p => p = record ∨ valid p, store, ⟨by simp [Act.pointers], trivial, nested⟩, ?_, ?_, ?_⟩
  · intro p now
    have here : Nested valid g.pri (act' :: rest) :=
      ⟨by simp [noPointers], based _, inv.nested.2.2⟩
    have levels : level f.pri (act' :: rest) = level g.pri (act' :: rest) :=
      here.level_congr agree
    change level f.pri (act' :: rest) ≤ f.pri p
    rw [levels]
    exact current p now
  · rw [left]
    exact distinct
  · rw [left, tail]
    intro p mem
    obtain ⟨unknown, below⟩ := unfilled p (List.mem_cons_of_mem _ mem)
    refine ⟨?_, below⟩
    rintro (rfl | known)
    · exact fresh mem
    · exact unknown known

/-- A record is allocated. -/
theorem alloc {index : Nat} {record : Addr} {mem : Memory} {f : Globals}
    (inv : NestingOk valid (act :: rest) g)
    (allocated : g.mem.allocateMem index = some (record, mem)) (bound : index < nalloc)
    (none : act.reserves = none) (reserves : act'.reserves = some record)
    (noPointers : act'.pointers = []) (based : act'.Based g.pri rest)
    (store : StoreOk valid { g with mem := mem } → StoreOk valid f)
    (pri : f.pri = g.pri) (same : f.mem = mem)
    (current : ∀ p, f.current = some p → level g.pri (act' :: rest) ≤ g.pri p) :
    NestingInv (act' :: rest) f := by
  obtain ⟨rfl, tail, link, free⟩ := Memory.allocateMem_fresh allocated (inv.store.free index)
  have grown : g.mem.tail < mem.tail := by
    rw [tail]
    exact Nat.lt_add_of_pos_right (procmemlen_pos bound)
  have whole : (act' :: rest).filterMap Act.reserves =
      g.mem.tail :: (act :: rest).filterMap Act.reserves := by
    simp only [List.filterMap_cons, reserves, none]
  refine ⟨valid, store { inv.store with link := ?_, free := ?_, below := ?_ }, ?_, ?_, ?_, ?_⟩
  · rw [link]
    exact inv.store.link
  · rw [free]
    exact inv.store.free
  · intro p known
    exact (inv.store.below p known).trans grown
  · rw [pri]
    exact ⟨by simp [noPointers], based, inv.nested.2.2⟩
  · rw [pri]
    exact current
  · rw [whole]
    refine List.nodup_cons.mpr ⟨fun mem => ?_, inv.distinct⟩
    exact absurd (inv.reserved _ mem).2 (Nat.lt_irrefl _)
  · rw [whole, same]
    intro p mem
    rcases List.mem_cons.mp mem with rfl | old
    · exact ⟨fun known => absurd (inv.store.below _ known) (Nat.lt_irrefl _), grown⟩
    · exact ⟨(inv.reserved p old).1, (inv.reserved p old).2.trans grown⟩

end NestingOk

section Steps

variable {valid : Addr → Prop} {rest : List Act} {g : Globals}

theorem execTake_nesting {lvl : Nat} {pc : TakePc} (inv : NestingOk valid (.take lvl pc :: rest) g)
    (atop : Admitted .take rest) : (execTake lvl pc g).All NestingInv rest := by
  obtain ⟨pointers, ⟨atLevel, above⟩, below⟩ := inv.nested
  obtain ⟨base, under, rfl⟩ := atop.caller_of_take
  obtain ⟨-, based, outer⟩ := below
  -- the caller takes a process of the level it chose, which is above its base
  have taken : ∀ r : Option Addr, (∀ p, r = some p → valid p ∧ g.pri p = lvl) →
      Nested valid g.pri (.select base (.took r) :: under) := by
    intro r found
    have above : base < lvl := above _ _ _ rfl
    cases r with
    | none => exact ⟨List.forall_mem_nil _, ⟨based, by simp⟩, outer⟩
    | some p =>
      obtain ⟨known, same⟩ := found p rfl
      exact ⟨by simpa [Act.pointers] using known, ⟨based, by simp [same, above]⟩, outer⟩
  have self : ∀ p, (∀ q ∈ [p], valid q) → (∀ q ∈ [p], g.pri q = lvl) →
      Nested valid g.pri (.select base (.took (some p)) :: under) := fun p known same =>
    taken (some p) (by rintro _ ⟨⟩; exact ⟨known p List.mem_cons_self, same p List.mem_cons_self⟩)
  cases pc with
  | head =>
    simp only [execTake]
    split
    · exact inv.ret inv.store rfl rfl rfl (taken none (by simp)) inv.current
    · rename_i p head
      obtain ⟨known, same⟩ := inv.store.head lvl p head
      have single : ∀ q ∈ [p], valid q := List.forall_mem_singleton.mpr known
      have level : ∀ q ∈ [p], g.pri q = lvl := List.forall_mem_singleton.mpr same
      exact inv.next inv.store rfl rfl rfl single ⟨level, above⟩ inv.current
  | next p =>
    have known : valid p := pointers p List.mem_cons_self
    have same : g.pri p = lvl := atLevel p List.mem_cons_self
    refine inv.next (inv.store.setHead lvl fun q linked => ?_) rfl rfl rfl pointers
      ⟨atLevel, above⟩ inv.current
    obtain ⟨next, level⟩ := inv.store.link p q known linked
    exact ⟨next, level.trans same⟩
  | test p =>
    simp only [execTake]
    split
    · exact inv.next inv.store rfl rfl rfl pointers ⟨atLevel, above⟩ inv.current
    · exact inv.ret (inv.store.emit _) rfl rfl rfl (self p pointers atLevel) inv.current
  | tail p =>
    exact inv.next (inv.store.setTail lvl (by simp)) rfl rfl rfl pointers ⟨atLevel, above⟩
      inv.current
  | mask p => exact inv.ret { inv.store with } rfl rfl rfl (self p pointers atLevel) inv.current

theorem execAppend_nesting {p : Addr} {pc : AppendPc}
    (inv : NestingOk valid (.append p pc :: rest) g) : (execAppend p pc g).All NestingInv rest := by
  obtain ⟨pointers, -, below⟩ := inv.nested
  have known : valid p := pointers p List.mem_cons_self
  cases pc with
  | link =>
    simp only [execAppend]
    split
    · exact inv.next inv.store rfl rfl rfl pointers trivial inv.current
    · rename_i last tail
      obtain ⟨-, same⟩ := inv.store.tail _ last tail
      exact inv.next (inv.store.setLink last (by rintro _ ⟨⟩; exact ⟨known, same.symm⟩)) rfl rfl rfl
        pointers trivial inv.current
  | tail =>
    exact inv.next (inv.store.setTail _ (by rintro _ ⟨⟩; exact ⟨known, rfl⟩)) rfl rfl rfl
      pointers trivial inv.current
  | next =>
    exact inv.next (inv.store.setLink p (by simp)) rfl rfl rfl pointers trivial inv.current
  | test =>
    simp only [execAppend]
    split
    · exact inv.next inv.store rfl rfl rfl pointers trivial inv.current
    · exact inv.retUnit inv.store rfl rfl rfl inv.current
  | head =>
    exact inv.next (inv.store.setHead _ (by rintro _ ⟨⟩; exact ⟨known, rfl⟩)) rfl rfl rfl
      pointers trivial inv.current
  | mask => exact inv.retUnit { inv.store with } rfl rfl rfl inv.current

theorem execStart_nesting {args : StartArgs} {pc : StartPc}
    (inv : NestingOk valid (.start args pc :: rest) g) :
    (execStart args pc g).All NestingInv rest := by
  obtain ⟨-, based, -⟩ := inv.nested
  cases pc with
  | check =>
    simp only [execStart]
    split
    · trivial
    · rename_i valid
      split
      · rename_i index found
        exact inv.next inv.store rfl rfl rfl (List.forall_mem_nil _)
          ⟨findMemIndex_bound found, by omega⟩ inv.current
      · trivial
      · trivial
  | alloc index =>
    simp only [execStart]
    split
    · trivial
    · rename_i record mem allocated
      exact inv.alloc allocated based.1 rfl rfl rfl based.2 (fun store => { store with }) rfl rfl
        inv.current
  | fill index record =>
    obtain ⟨unknown, below⟩ := inv.reserved record List.mem_cons_self
    have bound : args.pri.toNat ≤ priMax := by
      have high : args.pri ≤ priMax := based
      omega
    let alt : Alternation := { (g.proc record).alt with guards := args.guards, nrGuards := 0 }
    let proc : Process := ⟨.user, alt, index, args.pri.toNat, .initial⟩
    have filled := inv.store.fill proc unknown below bound (by simp [proc])
    have others : ∀ p, p ≠ record → ((g.setProc record proc).proc p).pri = g.pri p :=
      fun p ne => congrArg Process.pri (Globals.setProc_of_ne g _ ne)
    refine inv.fill rfl rfl rfl (fun _ => trivial) { filled with } others rfl fun p now => ?_
    have known : p ≠ record := fun same => unknown (same ▸ inv.store.current p now)
    exact (inv.current p now).trans_eq (congrArg Nat.cast (others p known).symm)
  | appended => exact inv.retUnit inv.store rfl rfl rfl inv.current

theorem execMain_nesting {pc : MainPc} (inv : NestingOk valid (.main pc :: rest) g) :
    (execMain pc g).All NestingInv rest := by
  obtain ⟨-, based, -⟩ := inv.nested
  cases pc with
  | memoryInit arena memlen => exact based.elim
  | schedInit =>
    refine inv.next { inv.store with head := ?_, tail := ?_ } rfl rfl rfl (List.forall_mem_nil _)
      trivial inv.current
    · intro i p head
      dsimp only at head
      split at head
      · cases head
      · exact inv.store.head i p head
    · intro i p tail
      dsimp only at tail
      split at tail
      · cases tail
      · exact inv.store.tail i p tail
  | idleAlloc =>
    simp only [execMain]
    split
    · rename_i index found
      split
      · trivial
      · rename_i record mem allocated
        exact inv.alloc allocated (findMemIndex_bound found) rfl rfl rfl trivial
          (fun store => { store with }) rfl rfl inv.current
    · trivial
    · trivial
  | idleFill index record =>
    obtain ⟨unknown, below⟩ := inv.reserved record List.mem_cons_self
    let alt : Alternation := { (g.proc record).alt with nrGuards := 0 }
    let proc : Process := ⟨.idle, alt, index, priMin, .initial⟩
    have filled := inv.store.fill proc unknown below (Nat.zero_le _) (by simp [proc])
    refine inv.fill rfl rfl rfl (fun _ => trivial) { filled with current := ?_ }
      (fun p ne => congrArg Process.pri (Globals.setProc_of_ne g _ ne)) rfl ?_
    · rintro _ ⟨⟩
      exact Or.inl rfl
    · intro p now
      change (-1 : Int) ≤ _
      omega
  | timerInit =>
    exact inv.next { inv.store with } rfl rfl rfl (List.forall_mem_nil _) trivial inv.current
  | user => trivial
  | running => trivial

theorem execEnableAlt_nesting {p : Addr} {pc : EnablePc}
    (inv : NestingOk valid (.enableAlt p pc :: rest) g)
    (atop : Admitted (.enableAlt p) rest) : (execEnableAlt p pc g).All NestingInv rest := by
  obtain ⟨pointers, -, below⟩ := inv.nested
  obtain ⟨base, under, rfl⟩ := atop.caller_of_enableAlt
  cases pc with
  | enter =>
    simp only [execEnableAlt]
    repeat' split
    · trivial
    · exact inv.next inv.store rfl rfl rfl pointers trivial inv.current
    · trivial
    · exact inv.next inv.store rfl rfl rfl pointers trivial inv.current
  | loop i k partner =>
    have self : valid p := pointers p List.mem_cons_self
    have with' : ∀ r : Option Addr, (∀ w, r = some w → valid w) → ∀ q ∈ p :: r.toList, valid q := by
      intro r found
      simpa [self] using found
    simp only [execEnableAlt]
    split
    · split
      · split
        · rename_i c dest len kind
          have noted := inv.store.emit (.enabled p i)
          split
          · rename_i w found
            refine inv.next (noted.disable.enableChannelInput c) rfl rfl rfl (with' _ ?_) trivial
              inv.current
            rintro _ ⟨⟩
            exact inv.store.chan c w (Channel.enableInput_partner found)
          · exact inv.next (noted.disable.enableChannelInput c).enable rfl rfl rfl pointers trivial
              inv.current
        · rename_i c src kind
          have noted := ((inv.store.emit (.enabled p i)).emit (.offer c (g.read src))).disable
          exact inv.next (noted.enableChannelOutput c src).enable rfl rfl rfl
            (with' _ fun w found => inv.store.chan c w found) trivial inv.current
        · exact inv.next { inv.store with } rfl rfl rfl pointers trivial inv.current
        · split
          · exact inv.next { inv.store with } rfl rfl rfl pointers trivial inv.current
          · exact inv.next { inv.store with } rfl rfl rfl pointers trivial inv.current
        · rename_i x dest kind
          have noted := (inv.store.emit (.enabled p i)).disable.enableInterruptChannel x
          split
          · exact inv.next noted rfl rfl rfl pointers trivial inv.current
          · exact inv.next noted rfl rfl rfl pointers trivial inv.current
      · exact inv.next { inv.store with } rfl rfl rfl pointers trivial inv.current
    · split
      · trivial
      · exact inv.next { inv.store with } rfl rfl rfl pointers trivial inv.current
  | insert i k t partner =>
    simp only [execEnableAlt]
    split
    · trivial
    · exact inv.next { inv.store with timeout := by simpa using inv.store.timeout } rfl rfl rfl
        pointers trivial inv.current
  | done i k ready partner =>
    refine inv.ret (inv.store.setAlt ..) (by simp) rfl rfl (below.returnTo ?_ (by simp)) inv.current
    exact fun q mem => pointers q (List.mem_cons_of_mem _ mem)

theorem execDisableAlt_nesting {p : Addr} {pc : DisablePc}
    (inv : NestingOk valid (.disableAlt p pc :: rest) g)
    (atop : Admitted (.disableAlt p) rest) : (execDisableAlt p pc g).All NestingInv rest := by
  obtain ⟨pointers, -, below⟩ := inv.nested
  obtain ⟨base, under, rfl⟩ := atop.caller_of_disableAlt
  have self : valid p := pointers p (by cases pc <;> exact List.mem_cons_self)
  -- the pointers of a later point, and what is returned
  have with' : ∀ r : Option Addr, (∀ w, r = some w → valid w) → ∀ q ∈ p :: r.toList, valid q := by
    intro r found
    simpa [self] using found
  have back : ∀ r : Option Addr, (∀ q ∈ p :: r.toList, valid q) →
      Nested valid g.pri (returnTo (.proc r) (.schedule base p .disabling :: under)) := fun r found =>
    below.returnTo (fun q mem => found q (List.mem_cons_of_mem _ mem)) (by simp)
  cases pc with
  | enter => exact inv.next inv.store rfl rfl rfl (with' none (by simp)) trivial inv.current
  | loop i left partner =>
    cases left with
    | zero =>
      simp only [execDisableAlt]
      split
      · exact inv.next inv.store rfl rfl rfl pointers trivial inv.current
      · rename_i x dest kind
        exact inv.ret (inv.store.disable.receiveInterrupt x dest).enable rfl rfl rfl
          (back partner pointers) inv.current
      · exact inv.ret inv.store rfl rfl rfl (back partner pointers) inv.current
    | succ left =>
      have noted := inv.store.emit (.visit p i ((g.proc p).alt.guards i).kind
        (((g.proc p).alt.guards i).active && g.branchReady p i))
      simp only [execDisableAlt]
      split
      · trivial
      · split
        · split
          · rename_i c dest len kind
            refine inv.next ((noted.disable.disableChannelInput c).enable.setAlt ..)
              (Globals.pri_setAlt _ p _) rfl rfl (with' _ ?_) trivial inv.current
            intro w found
            rcases Option.or_eq_some_iff.mp found with here | ⟨-, before⟩
            · exact inv.store.chan c w (Channel.disableInput_partner here)
            · exact pointers w (by simp [Act.pointers, before])
          · exact inv.next (noted.setAlt ..) (Globals.pri_setAlt _ p _) rfl rfl pointers trivial inv.current
          · exact inv.next (noted.setAlt ..) (Globals.pri_setAlt _ p _) rfl rfl pointers trivial inv.current
          · rename_i t kind
            exact inv.next ((noted.disable.setTimer (by simp)).enable.setAlt ..)
              (Globals.pri_setAlt _ p _) rfl rfl pointers trivial inv.current
          · rename_i x dest kind
            exact inv.next ((noted.disable.disableInterruptChannel x).enable.setAlt ..)
              (Globals.pri_setAlt _ p _) rfl rfl pointers trivial inv.current
        · exact inv.next noted rfl rfl rfl pointers trivial inv.current
  | copy c dest len partner =>
    simp only [execDisableAlt]
    split
    · trivial
    · exact inv.next { inv.store with } rfl rfl rfl pointers trivial inv.current
  | clear c partner =>
    exact inv.ret (inv.store.setChan c (by simp)) rfl rfl rfl (back partner pointers) inv.current

theorem execSelect_nesting {base : Int} {pc : SelectPc}
    (inv : NestingOk valid (.select base pc :: rest) g) :
    (execSelect base pc g).All NestingInv rest := by
  obtain ⟨pointers, based, below⟩ := inv.nested
  cases pc with
  | top => exact inv.next (inv.store.enter _) rfl rfl rfl (List.forall_mem_nil _) based inv.current
  | chosen highest =>
    simp only [execSelect]
    split
    · exact inv.retUnit inv.store rfl rfl rfl inv.current
    · rename_i above
      refine inv.call (inv.store.enter _) rfl rfl rfl rfl (List.forall_mem_nil _) based
        (List.forall_mem_nil _) ⟨List.forall_mem_nil _, ?_⟩ inv.current
      rintro _ _ _ ⟨⟩
      exact lt_of_not_ge above
  | taking => trivial
  | took r =>
    cases r with
    | none => trivial
    | some p =>
      have known : valid p := pointers p List.mem_cons_self
      have above : base < g.pri p := based.2 p rfl
      refine inv.next { inv.store with current := ?_ } rfl rfl rfl
        (List.forall_mem_singleton.mpr known) ⟨based.1, above⟩ ?_
      · rintro _ ⟨⟩
        exact known
      · rintro _ ⟨⟩
        exact le_refl _

theorem execSchedule_nesting {base : Int} {p : Addr} {pc : SchedulePc}
    (inv : NestingOk valid (.schedule base p pc :: rest) g) :
    (execSchedule base p pc g).All NestingInv rest := by
  obtain ⟨pointers, based, below⟩ := inv.nested
  have known : valid p := pointers p (by simp only [Act.pointers]; split <;> simp_all)
  have self : ∀ q ∈ [p], valid q := List.forall_mem_singleton.mpr known
  have notBelow : ∀ q, g.current = some q → (g.pri p : Int) ≤ g.pri q := inv.current
  cases pc with
  | top => exact inv.next inv.store.enable rfl rfl rfl self based inv.current
  | dispatch state =>
    cases state with
    | initial =>
      exact inv.call (inv.store.emit _) rfl rfl rfl rfl self based self trivial inv.current
    | quiescent =>
      exact inv.call ((inv.store.setState p (by simp)).emit _) (by simp) rfl rfl rfl self based
        self trivial inv.current
    | ready =>
      exact inv.call (inv.store.emit _) rfl rfl rfl rfl self based self trivial inv.current
    | _ => exact inv.next inv.store rfl rfl rfl (by simpa [Act.pointers] using known) based inv.current
  | initial =>
    exact inv.next (inv.store.setState p (by simp)) (by simp) rfl rfl self based inv.current
  | enabling => trivial
  | enabled ready partner =>
    refine inv.next (inv.store.setState p ?_).enable (by simp) rfl rfl pointers based inv.current
    have live := inv.store.live p known
    unfold PState.afterEnabling
    split
    · split <;> simp
    · exact live
  | branch state partner =>
    simp only [execSchedule, callDisableAlt]
    split
    · exact inv.call (inv.store.emit _) rfl rfl rfl rfl self based self trivial inv.current
    · exact inv.next inv.store rfl rfl rfl pointers based inv.current
  | disabling => trivial
  | disabled partner =>
    exact inv.next (inv.store.setState p (by simp)) (by simp) rfl rfl pointers based inv.current
  | partner partner execute =>
    cases partner with
    | none => exact inv.next inv.store rfl rfl rfl self based inv.current
    | some q =>
      have found : valid q := pointers q (by simp [Act.pointers])
      exact inv.call { inv.store with } rfl rfl rfl rfl self based
        (List.forall_mem_singleton.mpr found) trivial inv.current
  | readying execute => exact inv.next inv.store.enable rfl rfl rfl self based inv.current
  | execute execute =>
    cases execute with
    | false => exact inv.next inv.store rfl rfl rfl self based inv.current
    | true => exact inv.call (inv.store.emit _) rfl rfl rfl rfl self based self trivial inv.current
  | executing => exact inv.next inv.store rfl rfl rfl self based inv.current
  | finish =>
    simp only [execSchedule]
    have lower : ∀ q, g.current = some q → level g.pri rest ≤ g.pri q := fun q now =>
      (based.1.trans based.2.le).trans (notBelow q now)
    split
    · rename_i done
      exact absurd done (inv.store.live p known)
    · exact inv.next inv.store.disable rfl rfl rfl (List.forall_mem_nil _) based.1 lower
    · exact inv.next inv.store.disable rfl rfl rfl self based inv.current

theorem execReady_nesting {q : Addr} {pc : ReadyPc} (inv : NestingOk valid (.ready q pc :: rest) g) :
    (execReady q pc g).All NestingInv rest := by
  obtain ⟨pointers, based, below⟩ := inv.nested
  cases pc with
  | test =>
    simp only [execReady]
    split
    · exact inv.retUnit (inv.store.setState q (by simp)) (by simp) rfl rfl inv.current
    · exact inv.call (((inv.store.setState q (by simp)).setState q (by simp)).enter _)
        (by simp) rfl rfl rfl pointers trivial pointers trivial inv.current
  | appended =>
    simp only [execReady]
    split
    · trivial
    · rename_i c current
      have notBelow : level g.pri rest ≤ g.pri c := inv.current c current
      have both : ∀ r ∈ [q, c], valid r :=
        List.forall_mem_cons.mpr ⟨pointers q List.mem_cons_self,
          List.forall_mem_singleton.mpr (inv.store.current c current)⟩
      split
      · exact inv.call (inv.store.enter _) rfl rfl rfl rfl both notBelow (List.forall_mem_nil _)
          notBelow inv.current
      · exact inv.retUnit inv.store rfl rfl rfl inv.current
  | scheduling prev =>
    have known : valid prev := pointers prev (by simp [Act.pointers])
    refine inv.retUnit { inv.store with current := ?_ } rfl rfl rfl ?_
    · rintro _ ⟨⟩
      exact known
    · rintro _ ⟨⟩
      exact based

theorem execSignal_nesting {intr : Nat} {saved : SigSet} {pc : SignalPc}
    (inv : NestingOk valid (.signal intr saved pc :: rest) g) :
    (execSignal intr saved pc g).All NestingInv rest := by
  have nil : ∀ q ∈ ([] : List Addr), valid q := List.forall_mem_nil _
  cases pc with
  | enter =>
    simp only [execSignal]
    split
    · exact inv.call { inv.store with } rfl rfl rfl rfl nil trivial nil trivial inv.current
    · exact inv.call { inv.store with } rfl rfl rfl rfl nil trivial nil trivial inv.current
    · exact inv.next { inv.store with } rfl rfl rfl nil trivial inv.current
  | handled previously =>
    simp only [execSignal, callScheduleAtCurrent, callSchedule]
    split
    · split
      · trivial
      · rename_i c current
        exact inv.call { inv.store with } rfl rfl rfl rfl nil trivial nil (inv.current c current)
          inv.current
    · exact inv.next { inv.store with } rfl rfl rfl nil trivial inv.current
  | scheduled previously => exact inv.next { inv.store with } rfl rfl rfl nil trivial inv.current
  | leave => exact inv.retUnit { inv.store with } rfl rfl rfl inv.current

theorem execTimeoutHandler_nesting {pc : TimeoutPc}
    (inv : NestingOk valid (.timeoutHandler pc :: rest) g) :
    (execTimeoutHandler pc g).All NestingInv rest := by
  have nil : ∀ q ∈ ([] : List Addr), valid q := List.forall_mem_nil _
  cases pc with
  | enter => exact inv.next inv.store rfl rfl rfl nil trivial inv.current
  | test now head =>
    simp only [execTimeoutHandler]
    repeat' split
    · exact inv.next inv.store rfl rfl rfl nil trivial inv.current
    · exact inv.retUnit (inv.store.setTimer (by simp)) rfl rfl rfl inv.current
    · exact inv.retUnit (inv.store.setTimer (by simp)) rfl rfl rfl inv.current
  | remove now t =>
    simp only [execTimeoutHandler, readyOrFault]
    repeat' split
    · trivial
    · trivial
    · rename_i q waiting
      have known : valid q := inv.store.timeout t q waiting
      exact inv.call { inv.store with } rfl rfl rfl rfl nil trivial
        (List.forall_mem_singleton.mpr known) trivial inv.current
  | resume now => exact inv.next inv.store rfl rfl rfl nil trivial inv.current

theorem execUserHandler_nesting {intrsrc : Nat}
    (inv : NestingOk valid (.userHandler intrsrc :: rest) g) :
    (execUserHandler intrsrc g).All NestingInv rest := by
  simp only [execUserHandler]
  split
  · exact inv.retUnit inv.store rfl rfl rfl inv.current
  · rename_i x connected
    have counted : StoreOk valid (g.setIchan x { g.ichan x with count := (g.ichan x).count + 1 }) :=
      inv.store.setIchan x (inv.store.ichan x)
    split
    · split
      · exact inv.retUnit counted rfl rfl rfl inv.current
      · rename_i q waiting
        have known : valid q := counted.ichan x q waiting
        exact inv.next { counted with } rfl rfl rfl (List.forall_mem_singleton.mpr known) trivial
          inv.current
    · trivial

/-- Calls by application code, except that of `terminate`. -/
theorem userRtc_nesting {p : Addr} {op : Op} (stays : op ≠ .terminate)
    (inv : NestingOk valid (.rtc p :: rest) g) : (userRtc p op g).All NestingInv rest := by
  obtain ⟨pointers, -, -⟩ := inv.nested
  cases op with
  | ret => exact inv.retUnit inv.store rfl rfl rfl inv.current
  | terminate => exact absurd rfl stays
  | start args =>
    exact inv.call inv.store rfl rfl rfl rfl pointers trivial (List.forall_mem_nil _) trivial
      inv.current
  | initAlt size =>
    simp only [userRtc]
    split
    · trivial
    · exact inv.next (inv.store.setAlt ..) (by simp) rfl rfl pointers trivial inv.current
  | initAltPri size =>
    simp only [userRtc]
    split
    · trivial
    · exact inv.next (inv.store.setAlt ..) (by simp) rfl rfl pointers trivial inv.current
  | initGuard i kind =>
    simp only [userRtc]
    split
    · trivial
    · exact inv.next (inv.store.setAlt ..) (by simp) rfl rfl pointers trivial inv.current
  | initTimeoutGuard i t time =>
    have stored := inv.store.setAlt p
      ((g.proc p).alt.setGuard i { (g.proc p).alt.guards i with kind := .timeout t })
    refine inv.next { stored with timeout := ?_ } (Globals.pri_setAlt g p _) rfl rfl pointers trivial
      inv.current
    intro u q waiting
    by_cases same : u = t
    · subst same
      exact inv.store.current q (by simpa using waiting)
    · exact inv.store.timeout u q (by simpa [same] using waiting)
  | setActive i active =>
    exact inv.next (inv.store.setAlt ..) (by simp) rfl rfl pointers trivial inv.current
  | assign v bytes => exact inv.next { inv.store with } rfl rfl rfl pointers trivial inv.current
  | connect x intrno =>
    simp only [userRtc]
    split
    · have connected : StoreOk valid (g.setIchan x ⟨none, 0⟩) := inv.store.setIchan x (by simp)
      exact inv.next { connected with } rfl rfl rfl pointers trivial inv.current
    · trivial
  | disconnect intrno =>
    simp only [userRtc]
    split
    · exact inv.next { inv.store with } rfl rfl rfl pointers trivial inv.current
    · trivial
  | error why => trivial

theorem userMain_nesting {op : Op} (inv : NestingOk valid (.main .user :: rest) g) :
    (userMain op g).All NestingInv rest := by
  have nil : ∀ q ∈ ([] : List Addr), valid q := List.forall_mem_nil _
  cases op with
  | ret =>
    exact inv.call (inv.store.enter _) rfl rfl rfl rfl nil trivial nil (le_refl (-1 : Int)) inv.current
  | start args => exact inv.call inv.store rfl rfl rfl rfl nil trivial nil trivial inv.current
  | connect x intrno =>
    simp only [userMain]
    split
    · have connected : StoreOk valid (g.setIchan x ⟨none, 0⟩) := inv.store.setIchan x (by simp)
      exact inv.next { connected with } rfl rfl rfl nil trivial inv.current
    · trivial
  | _ => trivial

end Steps

/-- No process calls `terminate`. -/
def noTermination : Label → State → Bool
  | .user .terminate, _ => false
  | _, _ => true

/-- Every step of a run in which no process terminates keeps the invariant. -/
theorem nestingInv_kept :
    Kept (fun label s => noTermination label s ∧ Stacked s.stack) NestingInv where
  run act rest g allowed inv := by
    obtain ⟨valid, inv⟩ := inv
    obtain ⟨atop, -⟩ : Stacked (act :: rest) := allowed.2
    cases act with
    | main pc => exact execMain_nesting inv
    | select base pc => exact execSelect_nesting inv
    | schedule base p pc => exact execSchedule_nesting inv
    | take pri pc => exact execTake_nesting inv atop
    | append p pc => exact execAppend_nesting inv
    | start args pc => exact execStart_nesting inv
    | rtc p => trivial
    | enableAlt p pc => exact execEnableAlt_nesting inv atop
    | disableAlt p pc => exact execDisableAlt_nesting inv atop
    | ready q pc => exact execReady_nesting inv
    | signal intr saved pc => exact execSignal_nesting inv
    | timeoutHandler pc => exact execTimeoutHandler_nesting inv
    | userHandler intrsrc => exact execUserHandler_nesting inv
  user op act rest g allowed inv := by
    obtain ⟨valid, inv⟩ := inv
    unfold execUser
    split
    · split
      · have stays : op ≠ .terminate := by
          rintro rfl
          simp [noTermination] at allowed
        exact userRtc_nesting stays inv
      · trivial
    · exact userMain_nesting inv
    · trivial
  interrupt intr stack g _ _ _ inv := by
    obtain ⟨valid, inv⟩ := inv
    exact ⟨valid, inv.store.disable, ⟨List.forall_mem_nil _, trivial, inv.nested⟩, inv.current,
      inv.distinct, inv.reserved⟩
  clock t stack g _ inv := by
    obtain ⟨valid, inv⟩ := inv
    exact ⟨valid, { inv.store with }, inv.nested, inv.current, inv.distinct, inv.reserved⟩

/-- After `memory_init` there are no records. -/
theorem nestingInv_initial (arena memlen : Nat) {g : Globals} (pristine : Pristine g) :
    NestingInv [.main .schedInit] { g with mem := g.mem.memoryInit arena memlen } := by
  have store : StoreOk (fun _ => False) { g with mem := g.mem.memoryInit arena memlen } := by
    constructor <;>
      simp [pristine.current, pristine.queues, pristine.chan, pristine.ichan, pristine.timeout,
        initChannel, Memory.memoryInit]
  refine ⟨fun _ => False, store, ⟨List.forall_mem_nil _, trivial, trivial⟩, ?_, List.nodup_nil,
    List.forall_mem_nil _⟩
  intro p now
  exact (store.current p now).elim

/-! ## The frames -/

section Frames

variable {valid : Addr → Prop} {pri : Addr → Nat} {stack : List Act}

/-- No process in progress is above the level. -/
theorem Nested.frame_le_level (nested : Nested valid pri stack) (stacked : Stacked stack) :
    ∀ p ∈ frames stack, (pri p : Int) ≤ level pri stack := by
  induction stack with
  | nil => simp [frames]
  | cons act rest ih =>
    obtain ⟨-, based, below⟩ := nested
    obtain ⟨atop, stacked⟩ := stacked
    have lower := ih below stacked
    cases act with
    | main pc =>
      obtain rfl := atop.eq_nil_of_main
      simp [frames]
    | schedule base q pc =>
      intro p mem
      rcases List.mem_cons.mp mem with rfl | outer
      · exact le_refl _
      · exact ((lower p outer).trans based.1).trans based.2.le
    | _ => exact lower

/-- The priorities rise from the outermost to the innermost. -/
theorem Nested.frames_increasing (nested : Nested valid pri stack) (stacked : Stacked stack) :
    ((frames stack).map pri).Pairwise (· > ·) := by
  induction stack with
  | nil => exact List.Pairwise.nil
  | cons act rest ih =>
    obtain ⟨-, based, below⟩ := nested
    have outer := ih below stacked.2
    cases act with
    | schedule base q pc =>
      refine List.Pairwise.cons (fun lower mem => ?_) outer
      obtain ⟨p, frame, rfl⟩ := List.mem_map.mp mem
      have low : (pri p : Int) ≤ level pri rest := below.frame_le_level stacked.2 p frame
      have high : (pri p : Int) < pri q := (low.trans based.1).trans_lt based.2
      exact Int.ofNat_lt.mp high
    | _ => exact outer

/-- Every process in progress is a valid record. -/
theorem Nested.frames_valid (nested : Nested valid pri stack) : ∀ p ∈ frames stack, valid p := by
  induction stack with
  | nil => simp [frames]
  | cons act rest ih =>
    obtain ⟨pointers, -, below⟩ := nested
    cases act with
    | schedule base q pc =>
      intro p mem
      rcases List.mem_cons.mp mem with rfl | outer
      · exact pointers p (by simp only [Act.pointers]; split <;> simp_all)
      · exact ih below p outer
    | _ => exact ih below

/-- Every execution in progress is that of a different activation of `schedule`. -/
theorem Stacked.executions_sublist (stacked : Stacked stack) :
    (executions stack).Sublist (frames stack) := by
  -- an execution stands directly over its activation of `schedule`
  suffices both : (executions stack).Sublist (frames stack) ∧
      (executions stack.tail).Sublist (frames stack.tail) from both.1
  induction stack with
  | nil => exact ⟨List.Sublist.refl _, List.Sublist.refl _⟩
  | cons act rest ih =>
    obtain ⟨atop, stacked⟩ := stacked
    obtain ⟨here, under⟩ := ih stacked
    refine ⟨?_, here⟩
    cases act with
    | schedule base p pc => exact here.cons p
    | rtc p =>
      obtain ⟨base, outer, rfl | rfl⟩ := atop.caller_of_rtc
      · exact under.cons_cons p
      · exact under.cons_cons p
    | enableAlt p pc =>
      obtain ⟨base, outer, rfl⟩ := atop.caller_of_enableAlt
      exact under.cons_cons p
    | disableAlt p pc =>
      obtain ⟨base, outer, rfl⟩ := atop.caller_of_disableAlt
      exact under.cons_cons p
    | _ => exact here

/-- A strictly decreasing list of numbers up to a bound is short. -/
theorem length_le_of_decreasing {levels : List Nat} {bound : Nat}
    (decreasing : levels.Pairwise (· > ·)) (below : ∀ n ∈ levels, n ≤ bound) :
    levels.length ≤ bound + 1 := by
  have distinct : levels.Nodup := decreasing.imp fun greater => Nat.ne_of_gt greater
  have within : levels ⊆ List.range (bound + 1) := fun n mem =>
    List.mem_range.mpr (Nat.lt_succ_of_le (below n mem))
  simpa using (List.subperm_of_subset distinct within).length_le

end Frames

/-- Run to completion: the processes in progress have increasing priorities, none has been entered
twice, and there are no more of them than priorities. -/
structure BoundedNesting (s : State) : Prop where
  /-- Innermost first, the priorities decrease. -/
  increasing : ((frames s.stack).map fun p => (s.g.proc p).pri).Pairwise (· > ·)
  /-- No execution of a process is entered during another one of the same process. -/
  completes : (executions s.stack).Nodup
  /-- There is at most one process in progress for each priority. -/
  bounded : (frames s.stack).length ≤ priMax + 1

/-- In every run in which no process terminates, processes run to completion and preempt each other
only in the order of their priorities. -/
theorem nesting_bounded {first last : State} (booted : Booted first)
    (run : Run step (fun label s => noTermination label s) first last) : BoundedNesting last := by
  have kept := (stacked_kept.mono fun _ _ _ => trivial).and nestingInv_kept
  rcases kept.from_boot (fun arena memlen g pristine => ⟨⟨by simp [Admitted, Act.callee], trivial⟩,
    nestingInv_initial arena memlen pristine⟩) booted run with early | ⟨stacked, valid, inv⟩
  · obtain ⟨arena, memlen, same, -⟩ := early
    constructor <;> simp [same, frames, executions]
  · have increasing := inv.nested.frames_increasing stacked
    refine ⟨increasing, ?_, ?_⟩
    · have distinct : (frames last.stack).Nodup :=
        List.Nodup.of_map _ (increasing.imp fun greater => Nat.ne_of_gt greater)
      exact distinct.sublist stacked.executions_sublist
    · have bounded : ∀ n ∈ (frames last.stack).map last.g.pri, n ≤ priMax := by
        intro n mem
        obtain ⟨p, frame, rfl⟩ := List.mem_map.mp mem
        exact inv.store.bound p (inv.nested.frames_valid p frame)
      simpa using length_le_of_decreasing increasing bounded

/-- A process of priority 1 is interrupted by the tick and one of priority 2 runs over it. -/
theorem nesting_bounded_in_two_frames :
    ∃ last, BoundedNesting last ∧ frames last.stack = [1064, 1024] := by
  obtain ⟨last, run, nested⟩ := exists_run_of_executeUnder (startThenTick.take 57)
    (fun s => frames s.stack == [1064, 1024])
    (by decide +kernel : (executeUnder step noTermination (startThenTick.take 57)
      (zeroBoot 1000)).any _ = true)
  exact ⟨last, nesting_bounded (zeroBoot_booted 1000) run, by simpa using nested⟩

end Microcsp
