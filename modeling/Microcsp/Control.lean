import Microcsp.Machine

/-!
# The machine: control

The control stack holds one activation for each call in progress, innermost first, and every
activation the point it has reached. A step runs the innermost activation to its next point, or
lets the user code on top of the stack make one call, or delivers an interrupt that is not
blocked, or lets the clock move. A stretch of code between DISABLE and ENABLE that calls neither
`append`, `take` nor `schedule` is one step; outside such stretches a step is a statement, so an
interrupt can come between any two of them.
-/

namespace Microcsp

/-- Why the program stopped. -/
inductive Stop where
  /-- `error` was called. -/
  | error (why : String)
  /-- The C code has no defined behaviour here. -/
  | fault (why : String)
  deriving DecidableEq, Repr

/-- Points of `take`. -/
inductive TakePc where
  /-- `proc = queue->head` -/
  | head
  /-- `queue->head = proc->next` -/
  | next (p : Addr)
  /-- `if (queue->head == NULL)` -/
  | test (p : Addr)
  /-- `queue->tail = NULL` -/
  | tail (p : Addr)
  /-- `priority_mask &= ~mask[pri]` -/
  | mask (p : Addr)
  deriving DecidableEq, Repr

/-- Points of `append`. -/
inductive AppendPc where
  /-- `if (queue->tail != NULL) queue->tail->next = proc` -/
  | link
  /-- `queue->tail = proc` -/
  | tail
  /-- `proc->next = NULL` -/
  | next
  /-- `if (queue->head == NULL)` -/
  | test
  /-- `queue->head = proc` -/
  | head
  /-- `priority_mask |= mask[proc->pri]` -/
  | mask
  deriving DecidableEq, Repr

/-- Points of `schedule` while its `proc` is NULL. -/
inductive SelectPc where
  /-- The call of `highest_ready`. -/
  | top
  /-- The comparison of its result with the base, and the call of `take`. -/
  | chosen (highest : Nat)
  /-- `take` is in progress. -/
  | taking
  /-- `take` has returned. -/
  | took (r : Option Addr)
  deriving DecidableEq, Repr

/-- Points of `schedule` while its `proc` is a process. -/
inductive SchedulePc where
  /-- `state = proc->state; ENABLE` -/
  | top
  /-- The tests of the local copy of the state. -/
  | dispatch (state : PState)
  /-- The initial execution is in progress. -/
  | initial
  /-- `enable_alt` is in progress. -/
  | enabling
  /-- `enable_alt` has returned; interrupts are disabled. -/
  | enabled (ready : Bool) (partner : Option Addr)
  /-- `if (state == PROC_READY)` after enabling. -/
  | branch (state : PState) (partner : Option Addr)
  /-- `disable_alt` is in progress. -/
  | disabling
  /-- `disable_alt` has returned. -/
  | disabled (partner : Option Addr)
  /-- `if (partner != NULL)` -/
  | partner (partner : Option Addr) (execute : Bool)
  /-- `readyProcessIfNecessary` is in progress. -/
  | readying (execute : Bool)
  /-- `if (execute)` -/
  | execute (execute : Bool)
  /-- The execution after an ALT is in progress. -/
  | executing
  /-- The last DISABLE and the tests after it. -/
  | finish
  deriving DecidableEq, Repr

/-- Points of `enable_alt`. -/
inductive EnablePc where
  /-- The check of the guards and the choice of the first one. -/
  | enter
  /-- The head of the loop with its two counters. -/
  | loop (i k : Nat) (partner : Option Addr)
  /-- A timeout that is not due is inserted; interrupts are disabled. -/
  | insert (i k : Nat) (t : TimeoutId) (partner : Option Addr)
  /-- The label `Ready`; interrupts are disabled. -/
  | done (i k : Nat) (ready : Bool) (partner : Option Addr)
  deriving DecidableEq, Repr

/-- Points of `disable_alt`. -/
inductive DisablePc where
  /-- The start. -/
  | enter
  /-- The head of the loop with the index and the number of guards left. -/
  | loop (i left : Nat) (partner : Option Addr)
  /-- The transfer of the data. -/
  | copy (c : ChanId) (dest : Option Ptr) (len : Nat) (partner : Option Addr)
  /-- `chan->waiting = NULL` -/
  | clear (c : ChanId) (partner : Option Addr)
  deriving DecidableEq, Repr

/-- Points of `readyProcessIfNecessary`. -/
inductive ReadyPc where
  /-- The tests of the state. -/
  | test
  /-- `append` has returned. -/
  | appended
  /-- `schedule` is in progress; the saved process is to be restored. -/
  | scheduling (prev : Addr)
  deriving DecidableEq, Repr

/-- Points of `handle_signal`. -/
inductive SignalPc where
  /-- The start. -/
  | enter
  /-- The interrupt handler has returned. -/
  | handled (previously : SigSet)
  /-- `schedule` has returned, or was not called. -/
  | scheduled (previously : SigSet)
  /-- The return to the interrupted code. -/
  | leave

/-- Points of `handle_timeout_interrupt`. -/
inductive TimeoutPc where
  /-- The start. -/
  | enter
  /-- The head of the loop. -/
  | test (now : Time) (head : Option TimeoutId)
  /-- A due entry is removed and its process made ready. -/
  | remove (now : Time) (head : TimeoutId)
  /-- `readyProcessIfNecessary` has returned. -/
  | resume (now : Time)
  deriving DecidableEq, Repr

/-- The arguments of `start`. -/
structure StartArgs where
  /-- The initial values of the local variables. -/
  locals : Var → Buffer
  /-- What stands in the guard array among them. -/
  guards : Nat → Guard
  /-- `local_size` -/
  localSize : Nat
  /-- `pri` -/
  pri : Int

/-- Points of `start`. -/
inductive StartPc where
  /-- The check of the priority and the choice of a memory class. -/
  | check
  /-- `allocate_mem` -/
  | alloc (index : Nat)
  /-- The initialisation of the record. -/
  | fill (index : Nat) (record : Addr)
  /-- `append` has returned. -/
  | appended
  deriving DecidableEq, Repr

/-- Points of `main`. -/
inductive MainPc where
  /-- `memory_init` -/
  | memoryInit (arena : Option Addr) (memlen : Nat)
  /-- `sched_init` up to `start_idle` -/
  | schedInit
  /-- `allocate_mem` in `start_idle` -/
  | idleAlloc
  /-- The rest of `start_idle` -/
  | idleFill (index : Nat) (record : Addr)
  /-- `timer_init` -/
  | timerInit
  /-- The code of the application between `initialize` and `run`. -/
  | user
  /-- `run` is in progress. -/
  | running
  deriving DecidableEq, Repr

/-- One activation of the control stack. -/
inductive Act where
  /-- `main` -/
  | main (pc : MainPc)
  /-- `schedule(base_pri)` while it selects a process. -/
  | select (base : Int) (pc : SelectPc)
  /-- `schedule(base_pri)` while it runs the process. -/
  | schedule (base : Int) (p : Addr) (pc : SchedulePc)
  /-- `take` -/
  | take (pri : Nat) (pc : TakePc)
  /-- `append` -/
  | append (p : Addr) (pc : AppendPc)
  /-- `start` -/
  | start (args : StartArgs) (pc : StartPc)
  /-- The rtc function of the process. -/
  | rtc (p : Addr)
  /-- `enable_alt` -/
  | enableAlt (p : Addr) (pc : EnablePc)
  /-- `disable_alt` -/
  | disableAlt (p : Addr) (pc : DisablePc)
  /-- `readyProcessIfNecessary` -/
  | ready (partner : Addr) (pc : ReadyPc)
  /-- `handle_signal`, with the mask of the interrupted code. -/
  | signal (intr : Nat) (saved : SigSet) (pc : SignalPc)
  /-- `handle_timeout_interrupt` -/
  | timeoutHandler (pc : TimeoutPc)
  /-- `user_interrupt_handler` -/
  | userHandler (intrsrc : Nat)

/-- What a call returns to its caller. -/
inductive Value where
  /-- Nothing. -/
  | unit
  /-- A process or NULL. -/
  | proc (r : Option Addr)
  /-- The ready indicator and the partner. -/
  | alt (ready : Bool) (partner : Option Addr)
  deriving DecidableEq, Repr

/-- The caller goes on with the returned value. -/
def Act.resume : Act → Value → Act
  | .select base .taking, .proc r => .select base (.took r)
  | .schedule base p .enabling, .alt found partner => .schedule base p (.enabled found partner)
  | .schedule base p .disabling, .proc partner => .schedule base p (.disabled partner)
  | act, _ => act

/-- What one step of the innermost activation comes to. -/
inductive Result where
  /-- It goes on at another point. -/
  | next (act : Act) (g : Globals)
  /-- It calls, and goes on at the first point when the call returns. -/
  | call (act callee : Act) (g : Globals)
  /-- It returns. -/
  | ret (v : Value) (g : Globals)
  /-- The program stops. -/
  | stop (why : Stop)
  /-- It cannot go on by itself. -/
  | stuck

/-- The calls that application code can make. -/
inductive Op where
  /-- Return from the rtc function; in `main`, call `run`. -/
  | ret
  /-- `terminate` -/
  | terminate
  /-- `start` -/
  | start (args : StartArgs)
  /-- `init_alt` -/
  | initAlt (size : Int)
  /-- `init_alt_pri` -/
  | initAltPri (size : Int)
  /-- Store type and operands of a guard. -/
  | initGuard (i : Nat) (kind : GuardKind)
  /-- `init_timeout_guard` -/
  | initTimeoutGuard (i : Nat) (timeout : TimeoutId) (time : Time)
  /-- `set_active` -/
  | setActive (i : Nat) (active : Bool)
  /-- Assign a local variable of the executing process. -/
  | assign (v : Var) (bytes : Buffer)
  /-- `connect_interrupt_to_channel` -/
  | connect (x : ChanId) (intrno : Int)
  /-- `disconnect_interrupt_from_channel` -/
  | disconnect (intrno : Int)
  /-- `error` -/
  | error (why : String)

namespace Op

/-- `init_chanin_guard` -/
def initChaninGuard (i : Nat) (c : ChanId) (dest : Option Ptr) (len : Nat) : Op :=
  .initGuard i (.chanin c dest len)

/-- `init_chanin_guard_for_interrupt` -/
def initChaninGuardForInterrupt (i : Nat) (x : ChanId) (dest : Option Ptr) : Op :=
  .initGuard i (.interrupt x dest)

/-- `init_chanout_guard` -/
def initChanoutGuard (i : Nat) (c : ChanId) (src : Option Ptr) : Op := .initGuard i (.chanout c src)

/-- `init_skip_guard` -/
def initSkipGuard (i : Nat) : Op := .initGuard i .skip

/-- `activate` -/
def activate (i : Nat) : Op := .setActive i true

/-- `deactivate` -/
def deactivate (i : Nat) : Op := .setActive i false

end Op

/-! ## The ready queues -/

/-- The statements of `take`. -/
def execTake (pri : Nat) (pc : TakePc) (g : Globals) : Result :=
  match pc with
  | .head =>
    match (g.readyQ pri).head with
    | none => .ret (.proc none) g
    | some p => .next (.take pri (.next p)) g
  | .next p => .next (.take pri (.test p)) (g.setHead pri (g.mem.link p))
  | .test p =>
    match (g.readyQ pri).head with
    | none => .next (.take pri (.tail p)) g
    | some _ => .ret (.proc (some p)) (g.emit (.took p))
  | .tail p => .next (.take pri (.mask p)) (g.setTail pri none)
  | .mask p =>
    .ret (.proc (some p))
      ({ g with priorityMask := g.priorityMask &&& ~~~levelMask pri }.emit (.took p))

/-- The statements of `append`. -/
def execAppend (p : Addr) (pc : AppendPc) (g : Globals) : Result :=
  let pri := (g.proc p).pri
  match pc with
  | .link =>
    match (g.readyQ pri).tail with
    | none => .next (.append p .tail) g
    | some last => .next (.append p .tail) (g.setLink last (some p))
  | .tail => .next (.append p .next) (g.setTail pri (some p))
  | .next => .next (.append p .test) (g.setLink p none)
  | .test =>
    match (g.readyQ pri).head with
    | none => .next (.append p .head) g
    | some _ => .ret .unit g
  | .head => .next (.append p .mask) (g.setHead pri (some p))
  | .mask => .ret .unit { g with priorityMask := g.priorityMask ||| levelMask pri }

/-! ## Starting processes -/

/-- Size of a process record, and the offset of the local variables, in the `-m32` build. -/
def procOffset : Nat := 20

/-- `start` -/
def execStart (args : StartArgs) (pc : StartPc) (g : Globals) : Result :=
  match pc with
  | .check =>
    if args.pri < 1 ∨ priMax < args.pri then .stop (.error "Invalid priority")
    else
      match findMemIndex ((procOffset + args.localSize) % 2 ^ 32) with
      | .found index => .next (.start args (.alloc index)) g
      | .tooLarge => .stop (.error "No memory block large enough")
      | .outside => .stop (.fault "procmemlen is read outside its bounds")
  | .alloc index =>
    match g.mem.allocateMem index with
    | none => .stop (.error "Out of memory")
    | some (record, mem) =>
      .next (.start args (.fill index record))
        ({ g.disable with mem := mem }.enable.emit (.alloc record))
  | .fill index record =>
    let alt := { (g.proc record).alt with guards := args.guards, nrGuards := 0 }
    let proc : Process := ⟨.user, alt, index, args.pri.toNat, .initial⟩
    let filled := { g.setProc record proc with vars := Function.update g.vars record args.locals }
    .call (.start args .appended) (.append record .link)
      ((filled.setLink record none).enter .append)
  | .appended => .ret .unit g

/-- `initialize` after `hardware_init`, then the application's `main`. -/
def execMain (pc : MainPc) (g : Globals) : Result :=
  match pc with
  | .memoryInit arena memlen =>
    match arena with
    | none => .stop (.error "memory_init Malloc")
    | some arena => .next (.main .schedInit) { g with mem := g.mem.memoryInit arena memlen }
  | .schedInit =>
    let handlers := fun i => if intrUser0 ≤ i ∧ i < nintrSources then some Handler.user
      else g.interruptHandler i
    let queues := fun i => if priMin ≤ i ∧ i ≤ priMax then ⟨none, none⟩ else g.readyQ i
    .next (.main .idleAlloc) { g with readyQ := queues, interruptHandler := handlers }
  | .idleAlloc =>
    match findMemIndex procOffset with
    | .found index =>
      match g.mem.allocateMem index with
      | none => .stop (.error "Out of memory")
      | some (record, mem) =>
        .next (.main (.idleFill index record))
          ({ g.disable with mem := mem }.enable.emit (.alloc record))
    | .tooLarge => .stop (.error "No memory block large enough")
    | .outside => .stop (.fault "procmemlen is read outside its bounds")
  | .idleFill index record =>
    let alt := { (g.proc record).alt with nrGuards := 0 }
    let filled := g.setProc record ⟨.idle, alt, index, priMin, .initial⟩
    .call (.main .timerInit) (.append record .link)
      ({ filled.setLink record none with current := some record }.enter .append)
  | .timerInit =>
    let handlers := Function.update (Function.update g.interruptHandler 0 (some Handler.elapsed))
      1 (some Handler.timeout)
    .next (.main .user) { g with interruptHandler := handlers }
  | .user => .stuck
  | .running => .stuck

/-! ## Alternation -/

/-- `enable_alt` -/
def execEnableAlt (p : Addr) (pc : EnablePc) (g : Globals) : Result :=
  let alt := (g.proc p).alt
  let n := alt.nrGuards
  match pc with
  | .enter =>
    if alt.outputAlone = false then
      .stop (.error "Chanout guard must be only active guard")
    else if alt.altPri then .next (.enableAlt p (.loop 0 0 none)) g
    else if n = 0 then .stop (.fault "division by zero")
    else .next (.enableAlt p (.loop (plus1Mod alt.index n) 0 none)) g
  | .loop i k partner =>
    if k < n then
      let g := g.emit (.enabled p i)
      let guard := alt.guards i
      let following := fun partner => Act.enableAlt p (.loop (plus1Mod i n) (k + 1) partner)
      if guard.active then
        match guard.kind with
        | .chanin c _ _ =>
          let found := g.disable.enableChannelInput c
          match found.1 with
          | some w => .next (.enableAlt p (.done i k true (some w))) found.2
          | none => .next (following partner) found.2.enable
        | .chanout c src =>
          let found := (g.emit (.offer c (g.read src))).disable.enableChannelOutput c src
          .next (following found.1) found.2.enable
        | .skip => .next (.enableAlt p (.done i k true partner)) g.disable
        | .timeout t =>
          if g.timer.due t g.now then .next (.enableAlt p (.done i k true partner)) g.disable
          else .next (.enableAlt p (.insert i k t partner)) g.disable
        | .interrupt x _ =>
          -- the source leaves interrupts disabled on this path until the next guard
          let found := g.disable.enableInterruptChannel x
          if found.1 then .next (.enableAlt p (.done i k true partner)) found.2
          else .next (following partner) found.2
      else .next (following partner) g
    else if n = 0 then .stop (.fault "division by zero")
    else .next (.enableAlt p (.done (minus1Mod i n) (k - 1) false partner)) g.disable
  | .insert i k t partner =>
    if t ∈ g.timer.queue then .stop (.fault "the Timeout object is queued already")
    else
      .next (.enableAlt p (.loop (plus1Mod i n) (k + 1) partner))
        { g with timer := g.timer.insertInQueue t g.now }.enable
  | .done i k ready partner =>
    .ret (.alt ready partner) (g.setAlt p { alt with index := toUint8 i, count := toUint8 k })

/-- `disable_alt` -/
def execDisableAlt (p : Addr) (pc : DisablePc) (g : Globals) : Result :=
  let alt := (g.proc p).alt
  let n := alt.nrGuards
  match pc with
  | .enter => .next (.disableAlt p (.loop alt.index (alt.count + 1) none)) g
  | .loop _ 0 partner =>
    match (alt.guards alt.index).kind with
    | .chanin c dest len => .next (.disableAlt p (.copy c dest len partner)) g
    | .interrupt x dest => .ret (.proc partner) (g.disable.receiveInterrupt x dest).enable
    | _ => .ret (.proc partner) g
  | .loop i (left + 1) partner =>
    if n = 0 then .stop (.fault "division by zero")
    else
      let guard := alt.guards i
      let g := g.emit (.visit p i guard.kind (guard.active && g.branchReady p i))
      let following := fun partner => Act.disableAlt p (.loop (minus1Mod i n) left partner)
      let select := fun (ready : Bool) (g : Globals) =>
        g.setAlt p { alt with index := if ready then toUint8 i else alt.index }
      if guard.active then
        match guard.kind with
        | .chanin c _ _ =>
          let found := g.disable.disableChannelInput c
          .next (following (found.1.or partner)) (select found.1.isSome found.2.enable)
        | .chanout _ _ => .next (following partner) (select true g)
        | .skip => .next (following partner) (select true g)
        | .timeout t =>
          let found := g.timer.disableTimeout t g.now
          .next (following partner) (select found.1 { g.disable with timer := found.2 }.enable)
        | .interrupt x _ =>
          let found := g.disable.disableInterruptChannel x
          .next (following partner) (select found.1 found.2.enable)
      else .next (following partner) g
  | .copy c dest len partner =>
    let src := (g.chan c).src
    match g.memcpy dest src len with
    | none => .stop (.fault "copy through a NULL pointer")
    | some vars =>
      .next (.disableAlt p (.clear c partner))
        ({ g with vars := vars }.emit (.copy p c len ((g.read src).take len)))
  | .clear c partner => .ret (.proc partner) (g.setChan c { g.chan c with waiting := none })

/-! ## The scheduler -/

/-- Call `schedule`. -/
def callSchedule (act : Act) (base : Int) (g : Globals) : Result :=
  .call act (.select base .top) (g.enter .schedule)

/-- Call `schedule` with the priority of the current process as base. -/
def callScheduleAtCurrent (act : Act) (g : Globals) : Result :=
  match g.current with
  | none => .stop (.fault "current is NULL")
  | some c => callSchedule act (g.proc c).pri g

/-- `schedule` with `proc == NULL` -/
def execSelect (base : Int) (pc : SelectPc) (g : Globals) : Result :=
  match pc with
  | .top => .next (.select base (.chosen (highestReady g.priorityMask))) (g.enter .highestReady)
  | .chosen highest =>
    if (highest : Int) ≤ base then .ret .unit g
    else .call (.select base .taking) (.take highest .head) (g.enter .take)
  | .taking => .stuck
  | .took none => .stop (.fault "proc is NULL")
  | .took (some p) => .next (.schedule base p .top) { g with current := some p }

/-- Call `readyProcessIfNecessary`. -/
def enterReady (g : Globals) (partner : Addr) : Globals :=
  (g.enter .readyProcessIfNecessary).emit (.readied partner)

/-- Call `disable_alt`. -/
def callDisableAlt (base : Int) (p : Addr) (g : Globals) : Result :=
  .call (.schedule base p .disabling) (.disableAlt p .enter) (g.emit (.disable p))

/-- `schedule` with a process -/
def execSchedule (base : Int) (p : Addr) (pc : SchedulePc) (g : Globals) : Result :=
  match pc with
  | .top => .next (.schedule base p (.dispatch (g.proc p).state)) g.enable
  | .dispatch state =>
    match state with
    | .initial => .call (.schedule base p .initial) (.rtc p) (g.emit (.rtc p none))
    | .quiescent =>
      .call (.schedule base p .enabling) (.enableAlt p .enter)
        ((g.setState p .enabling).emit (.enable p))
    | .ready => callDisableAlt base p g
    | _ => .next (.schedule base p (.partner none false)) g
  | .initial => .next (.schedule base p .finish) (g.setState p .quiescent)
  | .enabling => .stuck
  | .enabled ready partner =>
    let state := (g.proc p).state.afterEnabling ready
    .next (.schedule base p (.branch state partner)) (g.setState p state).enable
  | .branch state partner =>
    if state = .ready then callDisableAlt base p g
    else .next (.schedule base p (.partner partner false)) g
  | .disabling => .stuck
  | .disabled partner => .next (.schedule base p (.partner partner true)) (g.setState p .quiescent)
  | .partner none execute => .next (.schedule base p (.execute execute)) g
  | .partner (some q) execute =>
    .call (.schedule base p (.readying execute)) (.ready q .test) (enterReady g.disable q)
  | .readying execute => .next (.schedule base p (.execute execute)) g.enable
  | .execute false => .next (.schedule base p .finish) g
  | .execute true =>
    let alt := (g.proc p).alt
    .call (.schedule base p .executing) (.rtc p)
      (g.emit (.rtc p (some (alt.index, (alt.guards alt.index).kind))))
  | .executing => .next (.schedule base p .finish) g
  | .finish =>
    let g := g.disable
    match (g.proc p).state with
    | .done =>
      .next (.select base .top)
        ({ g with mem := g.mem.releaseMem (g.proc p).index p }.enable.emit (.release p))
    | .waiting => .next (.select base .top) g
    | _ => .next (.schedule base p .top) g

/-- `readyProcessIfNecessary`. The second test of the source is an assignment of `PROC_WAITING`,
which is not zero, so every process that is not enabling takes the branch. -/
def execReady (partner : Addr) (pc : ReadyPc) (g : Globals) : Result :=
  match pc with
  | .test =>
    if (g.proc partner).state = .enabling then .ret .unit (g.setState partner .ready)
    else
      .call (.ready partner .appended) (.append partner .link)
        (((g.setState partner .waiting).setState partner .ready).enter .append)
  | .appended =>
    match g.current with
    | none => .stop (.fault "current is NULL")
    | some c =>
      if (g.proc c).pri < (g.proc partner).pri then
        callSchedule (.ready partner (.scheduling c)) (g.proc c).pri g
      else .ret .unit g
  | .scheduling prev => .ret .unit { g with current := some prev }

/-! ## Interrupts -/

/-- `handle_signal` -/
def execSignal (intr : Nat) (saved : SigSet) (pc : SignalPc) (g : Globals) : Result :=
  match pc with
  | .enter =>
    let blocking := greaterThanOrEqualTo intr
    let previously := g.currentlyBlocked
    let g := { g with
      activeHandlers := g.activeHandlers + 1, currentlyBlocked := blocking
      blocked := fun i => g.blocked i || blocking i }
    match g.interruptHandler intr with
    | some .timeout => .call (.signal intr saved (.handled previously)) (.timeoutHandler .enter) g
    | some .user => .call (.signal intr saved (.handled previously)) (.userHandler intr) g
    | _ => .next (.signal intr saved (.handled previously)) g
  | .handled previously =>
    let g := { g.disable with activeHandlers := g.activeHandlers - 1 }
    if g.activeHandlers = 0 then
      callScheduleAtCurrent (.signal intr saved (.scheduled previously)) g
    else .next (.signal intr saved (.scheduled previously)) g
  | .scheduled previously =>
    .next (.signal intr saved .leave) { g with currentlyBlocked := previously, blocked := previously }
  | .leave => .ret .unit { g with blocked := saved }

/-- Go on in `readyProcessIfNecessary` for a process pointer, the call being the last thing the
caller does or the point to return to being given. -/
def readyOrFault (g : Globals) (partner : Option Addr) (enter : Addr → Globals → Result) : Result :=
  match partner with
  | none => .stop (.fault "proc is NULL")
  | some q => enter q (enterReady g q)

/-- `handle_timeout_interrupt` -/
def execTimeoutHandler (pc : TimeoutPc) (g : Globals) : Result :=
  match pc with
  | .enter => .next (.timeoutHandler (.test g.now g.timer.queue.head?)) g
  | .test now head =>
    match head with
    | some t =>
      if g.timer.due t now then .next (.timeoutHandler (.remove now t)) g
      else .ret .unit { g with timer := g.timer.restart now }
    | none => .ret .unit { g with timer := g.timer.restart now }
  | .remove now t =>
    if g.timer.queue = [] then .stop (.fault "timerQ.head is NULL")
    else
      readyOrFault { g with timer := g.timer.removeHead } (g.timer.timeout t).proc fun q g =>
        .call (.timeoutHandler (.resume now)) (.ready q .test) g
  | .resume now => .next (.timeoutHandler (.test now g.timer.queue.head?)) g

/-- `user_interrupt_handler` -/
def execUserHandler (intrsrc : Nat) (g : Globals) : Result :=
  match g.channelForInterrupt (intrsrc - intrUser0) with
  | none => .ret .unit g
  | some x =>
    let count := (g.ichan x).count + 1
    if count < 2 ^ 31 then
      let g := g.setIchan x { g.ichan x with count := count }
      match (g.ichan x).waiting with
      | none => .ret .unit g
      | some q => .next (.ready q .test) (enterReady g q)
    else .stop (.fault "the interrupt count overflows")

/-! ## Application code -/

/-- One call made by an rtc function. `init_alt` and the others act on `current`, the assignments
on the variables of the process that executes. -/
def userRtc (p : Addr) (op : Op) (g : Globals) : Result :=
  let goOn := Result.next (.rtc p)
  let onCurrent := fun (f : Addr → Globals) =>
    match g.current with
    | none => Result.stop (.fault "current is NULL")
    | some c => goOn (f c)
  let alt := (g.proc p).alt
  match op with
  | .ret => .ret .unit g
  | .terminate => onCurrent fun c => (g.setState c .done).emit (.terminate p)
  | .start args => .call (.rtc p) (.start args .check) g
  | .initAlt size => onCurrent fun c => g.setAlt c ((g.proc c).alt.initAlt size)
  | .initAltPri size => onCurrent fun c => g.setAlt c ((g.proc c).alt.initAltPri size)
  | .initGuard i kind =>
    if kind matches .timeout _ then .stuck
    else goOn (g.setAlt p (alt.setGuard i { alt.guards i with kind := kind }))
  | .initTimeoutGuard i t time =>
    let g' := g.setAlt p (alt.setGuard i { alt.guards i with kind := .timeout t })
    let timeout := Function.update g.timer.timeout t ⟨g.current, time⟩
    goOn { g' with timer := { g.timer with timeout := timeout } }
  | .setActive i active =>
    goOn (g.setAlt p (alt.setGuard i { alt.guards i with active := active }))
  | .assign v bytes => goOn (g.write ⟨p, v⟩ bytes)
  | .connect x intrno =>
    if isUserInterrupt intrno then goOn (g.connectInterruptToChannel x intrno)
    else .stop (.error "connect_interrupt_to_channel: Invalid user interrupt source number")
  | .disconnect intrno =>
    if isUserInterrupt intrno then goOn (g.disconnectInterruptFromChannel intrno)
    else .stop (.error "Invalid user interrupt source number")
  | .error why => .stop (.error why)

/-- One call made by `main` after `initialize`. -/
def userMain (op : Op) (g : Globals) : Result :=
  match op with
  | .ret => callSchedule (.main .running) ((priMin : Int) - 1) g
  | .start args => .call (.main .user) (.start args .check) g
  | .connect x intrno =>
    if isUserInterrupt intrno then .next (.main .user) (g.connectInterruptToChannel x intrno)
    else .stop (.error "connect_interrupt_to_channel: Invalid user interrupt source number")
  | .error why => .stop (.error why)
  | _ => .stuck

/-! ## Steps -/

/-- One step of an activation. -/
def exec (act : Act) (g : Globals) : Result :=
  match act with
  | .main pc => execMain pc g
  | .select base pc => execSelect base pc g
  | .schedule base p pc => execSchedule base p pc g
  | .take pri pc => execTake pri pc g
  | .append p pc => execAppend p pc g
  | .start args pc => execStart args pc g
  | .rtc _ => .stuck
  | .enableAlt p pc => execEnableAlt p pc g
  | .disableAlt p pc => execDisableAlt p pc g
  | .ready partner pc => execReady partner pc g
  | .signal intr saved pc => execSignal intr saved pc g
  | .timeoutHandler pc => execTimeoutHandler pc g
  | .userHandler intrsrc => execUserHandler intrsrc g

/-- One call made by application code. The idle process makes none. -/
def execUser (op : Op) (act : Act) (g : Globals) : Result :=
  match act with
  | .rtc p => if (g.proc p).rtc = .user then userRtc p op g else .stuck
  | .main .user => userMain op g
  | _ => .stuck

/-- A state of the machine. -/
structure State where
  /-- The calls in progress, innermost first. -/
  stack : List Act
  /-- The global variables. -/
  g : Globals
  /-- Set when the program has stopped. -/
  stopped : Option Stop

/-- Return a value to the caller. -/
def returnTo (v : Value) : List Act → List Act
  | [] => []
  | caller :: rest => caller.resume v :: rest

/-- The state after a step of the innermost activation, the others being `rest`. -/
def Result.apply (s : State) (rest : List Act) : Result → Option State
  | .next act g => some ⟨act :: rest, g, none⟩
  | .call act callee g => some ⟨callee :: act :: rest, g, none⟩
  | .ret v g => some ⟨returnTo v rest, g, none⟩
  | .stop why => some { s with stopped := some why }
  | .stuck => none

/-- What a step is due to. -/
inductive Label where
  /-- The running code. -/
  | run
  /-- A call by the application code on top of the stack. -/
  | user (op : Op)
  /-- An interrupt. -/
  | interrupt (intr : Nat)
  /-- The passing of time. -/
  | clock (t : Time)

/-- One step of the machine. -/
def step (label : Label) (s : State) : Option State :=
  if s.stopped.isSome then none
  else match label with
    | .run =>
      match s.stack with
      | [] => none
      | act :: rest => (exec act s.g).apply s rest
    | .user op =>
      match s.stack with
      | [] => none
      | act :: rest => (execUser op act s.g).apply s rest
    | .interrupt intr =>
      if intr < nintrSources ∧ s.g.blocked intr = false then
        some ⟨.signal intr s.g.blocked .enter :: s.stack, s.g.disable, none⟩
      else none
    | .clock t => some { s with g := { s.g with now := t } }

/-- The state in which `initialize(memlen)` has called `hardware_init` and goes on to allocate
the arena. Variables that are not initialised are arguments. A `Timeout` that
`init_timeout_guard` has not set holds no process, so that making that process ready is a
fault. -/
def boot (arena : Option Addr) (memlen : Nat) (proc : Addr → Process) (link : Addr → Option Addr)
    (vars : Addr → Var → Buffer) (time : TimeoutId → Time) : State where
  stack := [.main (.memoryInit arena memlen)]
  g := {
    current := none
    priorityMask := 0
    readyQ := fun _ => ⟨none, none⟩
    mem := ⟨link, fun _ => none, 0, 0⟩
    proc := proc
    vars := vars
    chan := fun _ => initChannel
    ichan := fun _ => ⟨none, 0⟩
    channelForInterrupt := fun _ => none
    timer := ⟨fun t => ⟨none, time t⟩, [], none⟩
    now := 0
    activeHandlers := 0
    interruptHandler := fun _ => none
    currentlyBlocked := fun _ => false
    blocked := allSignals
    log := [] }
  stopped := none

end Microcsp
