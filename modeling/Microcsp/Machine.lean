import Mathlib.Tactic.Simps.Basic
import Microcsp.History

/-!
# The machine: state

The global variables of the program with the signal mask and the reading of the clock, and the
operations of `sched.c` that read and write them. Everything a process record shares with other
code is here; the control stack is in `Control`.
-/

namespace Microcsp

/-- `NINTR_SOURCES` -/
def nintrSources : Nat := 6

/-- `INTR_USER0` -/
def intrUser0 : Nat := 3

/-- The number is that of a user interrupt source. -/
def isUserInterrupt (intrno : Int) : Bool :=
  let intrsrc := intrno + intrUser0
  decide (intrUser0 ≤ intrsrc ∧ intrsrc < nintrSources)

/-- A set of simulated interrupt signals, each by its interrupt source. -/
abbrev SigSet := Nat → Bool

/-- `all_signals` -/
def allSignals : SigSet := fun _ => true

/-- `greater_than_or_equal_to`: signals of lesser value have higher priority. -/
def greaterThanOrEqualTo (intr : Nat) : SigSet := fun i => decide (intr ≤ i)

/-- The handlers that `interrupt_handler` may hold. -/
inductive Handler where
  /-- `handle_elapsed_time_interrupt` -/
  | elapsed
  /-- `handle_timeout_interrupt` -/
  | timeout
  /-- `user_interrupt_handler` -/
  | user
  deriving DecidableEq, Repr

/-- The global variables. -/
structure Globals where
  /-- `current`, the process that is taken to be executing. -/
  current : Option Addr
  /-- `priority_mask` -/
  priorityMask : BitVec 8
  /-- `readyQ` -/
  readyQ : Nat → ReadyQ
  /-- The allocator, with the link word of every record. -/
  mem : Memory
  /-- The process records. -/
  proc : Addr → Process
  /-- The local variables behind the process records. -/
  vars : Addr → Var → Buffer
  /-- The channels. -/
  chan : ChanId → Channel
  /-- The interrupt channels. -/
  ichan : ChanId → InterruptChannel
  /-- `channel_for_interrupt`, by user interrupt number. -/
  channelForInterrupt : Nat → Option ChanId
  /-- `timer.c` -/
  timer : TimerState
  /-- What `Now()` returns at present. The elapsed-time interrupt acts on nothing else. -/
  now : Time
  /-- `activeHandlers` -/
  activeHandlers : Nat
  /-- `interrupt_handler` -/
  interruptHandler : Nat → Option Handler
  /-- `currently_blocked` -/
  currentlyBlocked : SigSet
  /-- The signals that are blocked. -/
  blocked : SigSet
  /-- What has happened so far. -/
  log : List Event

namespace Globals

/-- Extend the history. -/
@[simps! current priorityMask readyQ mem proc vars chan ichan channelForInterrupt timer now
  activeHandlers interruptHandler currentlyBlocked blocked log]
def emit (g : Globals) (e : Event) : Globals := { g with log := e :: g.log }

/-- Interrupts are disabled: every simulated interrupt is blocked. -/
def masked (g : Globals) : Bool := (List.range nintrSources).all g.blocked

/-- Note the entry of a function. -/
@[simps! current priorityMask readyQ mem proc vars chan ichan channelForInterrupt timer now
  activeHandlers interruptHandler currentlyBlocked blocked log]
def enter (g : Globals) (f : Fn) : Globals := g.emit (.enter f g.masked)

/-- `DISABLE` -/
@[simps! current priorityMask readyQ mem proc vars chan ichan channelForInterrupt timer now
  activeHandlers interruptHandler currentlyBlocked blocked log]
def disable (g : Globals) : Globals :=
  { g with blocked := fun i => g.blocked i || allSignals i }

/-- `ENABLE` -/
@[simps! current priorityMask readyQ mem proc vars chan ichan channelForInterrupt timer now
  activeHandlers interruptHandler currentlyBlocked blocked log]
def enable (g : Globals) : Globals :=
  { g with blocked := fun i => g.blocked i && !allSignals i }

/-- Store a process record. -/
@[simps! current priorityMask readyQ mem vars chan ichan channelForInterrupt timer now
  activeHandlers interruptHandler currentlyBlocked blocked log]
def setProc (g : Globals) (p : Addr) (proc : Process) : Globals :=
  { g with proc := Function.update g.proc p proc }

/-- Store the scheduling state of a process. -/
@[simps! current priorityMask readyQ mem vars chan ichan channelForInterrupt timer now
  activeHandlers interruptHandler currentlyBlocked blocked log]
def setState (g : Globals) (p : Addr) (state : PState) : Globals :=
  g.setProc p { g.proc p with state := state }

/-- Store the ALT record of a process. -/
@[simps! current priorityMask readyQ mem vars chan ichan channelForInterrupt timer now
  activeHandlers interruptHandler currentlyBlocked blocked log]
def setAlt (g : Globals) (p : Addr) (alt : Alternation) : Globals :=
  g.setProc p { g.proc p with alt := alt }

/-- Store the head of a ready queue. -/
@[simps! current priorityMask readyQ mem proc vars chan ichan channelForInterrupt timer now
  activeHandlers interruptHandler currentlyBlocked blocked log]
def setHead (g : Globals) (pri : Nat) (head : Option Addr) : Globals :=
  { g with readyQ := Function.update g.readyQ pri { g.readyQ pri with head := head } }

/-- Store the tail of a ready queue. -/
@[simps! current priorityMask readyQ mem proc vars chan ichan channelForInterrupt timer now
  activeHandlers interruptHandler currentlyBlocked blocked log]
def setTail (g : Globals) (pri : Nat) (tail : Option Addr) : Globals :=
  { g with readyQ := Function.update g.readyQ pri { g.readyQ pri with tail := tail } }

/-- Store the link word of a record. -/
@[simps! current priorityMask readyQ mem proc vars chan ichan channelForInterrupt timer now
  activeHandlers interruptHandler currentlyBlocked blocked log]
def setLink (g : Globals) (p : Addr) (next : Option Addr) : Globals :=
  { g with mem := g.mem.setLink p next }

/-- Store a channel. -/
@[simps! current priorityMask readyQ mem proc vars chan ichan channelForInterrupt timer now
  activeHandlers interruptHandler currentlyBlocked blocked log]
def setChan (g : Globals) (c : ChanId) (chan : Channel) : Globals :=
  { g with chan := Function.update g.chan c chan }

/-- Store an interrupt channel. -/
@[simps! current priorityMask readyQ mem proc vars chan ichan channelForInterrupt timer now
  activeHandlers interruptHandler currentlyBlocked blocked log]
def setIchan (g : Globals) (x : ChanId) (ichan : InterruptChannel) : Globals :=
  { g with ichan := Function.update g.ichan x ichan }

/-- The bytes at a pointer. -/
def read (g : Globals) (ptr : Option Ptr) : Buffer :=
  match ptr with
  | none => []
  | some ptr => g.vars ptr.proc ptr.var

/-- Store bytes at a pointer. -/
@[simps! current priorityMask readyQ mem proc vars chan ichan channelForInterrupt timer now
  activeHandlers interruptHandler currentlyBlocked blocked log]
def write (g : Globals) (ptr : Ptr) (bytes : Buffer) : Globals :=
  let vars := Function.update (g.vars ptr.proc) ptr.var bytes
  { g with vars := Function.update g.vars ptr.proc vars }

/-- The local variables after `Memcpy`; nothing is returned for a copy through a NULL pointer. -/
def memcpy (g : Globals) (dest src : Option Ptr) (len : Nat) : Option (Addr → Var → Buffer) :=
  if len = 0 then some g.vars
  else match dest, src with
    | some d, some s =>
      some (g.write d ((g.read (some s)).take len ++ (g.read (some d)).drop len)).vars
    | _, _ => none

/-- `enable_channel_input` for `current` -/
@[simps! fst snd_current snd_priorityMask snd_readyQ snd_mem snd_proc snd_vars snd_ichan
  snd_channelForInterrupt snd_timer snd_now snd_activeHandlers snd_interruptHandler
  snd_currentlyBlocked snd_blocked snd_log]
def enableChannelInput (g : Globals) (c : ChanId) : Option Addr × Globals :=
  let r := (g.chan c).enableInput g.current
  (r.1, g.setChan c r.2)

/-- `disable_channel_input` for `current` -/
@[simps! fst snd_current snd_priorityMask snd_readyQ snd_mem snd_proc snd_vars snd_ichan
  snd_channelForInterrupt snd_timer snd_now snd_activeHandlers snd_interruptHandler
  snd_currentlyBlocked snd_blocked snd_log]
def disableChannelInput (g : Globals) (c : ChanId) : Option Addr × Globals :=
  let r := (g.chan c).disableInput g.current
  (r.1, g.setChan c r.2)

/-- `enable_channel_output` for `current` -/
@[simps! fst snd_current snd_priorityMask snd_readyQ snd_mem snd_proc snd_vars snd_ichan
  snd_channelForInterrupt snd_timer snd_now snd_activeHandlers snd_interruptHandler
  snd_currentlyBlocked snd_blocked snd_log]
def enableChannelOutput (g : Globals) (c : ChanId) (src : Option Ptr) : Option Addr × Globals :=
  let r := (g.chan c).enableOutput g.current src
  (r.1, g.setChan c r.2)

/-- `enable_interrupt_channel` for `current` -/
@[simps! fst snd_current snd_priorityMask snd_readyQ snd_mem snd_proc snd_vars snd_chan
  snd_channelForInterrupt snd_timer snd_now snd_activeHandlers snd_interruptHandler
  snd_currentlyBlocked snd_blocked snd_log]
def enableInterruptChannel (g : Globals) (x : ChanId) : Bool × Globals :=
  let r := (g.ichan x).enable g.current
  (r.1, g.setIchan x r.2)

/-- `disable_interrupt_channel` -/
@[simps! fst snd_current snd_priorityMask snd_readyQ snd_mem snd_proc snd_vars snd_chan
  snd_channelForInterrupt snd_timer snd_now snd_activeHandlers snd_interruptHandler
  snd_currentlyBlocked snd_blocked snd_log]
def disableInterruptChannel (g : Globals) (x : ChanId) : Bool × Globals :=
  let r := (g.ichan x).disable
  (r.1, g.setIchan x r.2)

/-- The bytes of an `int`. -/
def intBytes (n : Nat) : Buffer := (List.range 4).map fun k => UInt8.ofNat (n / 256 ^ k % 256)

/-- The end of `disable_alt` for an interrupt: the count is stored if it is wanted, and cleared. -/
@[simps! current priorityMask readyQ mem proc chan channelForInterrupt timer now activeHandlers
  interruptHandler currentlyBlocked blocked log]
def receiveInterrupt (g : Globals) (x : ChanId) (dest : Option Ptr) : Globals :=
  { g with
    vars := match dest with
      | none => g.vars
      | some d => (g.write d (intBytes (g.ichan x).count)).vars
    ichan := Function.update g.ichan x { g.ichan x with count := 0 } }

/-- `connect_interrupt_to_channel` for a valid number -/
@[simps! current priorityMask readyQ mem proc vars chan timer now activeHandlers interruptHandler
  currentlyBlocked blocked log]
def connectInterruptToChannel (g : Globals) (x : ChanId) (intrno : Int) : Globals :=
  { g.setIchan x ⟨none, 0⟩ with
    channelForInterrupt := Function.update g.channelForInterrupt intrno.toNat (some x) }

/-- `disconnect_interrupt_from_channel` for a valid number -/
@[simps! current priorityMask readyQ mem proc vars chan ichan timer now activeHandlers
  interruptHandler currentlyBlocked blocked log]
def disconnectInterruptFromChannel (g : Globals) (intrno : Int) : Globals :=
  { g with channelForInterrupt := Function.update g.channelForInterrupt intrno.toNat none }

/-- The guard of a process is really ready: another process waits in the channel of an input, the
reader has copied the data of an output, the time of a timeout has come, the count of an interrupt
is positive. A skip guard is always ready. -/
def branchReady (g : Globals) (p : Addr) (i : Nat) : Bool :=
  match ((g.proc p).alt.guards i).kind with
  | .chanin c _ _ => (g.chan c).waiting.any (· ≠ p)
  | .chanout c _ => delivered g.log c && decide ((g.chan c).waiting ≠ some p)
  | .skip => true
  | .timeout t => decide (g.timer.time t ≤ g.now)
  | .interrupt x _ => decide (0 < (g.ichan x).count)

end Globals

end Microcsp
