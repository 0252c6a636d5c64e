import Mathlib.Data.BitVec
import Microcsp.Timer

/-!
# Processes, guards and channels

The data model of `sched.c` and `internals/sched.h`, and its pure functions. A pointer into a
process's local variables is the address of the process record and the number of the variable;
a variable holds the bytes of one object.
-/

namespace Microcsp

/-- `PRI_MIN`, the priority of the idle process. -/
def priMin : Nat := 0

/-- `PRI_MAX` -/
def priMax : Nat := 7

/-- The address of a `Channel` or of an `InterruptChannel`. -/
abbrev ChanId := Nat

/-- The number of a local variable of a process. -/
abbrev Var := Nat

/-- The bytes of one variable. -/
abbrev Buffer := List UInt8

/-- A pointer to a local variable of a process. -/
structure Ptr where
  /-- The process record the variable stands behind. -/
  proc : Addr
  /-- The variable. -/
  var : Var
  deriving DecidableEq, Repr

/-- The scheduling states `PROC_INITIAL` to `PROC_DONE`. -/
inductive PState where
  /-- A new process. -/
  | initial
  /-- No alternation in progress. -/
  | quiescent
  /-- The ALT is being enabled. -/
  | enabling
  /-- Waiting for a ready branch. -/
  | waiting
  /-- A branch is ready. -/
  | ready
  /-- The process has terminated. -/
  | done
  deriving DecidableEq, Repr

/-- The guard types with the members of the union each uses. -/
inductive GuardKind where
  /-- `GUARD_CHANIN` -/
  | chanin (channel : ChanId) (dest : Option Ptr) (len : Nat)
  /-- `GUARD_CHANOUT` -/
  | chanout (channel : ChanId) (src : Option Ptr)
  /-- `GUARD_SKIP` -/
  | skip
  /-- `GUARD_TIMEOUT` -/
  | timeout (timeout : TimeoutId)
  /-- `GUARD_INTERRUPT` -/
  | interrupt (channel : ChanId) (dest : Option Ptr)
  deriving DecidableEq, Repr

/-- `Guard` -/
structure Guard where
  /-- Type and operands. -/
  kind : GuardKind
  /-- Only active guards take part in the ALT. -/
  active : Bool
  deriving DecidableEq, Repr

/-- `Alternation`; the three counters are eight bits wide. The guard array is held by value:
the entries from `nrGuards` on are whatever memory follows it. -/
structure Alternation where
  /-- The guards. -/
  guards : Nat → Guard
  /-- Number of guards. -/
  nrGuards : Nat
  /-- Current or selected ready branch. -/
  index : Nat
  /-- Running branch count. -/
  count : Nat
  /-- Set for priority selection. -/
  altPri : Bool

/-- The state `schedule` gives a process whose `enable_alt` has returned: one that was made ready
meanwhile stays ready. -/
def PState.afterEnabling (state : PState) (ready : Bool) : PState :=
  if state = .enabling then if ready then .ready else .waiting else state

/-- The function a process executes. -/
inductive Rtc where
  /-- `idle`, which never returns. -/
  | idle
  /-- A function of the application. -/
  | user
  deriving DecidableEq, Repr

/-- `Process` without its link word. -/
structure Process where
  /-- The function called each time the process executes. -/
  rtc : Rtc
  /-- The ALT record. -/
  alt : Alternation
  /-- Memory class of the process. -/
  index : Nat
  /-- Priority of the process. -/
  pri : Nat
  /-- Scheduling state. -/
  state : PState

/-- `Channel` -/
structure Channel where
  /-- The process that waits in the channel. -/
  waiting : Option Addr
  /-- The source address an outputting process left. -/
  src : Option Ptr
  deriving DecidableEq, Repr

/-- `init_channel` -/
def initChannel : Channel := ⟨none, none⟩

/-- `InterruptChannel` -/
structure InterruptChannel where
  /-- The process that waits for the interrupt. -/
  waiting : Option Addr
  /-- Interrupts not yet received. -/
  count : Nat
  deriving DecidableEq, Repr

/-- `enable_channel_input`: the partner is returned when the channel is ready. -/
def Channel.enableInput (chan : Channel) (current : Option Addr) : Option Addr × Channel :=
  match chan.waiting with
  | some w => if current = some w then (none, chan) else (some w, chan)
  | none => (none, { chan with waiting := current })

/-- `disable_channel_input`: the partner is returned when the channel is ready. -/
def Channel.disableInput (chan : Channel) (current : Option Addr) : Option Addr × Channel :=
  match chan.waiting with
  | some w => if current ≠ some w then (some w, chan) else (none, { chan with waiting := none })
  | none => (none, chan)

/-- `enable_channel_output`: the partner is returned and the channel is never ready. -/
def Channel.enableOutput (chan : Channel) (current : Option Addr) (src : Option Ptr) :
    Option Addr × Channel :=
  (chan.waiting, ⟨current, src⟩)

/-- `enable_interrupt_channel` -/
def InterruptChannel.enable (chan : InterruptChannel) (current : Option Addr) :
    Bool × InterruptChannel :=
  if chan.count = 0 then (false, { chan with waiting := current }) else (true, chan)

/-- `disable_interrupt_channel` -/
def InterruptChannel.disable (chan : InterruptChannel) : Bool × InterruptChannel :=
  (decide (0 < chan.count), { chan with waiting := none })

/-- `ReadyQ` -/
structure ReadyQ where
  /-- First process of the queue. -/
  head : Option Addr
  /-- Last process of the queue. -/
  tail : Option Addr
  deriving DecidableEq, Repr

/-- `mask`, the bit of each priority level. -/
def levelMask (pri : Nat) : BitVec 8 := BitVec.twoPow 8 pri

/-- `highest_ready`, a search of the eight bits by halves. -/
def highestReady (ready : BitVec 8) : Nat :=
  if ready &&& 0b11110000 ≠ 0 then
    if ready &&& 0b11000000 ≠ 0 then
      if ready &&& 0b10000000 ≠ 0 then 7 else 6
    else if ready &&& 0b00100000 ≠ 0 then 5 else 4
  else if ready &&& 0b00001100 ≠ 0 then
    if ready &&& 0b00001000 ≠ 0 then 3 else 2
  else if ready &&& 0b00000010 ≠ 0 then 1 else 0

/-- `plus1_mod` -/
def plus1Mod (i m : Nat) : Nat := (i + 1) % m

/-- `minus1_mod`; the source assumes `0 <= i < m`. -/
def minus1Mod (i m : Nat) : Nat := (i + m - 1) % m

/-- A number as it is stored in a `uint8_t`. -/
def toUint8 (n : Int) : Nat := (n % 256).toNat

/-- `init_alt` on the ALT record of a process. -/
def Alternation.initAlt (alt : Alternation) (size : Int) : Alternation :=
  { alt with nrGuards := toUint8 size, altPri := false, index := toUint8 (size - 1) }

/-- `init_alt_pri` on the ALT record of a process; the index is left as it is. -/
def Alternation.initAltPri (alt : Alternation) (size : Int) : Alternation :=
  { alt with nrGuards := toUint8 size, altPri := true }

/-- Store one guard. -/
def Alternation.setGuard (alt : Alternation) (i : Nat) (g : Guard) : Alternation :=
  { alt with guards := Function.update alt.guards i g }

/-- The output guard restriction that `enable_alt` checks: an active output guard is the only
active guard. -/
def Alternation.outputAlone (alt : Alternation) : Bool :=
  let active := (List.range alt.nrGuards).filter fun i => (alt.guards i).active
  let output := active.any fun i => (alt.guards i).kind matches .chanout ..
  !(output && decide (1 < active.length))

end Microcsp
