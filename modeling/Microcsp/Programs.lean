import Microcsp.Cooperation
import Microcsp.Library.Dataflow

/-!
# Programs

Networks of processes whose code is known: what an execution of an rtc function calls is a function of
the variables and guards of its process and of the selected branch. `main` starts the processes in some
order, and calls `run`. With the programs given, a run has no choice left but when the clock moves.

A process that has only one active guard in each ALT puts a value into a channel or gets one out of it,
and is executed. The network of these moves, in which nothing else is left of the scheduler, is what runs
are compared with.
-/

open Library

namespace Microcsp

/-! ## Code -/

/-- What the code of a process sees of it. -/
structure Locals where
  /-- Its variables. -/
  vars : Var → Buffer
  /-- Its guards; a pointer to one of its variables is known by the variable only. -/
  guards : Nat → Guard

/-- The pointer to the same variable of the process at this record. -/
def Ptr.localise (p : Addr) (ptr : Ptr) : Ptr := ⟨p, ptr.var⟩

/-- The guard type with pointers into the process at this record. -/
def GuardKind.localise (p : Addr) : GuardKind → GuardKind
  | .chanin c dest len => .chanin c (dest.map (Ptr.localise p)) len
  | .chanout c src => .chanout c (src.map (Ptr.localise p))
  | .skip => .skip
  | .timeout t => .timeout t
  | .interrupt x dest => .interrupt x (dest.map (Ptr.localise p))

/-- The guard with pointers into the process at this record. -/
def Guard.localise (p : Addr) (guard : Guard) : Guard := { guard with kind := guard.kind.localise p }

/-- The guard as it is for every process. -/
def Guard.relative (guard : Guard) : Guard := guard.localise 0

/-- The call with pointers into the process at this record. -/
def Op.localise (p : Addr) : Op → Op
  | .initGuard i kind => .initGuard i (kind.localise p)
  | op => op

/-- What a process is started with, and its code. -/
structure Program where
  /-- The initial values of its variables. -/
  locals : Var → Buffer
  /-- What stands in its guard array. -/
  guards : Nat → Guard
  /-- Their size. -/
  localSize : Nat
  /-- The calls of an execution, the initial one or one after an ALT with this selected branch. -/
  rtc : Locals → Option Nat → List Op

/-- Processes of one priority, and the channels between them. -/
structure Network (K : Type) where
  /-- Their programs. -/
  program : K → Program
  /-- The process that outputs on the channel. -/
  writer : ChanId → K
  /-- The process that inputs from it. -/
  reader : ChanId → K
  /-- They are different. -/
  apart : ∀ c, writer c ≠ reader c
  /-- The priority. -/
  pri : Nat

/-- What is known of the programs in a run. -/
structure Roster (K : Type) where
  /-- The processes that `main` is still to start. -/
  toStart : List K
  /-- The program of the process at a record. -/
  runs : Addr → Option K
  /-- What the execution in progress is still to call. -/
  todo : List Op

/-- Before `main` starts the processes in this order. -/
def Roster.starting {K : Type} (order : List K) : Roster K := ⟨order, fun _ => none, []⟩

/-- What the code of a process sees. -/
def Globals.locals (g : Globals) (p : Addr) : Locals :=
  ⟨g.vars p, fun i => (g.guard p i).relative⟩

/-- The only active one of the first guards, if there is just one. -/
def onlyActive (guards : Nat → Guard) (n : Nat) : Option Nat :=
  match (List.range n).filter fun i => (guards i).active with
  | [i] => some i
  | _ => none

namespace Network

variable {K : Type} [DecidableEq K] (net : Network K)

/-- The arguments of `start`. -/
def args (k : K) : StartArgs :=
  ⟨(net.program k).locals, (net.program k).guards, (net.program k).localSize, net.pri⟩

/-- What the execution of the process calls. -/
def execution (roster : Roster K) (g : Globals) (p : Addr) (selected : Option Nat) : List Op :=
  match roster.runs p with
  | some k => (net.program k).rtc (g.locals p) selected
  | none => []

/-- What the machine does next: `main` starts the next process or calls `run`, an execution makes its
next call or returns, other code runs. -/
def next (s : State) (roster : Roster K) : Label :=
  match s.stack with
  | .main .user :: _ =>
    match roster.toStart with
    | k :: _ => .user (.start (net.args k))
    | [] => .user .ret
  | .rtc p :: _ =>
    match roster.todo with
    | op :: _ => .user (op.localise p)
    | [] => .user .ret
  | _ => .run

/-- The roster after that: the record of a new process, the calls of a new execution, the call made. -/
def note (s : State) (roster : Roster K) : Roster K :=
  match s.stack with
  | .start _ (.fill _ record) :: _ =>
    match roster.toStart with
    | k :: rest =>
      { roster with toStart := rest, runs := Function.update roster.runs record (some k) }
    | [] => roster
  | .schedule _ p (.dispatch .initial) :: _ => { roster with todo := net.execution roster s.g p none }
  | .schedule _ p (.execute true) :: _ =>
    { roster with todo := net.execution roster s.g p (some (s.g.proc p).alt.index) }
  | .rtc _ :: _ => { roster with todo := roster.todo.tail }
  | _ => roster

end Network

/-- What a step of the network is due to. -/
inductive NetLabel where
  /-- The machine. -/
  | machine
  /-- The passing of time. -/
  | clock (t : Time)

namespace Network

variable {K : Type} [DecidableEq K] (net : Network K)

/-- One step of the machine with the programs. -/
def step (label : NetLabel) (both : State × Roster K) : Option (State × Roster K) :=
  match label with
  | .machine =>
    (Microcsp.step (net.next both.1 both.2) both.1).map fun s => (s, net.note both.1 both.2)
  | .clock t => (Microcsp.step (.clock t) both.1).map fun s => (s, both.2)

/-- The guard is an input or output of the process, on its own variables. -/
def communicates (k : K) (p : Addr) (guard : Guard) : Bool :=
  guard.plain p && match guard.kind with
    | .chanin c _ _ => decide (net.reader c = k)
    | .chanout c _ => decide (net.writer c = k)
    | _ => false

/-- The ALT that is about to be enabled has exactly one active guard, an input or output, and no
execution starts a process. -/
def withoutChoice (label : NetLabel) (both : State × Roster K) : Bool :=
  match label, both.1.stack with
  | .machine, .enableAlt p .enter :: _ =>
    match both.2.runs p, onlyActive (both.1.g.guard p) (both.1.g.proc p).alt.nrGuards with
    | some k, some i => net.communicates k p (both.1.g.guard p i)
    | _, _ => false
  | .machine, .rtc _ :: _ => !(both.2.todo.head? matches some (.start _))
  | _, _ => true

end Network

/-! ## Moves -/

/-- The state of a process between its executions. -/
structure Local extends Locals where
  /-- The number of its guards. -/
  nrGuards : Nat

/-- The state of a process in the machine. -/
def Globals.own (g : Globals) (p : Addr) : Local := ⟨g.locals p, (g.proc p).alt.nrGuards⟩

namespace Local

variable (l : Local)

/-- Store one guard. -/
def setGuard (i : Nat) (guard : Guard) : Local :=
  { l with guards := Function.update l.guards i guard }

/-- Store bytes in a variable. -/
def assign (v : Var) (bytes : Buffer) : Local := { l with vars := Function.update l.vars v bytes }

/-- One call of an execution. -/
def perform : Op → Local
  | .initAlt size | .initAltPri size => { l with nrGuards := toUint8 size }
  | .initGuard i kind => l.setGuard i (Guard.relative { l.guards i with kind := kind })
  | .initTimeoutGuard i t _ => l.setGuard i { l.guards i with kind := .timeout t }
  | .setActive i active => l.setGuard i { l.guards i with active := active }
  | .assign v bytes => l.assign v bytes
  | _ => l

/-- The calls of an execution until it returns. -/
def performs (l : Local) : List Op → Local
  | [] => l
  | .ret :: _ => l
  | op :: ops => performs (l.perform op) ops

/-- The only active guard. -/
def only : Option Nat := onlyActive l.guards l.nrGuards

/-- The bytes at a pointer. -/
def read (src : Option Ptr) : Buffer :=
  match src with
  | none => []
  | some ptr => l.vars ptr.var

/-- Copy the first bytes of a value. -/
def receive (dest : Option Ptr) (len : Nat) (value : Buffer) : Local :=
  if len = 0 then l
  else match dest with
    | none => l
    | some ptr => l.assign ptr.var (value.take len ++ (l.vars ptr.var).drop len)

end Local

namespace Program

variable (program : Program)

/-- The initial state. -/
def initially : Local := ⟨⟨program.locals, fun i => (program.guards i).relative⟩, 0⟩

/-- An execution. -/
def execute (l : Local) (selected : Option Nat) : Local :=
  l.performs (program.rtc l.toLocals selected)

/-- What the process does between two executions, and the second one. -/
def move (l : Local) : Option (Move ChanId Buffer (Nat × Buffer) Local) :=
  match l.only with
  | some i =>
    match (l.guards i).kind with
    | .chanin c dest len => some (.get c fun value =>
        ((len, value.take len), program.execute (l.receive dest len value) (some i)))
    | .chanout c src => some (.put c (l.read src) (program.execute l (some i)))
    | _ => none
  | none => none

end Program

namespace Network

variable {K : Type} (net : Network K)

/-- The network of the moves. -/
def moves : Dataflow K ChanId Buffer (Nat × Buffer) Local where
  writer := net.writer
  reader := net.reader
  move k := (net.program k).move

/-- After the initial executions. -/
def initially : Dataflow.State K ChanId Buffer (Nat × Buffer) Local where
  own k := (net.program k).execute (net.program k).initially none
  puts _ := []
  gets _ := []

end Network

end Microcsp
