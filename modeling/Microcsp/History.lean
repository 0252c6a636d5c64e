import Microcsp.Process

/-!
# The history of a run

A log of what the run has done, newest event first. It has no counterpart in the source: no
function of the model reads it to decide what it does. The properties of runs are stated over
it, and the functions below read those properties off it.
-/

namespace Microcsp

/-- The functions whose comments ask for disabled interrupts. -/
inductive Fn where
  /-- `highest_ready` -/
  | highestReady
  /-- `take` -/
  | take
  /-- `append` -/
  | append
  /-- `readyProcessIfNecessary` -/
  | readyProcessIfNecessary
  /-- `schedule` -/
  | schedule
  deriving DecidableEq, Repr

/-- One event of a run. -/
inductive Event where
  /-- A function was entered, with interrupts disabled or not. -/
  | enter (f : Fn) (masked : Bool)
  /-- `allocate_mem` returned the record. -/
  | alloc (p : Addr)
  /-- `schedule` handed the record to `release_mem`. -/
  | release (p : Addr)
  /-- `take` returned the record. -/
  | took (p : Addr)
  /-- `readyProcessIfNecessary` was called with the record. -/
  | readied (p : Addr)
  /-- The rtc function of the process was called: the first time, or after `disable_alt` with
  this selected branch and the guard of that branch. -/
  | rtc (p : Addr) (branch : Option (Nat × GuardKind))
  /-- The executing process called `terminate`. -/
  | terminate (p : Addr)
  /-- `enable_alt` was called for the process. -/
  | enable (p : Addr)
  /-- `enable_alt` visited the guard. -/
  | enabled (p : Addr) (i : Nat)
  /-- `disable_alt` was called for the process. -/
  | disable (p : Addr)
  /-- `disable_alt` visited the guard, which was active and ready or not. -/
  | visit (p : Addr) (i : Nat) (kind : GuardKind) (ready : Bool)
  /-- A process enabled output on the channel with these bytes at its source. -/
  | offer (c : ChanId) (v : Buffer)
  /-- `disable_alt` copied these bytes, of the requested length, from the channel's source. -/
  | copy (p : Addr) (c : ChanId) (len : Nat) (v : Buffer)
  deriving DecidableEq, Repr

/-- The record is allocated: `allocate_mem` returned it and it was not released since. -/
def allocated : List Event → Addr → Bool
  | [], _ => false
  | .alloc q :: log, p => if q = p then true else allocated log p
  | .release q :: log, p => if q = p then false else allocated log p
  | _ :: log, p => allocated log p

/-- The process called `terminate` since its record was allocated. -/
def terminated : List Event → Addr → Bool
  | [], _ => false
  | .alloc q :: log, p => if q = p then false else terminated log p
  | .terminate q :: log, p => if q = p then true else terminated log p
  | _ :: log, p => terminated log p

/-- The guards that are enabled and not yet disabled again, the last one enabled first. -/
def engaged : List Event → Addr → List Nat
  | [], _ => []
  | .alloc q :: log, p => if q = p then [] else engaged log p
  | .enable q :: log, p => if q = p then [] else engaged log p
  | .enabled q i :: log, p => if q = p then i :: engaged log p else engaged log p
  | .visit q _ _ _ :: log, p => if q = p then (engaged log p).tail else engaged log p
  | _ :: log, p => engaged log p

/-- The last offer on the channel was copied. -/
def delivered : List Event → ChanId → Bool
  | [], _ => false
  | .offer d _ :: log, c => if d = c then false else delivered log c
  | .copy _ d _ _ :: log, c => if d = c then true else delivered log c
  | _ :: log, c => delivered log c

/-- The events since `disable_alt` was last called for the process. -/
def sinceDisable : List Event → Addr → List Event
  | [], _ => []
  | e :: log, p => if e = .disable p then [] else e :: sinceDisable log p

/-- The values offered on a channel, oldest first. -/
def offers : List Event → ChanId → List Buffer
  | [], _ => []
  | .offer d v :: log, c => if d = c then offers log c ++ [v] else offers log c
  | _ :: log, c => offers log c

/-- The lengths asked for and the bytes copied from a channel, oldest first. -/
def copies : List Event → ChanId → List (Nat × Buffer)
  | [], _ => []
  | .copy _ d len v :: log, c => if d = c then copies log c ++ [(len, v)] else copies log c
  | _ :: log, c => copies log c

/-- The number of executions that followed an output on the channel. -/
def completions : List Event → ChanId → Nat
  | [], _ => 0
  | .rtc _ (some (_, .chanout d _)) :: log, c =>
    if d = c then completions log c + 1 else completions log c
  | _ :: log, c => completions log c

end Microcsp
