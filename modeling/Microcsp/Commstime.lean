import Microcsp.Account
import Microcsp.Choiceless

/-!
# The commstime demo

`Prefix`, `Delta` and `Succ` send an increasing number round a ring, and `Delta` passes a copy of it on to
`Consume`, which reports how long that takes. Only the report is left out below, and the times for it.
-/

open Library

namespace Microcsp

/-! ## Numbers -/

/-- Higher bits of a number are not stored. -/
theorem intBytes_mod (n : Nat) : Globals.intBytes (n % 2 ^ 32) = Globals.intBytes n := by
  refine List.map_congr_left fun k mem => congrArg UInt8.ofNat ?_
  have small : k = 0 ∨ k = 1 ∨ k = 2 ∨ k = 3 := by
    have := List.mem_range.mp mem
    omega
  rcases small with rfl | rfl | rfl | rfl <;> omega

/-- Adding one to a number that is stored. -/
theorem intBytes_succ (n : Nat) :
    Globals.intBytes (intOf (Globals.intBytes n) + 1) = Globals.intBytes (n + 1) := by
  rw [← intBytes_mod n, intOf_intBytes (Nat.mod_lt _ (by decide)), ← intBytes_mod (n % 2 ^ 32 + 1),
    ← intBytes_mod (n + 1), Nat.mod_add_mod]

/-! ## The processes -/

open Globals (intBytes)

namespace Commstime

/-- The processes. -/
inductive Demo where
  /-- The process that outputs a first number and then what it inputs. -/
  | Prefix
  /-- The one that outputs twice what it inputs. -/
  | Delta
  /-- The one that adds one. -/
  | Succ
  /-- The one that reports. -/
  | Consume
  deriving DecidableEq

/-- From `Prefix` to `Delta`. -/
def a : ChanId := 0
/-- From `Delta` to `Succ`. -/
def b : ChanId := 1
/-- From `Delta` to `Consume`. -/
def c : ChanId := 2
/-- From `Succ` to `Prefix`. -/
def d : ChanId := 3

/-- The variable `x` that each process has. -/
def x : Var := 0

/-- A pointer of the process to its `x`. -/
def addressOfX : Option Ptr := some ⟨0, x⟩

/-- What a process sees after some calls of its own. -/
def after (l : Locals) (calls : List Op) : Locals := (Local.performs ⟨l, 0⟩ calls).toLocals

/-- `Prefix_rtc` -/
def prefixRtc (l : Locals) (selected : Option Nat) : List Op :=
  let first :=
    match selected with
    | none => [.initAlt 2, .initChaninGuard 0 d addressOfX 4, .initChanoutGuard 1 a addressOfX,
        .activate 0, .deactivate 1]
    | some _ => []
  let prefixed := after l first
  first ++ [.setActive 0 !(prefixed.guards 0).active, .setActive 1 !(prefixed.guards 1).active]

/-- `Delta_rtc` -/
def deltaRtc (_ : Locals) (selected : Option Nat) : List Op :=
  match selected with
  | none => [.initAlt 3, .initChaninGuard 0 a addressOfX 4, .initChanoutGuard 1 b addressOfX,
      .initChanoutGuard 2 c addressOfX, .activate 0, .deactivate 1, .deactivate 2]
  | some 0 => [.deactivate 0, .activate 1]
  | some 1 => [.deactivate 1, .activate 2]
  | some 2 => [.deactivate 2, .activate 0]
  | some _ => []

/-- `Succ_rtc` -/
def succRtc (l : Locals) (selected : Option Nat) : List Op :=
  let first :=
    match selected with
    | none => [.initAlt 2, .initChaninGuard 0 b addressOfX 4, .initChanoutGuard 1 d addressOfX,
        .deactivate 0, .activate 1]
    | some _ => []
  let succ := after l first
  first ++ [.assign x (intBytes (intOf (succ.vars x) + 1)),
    .setActive 0 !(succ.guards 0).active, .setActive 1 !(succ.guards 1).active]

/-- `Consume_rtc`, without the report -/
def consumeRtc (_ : Locals) (selected : Option Nat) : List Op :=
  match selected with
  | none => [.initAlt 1, .initChaninGuard 0 c addressOfX 4, .activate 0]
  | some _ => []

/-- The code of each process. -/
def rtc : Demo → Locals → Option Nat → List Op
  | .Prefix => prefixRtc
  | .Delta => deltaRtc
  | .Succ => succRtc
  | .Consume => consumeRtc

/-- What the source leaves open: what stands on the stack of `main` where the processes are instantiated,
and how large they are. -/
structure Setting where
  /-- Their variables `x`. -/
  x : Demo → Nat
  /-- The flags in their guard arrays. -/
  active : Demo → Nat → Bool
  /-- Their sizes. -/
  size : Demo → Nat

/-- The four processes. -/
def commstime (setting : Setting) : Network Demo where
  program k := ⟨fun _ => intBytes (setting.x k), fun i => ⟨.skip, setting.active k i⟩, setting.size k, rtc k⟩
  writer channel := if channel = a then .Prefix else if channel = d then .Succ else .Delta
  reader channel := if channel = a then .Delta else if channel = b then .Succ
    else if channel = c then .Consume else .Prefix
  apart channel := by
    split_ifs <;> simp_all [a, b, c, d]
  pri := 1

/-! ## Their executions -/

/-- The number of guards of a process. -/
def nrGuards : Demo → Nat
  | .Prefix => 2
  | .Delta => 3
  | .Succ => 2
  | .Consume => 1

/-- What its guards are. -/
def kinds : Demo → Nat → GuardKind
  | .Prefix, 0 => .chanin d addressOfX 4
  | .Prefix, _ => .chanout a addressOfX
  | .Delta, 0 => .chanin a addressOfX 4
  | .Delta, 1 => .chanout b addressOfX
  | .Delta, _ => .chanout c addressOfX
  | .Succ, 0 => .chanin b addressOfX 4
  | .Succ, _ => .chanout d addressOfX
  | .Consume, _ => .chanin c addressOfX 4

/-- A guard is the only active one. -/
theorem onlyActive_of_eq {guards : Nat → Guard} {n i : Nat} (inside : i < n)
    (active : ∀ j < n, (guards j).active = decide (j = i)) : onlyActive guards n = some i := by
  have list : (List.range n).filter (fun j => (guards j).active) = [i] := by
    rw [List.filter_congr fun j mem => active j (List.mem_range.mp mem), List.filter_eq,
      List.count_eq_one_of_mem List.nodup_range (List.mem_range.mpr inside)]
    rfl
  unfold onlyActive
  rw [list]

/-- The process is before an ALT in which this guard is active, and has this number. -/
structure At (k : Demo) (i v : Nat) (l : Local) : Prop where
  /-- It has called `init_alt`. -/
  size : l.nrGuards = nrGuards k
  /-- Its guards are initialised, and one is active. -/
  guards : ∀ j < nrGuards k, l.guards j = ⟨kinds k j, decide (j = i)⟩
  /-- Its variable. -/
  value : l.vars x = intBytes v

section Executions

variable {setting : Setting} {k : Demo} {i j v w : Nat} {l : Local}

theorem At.only (here : At k i v l) (inside : i < nrGuards k) : l.only = some i := by
  refine onlyActive_of_eq (by rw [here.size]; exact inside) fun j lt => ?_
  rw [here.size] at lt
  rw [here.guards j lt]

/-- It inputs a number. -/
theorem At.receive (here : At k i v l) : At k i w (l.receive addressOfX 4 (intBytes w)) where
  size := here.size
  guards := here.guards
  value := by
    change Function.update l.vars x ((intBytes w).take 4 ++ (l.vars x).drop 4) x = _
    rw [Function.update_self, here.value]
    rfl

/-- The initial execution of each process. -/
theorem at_initially (setting : Setting) (k : Demo) : ∃ i v, At k i v (((commstime setting).program k).execute
    ((commstime setting).program k).initially none) ∧
      i = (if k = .Prefix then 1 else 0) ∧ (k = .Prefix → v = setting.x .Prefix) := by
  cases k with
  | Prefix =>
    refine ⟨1, setting.x .Prefix, ⟨rfl, fun m lt => ?_, rfl⟩, rfl, fun _ => rfl⟩
    have which : m = 0 ∨ m = 1 := by simp only [nrGuards] at lt; omega
    rcases which with rfl | rfl <;> rfl
  | Delta =>
    refine ⟨0, setting.x .Delta, ⟨rfl, fun m lt => ?_, rfl⟩, rfl, by simp⟩
    have which : m = 0 ∨ m = 1 ∨ m = 2 := by simp only [nrGuards] at lt; omega
    rcases which with rfl | rfl | rfl <;> rfl
  | Succ =>
    refine ⟨0, setting.x .Succ + 1, ⟨rfl, fun m lt => ?_, ?_⟩, rfl, by simp⟩
    · have which : m = 0 ∨ m = 1 := by simp only [nrGuards] at lt; omega
      rcases which with rfl | rfl <;> rfl
    · exact intBytes_succ _
  | Consume =>
    refine ⟨0, setting.x .Consume, ⟨rfl, fun m lt => ?_, rfl⟩, rfl, by simp⟩
    obtain rfl : m = 0 := by simp only [nrGuards] at lt; omega
    rfl

/-- Two guards are reversed. -/
theorem At.reverse (here : At k i v l) (two : nrGuards k = 2) (inside : i < 2) : At k (1 - i) v
    ((l.setGuard 0 { l.guards 0 with active := !(l.guards 0).active }).setGuard 1
      { l.guards 1 with active := !(l.guards 1).active }) := by
  refine ⟨here.size, fun m lt => ?_, here.value⟩
  have input := here.guards 0 (by omega)
  have output := here.guards 1 (by omega)
  have opposite : (!decide (0 = i)) = decide (0 = 1 - i) ∧ (!decide (1 = i)) = decide (1 = 1 - i) := by
    obtain rfl | rfl : i = 0 ∨ i = 1 := by omega
    · exact ⟨rfl, rfl⟩
    · exact ⟨rfl, rfl⟩
  change Function.update (Function.update l.guards 0 _) 1 _ m = _
  obtain rfl | rfl : m = 0 ∨ m = 1 := by omega
  · rw [Function.update_of_ne (by decide), Function.update_self, input, ← opposite.1]
  · rw [Function.update_self, output, ← opposite.2]

/-- `Prefix` reverses its guards. -/
theorem At.executePrefix (here : At .Prefix i v l) (inside : i < 2) :
    At .Prefix (1 - i) v (((commstime setting).program .Prefix).execute l (some j)) :=
  here.reverse rfl inside

/-- `Delta` goes on to its next guard. -/
theorem At.executeDelta (here : At .Delta i v l) (inside : i < 3) :
    At .Delta ((i + 1) % 3) v (((commstime setting).program .Delta).execute l (some i)) := by
  have input := here.guards 0 (by decide)
  have left := here.guards 1 (by decide)
  have right := here.guards 2 (by decide)
  obtain rfl | rfl | rfl : i = 0 ∨ i = 1 ∨ i = 2 := by omega
  · refine ⟨here.size, fun m lt => ?_, here.value⟩
    change Function.update (Function.update l.guards 0 _) 1 _ m = _
    obtain rfl | rfl | rfl : m = 0 ∨ m = 1 ∨ m = 2 := by simp only [nrGuards] at lt; omega
    · exact congrArg (fun guard : Guard => (⟨guard.kind, false⟩ : Guard)) input
    · exact congrArg (fun guard : Guard => (⟨guard.kind, true⟩ : Guard)) left
    · exact right
  · refine ⟨here.size, fun m lt => ?_, here.value⟩
    change Function.update (Function.update l.guards 1 _) 2 _ m = _
    obtain rfl | rfl | rfl : m = 0 ∨ m = 1 ∨ m = 2 := by simp only [nrGuards] at lt; omega
    · exact input
    · exact congrArg (fun guard : Guard => (⟨guard.kind, false⟩ : Guard)) left
    · exact congrArg (fun guard : Guard => (⟨guard.kind, true⟩ : Guard)) right
  · refine ⟨here.size, fun m lt => ?_, here.value⟩
    change Function.update (Function.update l.guards 2 _) 0 _ m = _
    obtain rfl | rfl | rfl : m = 0 ∨ m = 1 ∨ m = 2 := by simp only [nrGuards] at lt; omega
    · exact congrArg (fun guard : Guard => (⟨guard.kind, true⟩ : Guard)) input
    · exact left
    · exact congrArg (fun guard : Guard => (⟨guard.kind, false⟩ : Guard)) right

/-- `Succ` adds one and reverses its guards. -/
theorem At.executeSucc (here : At .Succ i v l) (inside : i < 2) :
    At .Succ (1 - i) (v + 1) (((commstime setting).program .Succ).execute l (some j)) := by
  have counted : At .Succ i (v + 1) (l.assign x (intBytes (intOf (l.vars x) + 1))) := by
    refine ⟨here.size, here.guards, ?_⟩
    rw [here.value, intBytes_succ]
    change Function.update l.vars x (intBytes (v + 1)) x = _
    rw [Function.update_self]
  exact counted.reverse rfl inside

/-- `Consume` does nothing that is modelled. -/
theorem At.executeConsume (here : At .Consume i v l) :
    At .Consume i v (((commstime setting).program .Consume).execute l (some j)) := here

/-- An input is active. -/
theorem At.move_get (here : At k i v l) (inside : i < nrGuards k) {channel : ChanId}
    (kind : kinds k i = .chanin channel addressOfX 4) : ((commstime setting).program k).move l =
      some (.get channel fun value => ((4, value.take 4),
        ((commstime setting).program k).execute (l.receive addressOfX 4 value) (some i))) := by
  simp only [Program.move, here.only inside, here.guards i inside, kind]

/-- An output is active. -/
theorem At.move_put (here : At k i v l) (inside : i < nrGuards k) {channel : ChanId}
    (kind : kinds k i = .chanout channel addressOfX) : ((commstime setting).program k).move l =
      some (.put channel (intBytes v) (((commstime setting).program k).execute l (some i))) := by
  simp only [Program.move, here.only inside, here.guards i inside, kind, Local.read, addressOfX, here.value]

end Executions

/-! ## What the channels carry -/

/-- The number that a channel carries at this place when `Prefix` begins with the first one. -/
def value (first : Nat) (channel : ChanId) (n : Nat) : Buffer :=
  intBytes (first + n + if channel = d then 1 else 0)

/-- Where a process stands by how many numbers were put into its channels and got out of them. -/
def Stands (first : Nat) (puts gets : ChanId → Nat) (k : Demo) (l : Local) : Prop :=
  match k with
  | .Prefix => puts a = gets d ∧ At .Prefix 1 (first + puts a) l ∨
      puts a = gets d + 1 ∧ ∃ v, At .Prefix 0 v l
  | .Delta => gets a = puts b ∧ puts b = puts c ∧ (∃ v, At .Delta 0 v l) ∨
      gets a = puts b + 1 ∧ puts b = puts c ∧ At .Delta 1 (first + puts b) l ∨
        gets a = puts b ∧ puts b = puts c + 1 ∧ At .Delta 2 (first + puts c) l
  | .Succ => gets b = puts d ∧ (∃ v, At .Succ 0 v l) ∨
      gets b = puts d + 1 ∧ At .Succ 1 (first + puts d + 1) l
  | .Consume => ∃ v, At .Consume 0 v l

/-- A state of the network of moves. -/
abbrev Moves : Type := Dataflow.State Demo ChanId Buffer (Nat × Buffer) Local

/-- How many numbers were put into a channel. -/
def sent (y : Moves) (channel : ChanId) : Nat := (y.puts channel).length

/-- How many were got out of it. -/
def received (y : Moves) (channel : ChanId) : Nat := (y.gets channel).length

/-- What holds wherever the moves lead. -/
structure Cycle (first : Nat) (y : Moves) : Prop where
  /-- Where the processes stand. -/
  stands : ∀ k, Stands first (sent y) (received y) k (y.own k)
  /-- The numbers that were put into the channels. -/
  puts : ∀ channel, y.puts channel = (List.range (sent y channel)).map (value first channel)
  /-- Those that were got out of them. -/
  gets : ∀ channel, y.gets channel =
    (List.range (received y channel)).map fun n => (4, value first channel n)
  /-- No more are got out of a channel than were put into it. -/
  below : ∀ channel, received y channel ≤ sent y channel
  /-- `Consume` is not left behind. -/
  close : received y a ≤ received y c + 1
  /-- Other channels are not used. -/
  others : ∀ channel, d < channel → sent y channel = 0

section Moves

variable {setting : Setting} {first : Nat} {k l : Demo} {y z : Moves} {channel : ChanId} {next : Local}

/-- Where a process stands depends on its own channels. -/
theorem Stands.congr (setting : Setting) {puts puts' gets gets' : ChanId → Nat} {own : Local}
    (stands : Stands first puts gets k own)
    (writes : ∀ e, (commstime setting).writer e = k → puts' e = puts e)
    (reads : ∀ e, (commstime setting).reader e = k → gets' e = gets e) : Stands first puts' gets' k own := by
  cases k with
  | Prefix =>
    simp only [Stands, writes a rfl, reads d rfl] at stands ⊢
    exact stands
  | Delta =>
    simp only [Stands, writes b rfl, writes c rfl, reads a rfl] at stands ⊢
    exact stands
  | Succ =>
    simp only [Stands, writes d rfl, reads b rfl] at stands ⊢
    exact stands
  | Consume => exact stands

theorem sent_put (v : Buffer) : sent (y.put k channel v next) =
    Function.update (sent y) channel (sent y channel + 1) := by
  funext e
  unfold sent Dataflow.State.put
  rcases eq_or_ne e channel with rfl | other
  · simp
  · simp [Function.update_of_ne other]

theorem received_get (t : Nat × Buffer) : received (y.get k channel t next) =
    Function.update (received y) channel (received y channel + 1) := by
  funext e
  unfold received Dataflow.State.get
  rcases eq_or_ne e channel with rfl | other
  · simp
  · simp [Function.update_of_ne other]

/-- A process outputs the next number. -/
theorem Cycle.put (setting : Setting) (cycle : Cycle first y) (known : channel ≤ d)
    (writes : (commstime setting).writer channel = k)
    (stands : Stands first (Function.update (sent y) channel (sent y channel + 1)) (received y) k next) :
    Cycle first (y.put k channel (value first channel (sent y channel)) next) where
  stands l := by
    rw [sent_put]
    rcases eq_or_ne l k with rfl | other
    · rw [show (y.put l channel _ next).own l = next from Function.update_self ..]
      exact stands
    · rw [show (y.put k channel _ next).own l = y.own l from Function.update_of_ne other ..]
      refine (cycle.stands l).congr setting (fun e mine => ?_) fun e _ => rfl
      refine Function.update_of_ne ?_ ..
      rintro rfl
      exact other (mine.symm.trans writes)
  puts e := by
    rw [sent_put]
    change Function.update y.puts channel _ e = _
    rcases eq_or_ne e channel with rfl | other
    · rw [Function.update_self, Function.update_self, List.range_succ, List.map_append, ← cycle.puts]
      rfl
    · rw [Function.update_of_ne other, Function.update_of_ne other]
      exact cycle.puts e
  gets := cycle.gets
  below e := by
    rw [sent_put]
    refine (cycle.below e).trans ?_
    rcases eq_or_ne e channel with rfl | other
    · rw [Function.update_self]
      exact Nat.le_succ _
    · rw [Function.update_of_ne other]
  close := cycle.close
  others e other := by
    rw [sent_put, Function.update_of_ne (Nat.lt_of_le_of_lt known other).ne']
    exact cycle.others e other

/-- A process inputs the next number. -/
theorem Cycle.get (setting : Setting) (cycle : Cycle first y) (reads : (commstime setting).reader channel = k)
    (more : received y channel < sent y channel)
    (stands : Stands first (sent y) (Function.update (received y) channel (received y channel + 1)) k next)
    (close : channel = a → received y a ≤ received y c) :
    Cycle first (y.get k channel (4, value first channel (received y channel)) next) where
  stands l := by
    rw [received_get]
    rcases eq_or_ne l k with rfl | other
    · rw [show (y.get l channel _ next).own l = next from Function.update_self ..]
      exact stands
    · rw [show (y.get k channel _ next).own l = y.own l from Function.update_of_ne other ..]
      refine (cycle.stands l).congr setting (fun e _ => rfl) fun e mine => ?_
      refine Function.update_of_ne ?_ ..
      rintro rfl
      exact other (mine.symm.trans reads)
  puts := cycle.puts
  gets e := by
    rw [received_get]
    change Function.update y.gets channel _ e = _
    rcases eq_or_ne e channel with rfl | other
    · rw [Function.update_self, Function.update_self, List.range_succ, List.map_append, ← cycle.gets]
      rfl
    · rw [Function.update_of_ne other, Function.update_of_ne other]
      exact cycle.gets e
  below e := by
    rw [received_get]
    rcases eq_or_ne e channel with rfl | other
    · rw [Function.update_self]
      exact more
    · rw [Function.update_of_ne other]
      exact cycle.below e
  close := by
    rw [received_get]
    rcases eq_or_ne channel a with rfl | other
    · rw [Function.update_self, Function.update_of_ne (by decide)]
      exact Nat.succ_le_succ (close rfl)
    · rw [Function.update_of_ne other.symm]
      rcases eq_or_ne c channel with rfl | apart
      · rw [Function.update_self]
        exact cycle.close.trans (Nat.le_succ _)
      · rw [Function.update_of_ne apart]
        exact cycle.close
  others := cycle.others

/-- A step of a process that is about to output. -/
theorem Cycle.step_put (cycle : Cycle first y) (known : channel ≤ d) (move : ((commstime setting).program k).move (y.own k) =
      some (.put channel (value first channel (sent y channel)) next))
    (stands : Stands first (Function.update (sent y) channel (sent y channel + 1)) (received y) k next)
    (stepped : (commstime setting).moves.step k y = some z) : Cycle first z := by
  rcases Dataflow.step_eq_some.mp stepped with ⟨e, v, next', moves, writes, rfl⟩ | ⟨e, take, v, moves, -⟩
  · obtain ⟨rfl, rfl, rfl⟩ : channel = e ∧ value first channel (sent y channel) = v ∧ next = next' := by
      simpa using move.symm.trans moves
    exact cycle.put setting known writes stands
  · cases move.symm.trans moves

/-- The next number in a channel. -/
theorem Cycle.next_value (cycle : Cycle first y) {v : Buffer}
    (there : (y.puts channel)[(y.gets channel).length]? = some v) :
    received y channel < sent y channel ∧ v = value first channel (received y channel) := by
  obtain ⟨more, -⟩ := List.getElem?_eq_some_iff.mp there
  have more : received y channel < sent y channel := more
  refine ⟨more, ?_⟩
  change (y.puts channel)[received y channel]? = some v at there
  rw [cycle.puts, List.getElem?_map, List.getElem?_range more] at there
  exact (Option.some.inj there).symm

/-- A step of a process that is about to input. -/
theorem Cycle.step_get (cycle : Cycle first y) {l : Local} {i : Nat}
    (move : ((commstime setting).program k).move (y.own k) = some (.get channel fun value =>
      ((4, value.take 4), ((commstime setting).program k).execute (l.receive addressOfX 4 value) (some i))))
    (stands : Stands first (sent y) (Function.update (received y) channel (received y channel + 1)) k
      (((commstime setting).program k).execute
        (l.receive addressOfX 4 (value first channel (received y channel))) (some i)))
    (close : channel = a → received y a ≤ received y c)
    (stepped : (commstime setting).moves.step k y = some z) : Cycle first z := by
  rcases Dataflow.step_eq_some.mp stepped with ⟨e, v, next', moves, -⟩ | ⟨e, take, v, moves, reads, there, rfl⟩
  · cases move.symm.trans moves
  · obtain ⟨rfl, rfl⟩ : channel = e ∧ _ = take := by
      simpa only [Option.some.injEq, Move.get.injEq] using move.symm.trans moves
    obtain ⟨more, rfl⟩ := cycle.next_value there
    exact cycle.get setting reads more stands close

/-- Every prompt move keeps it. -/
theorem Cycle.step (cycle : Cycle first y) (prompt : (commstime setting).moves.Prompt k y)
    (stepped : (commstime setting).moves.step k y = some z) : Cycle first z := by
  have stands := cycle.stands k
  cases k with
  | Prefix =>
    rcases stands with ⟨even, here⟩ | ⟨odd, v, here⟩
    · refine cycle.step_put (by decide) (here.move_put (by decide) rfl) (Or.inr ⟨?_, _, here.executePrefix (by decide)⟩)
        stepped
      rw [Function.update_self, even]
    · refine cycle.step_get (here.move_get (by decide) rfl) (Or.inl ⟨?_, ?_⟩) (fun same => absurd same (by decide)) stepped
      · rw [Function.update_self, odd]
      · have arrived : At .Prefix 1 _ (((commstime setting).program .Prefix).execute _ (some 0)) :=
          (here.receive (w := first + received y d + 1)).executePrefix (by decide)
        rw [odd]
        exact arrived
  | Delta =>
    rcases stands with ⟨level, even, v, here⟩ | ⟨level, even, here⟩ | ⟨level, odd, here⟩
    · refine cycle.step_get (here.move_get (by decide) rfl) (Or.inr (Or.inl ⟨?_, even, ?_⟩)) (fun _ => ?_) stepped
      · rw [Function.update_self, level]
      · have arrived : At .Delta 1 _ (((commstime setting).program .Delta).execute _ (some 0)) :=
          (here.receive (w := first + received y a)).executeDelta (by decide)
        rw [level] at arrived ⊢
        exact arrived
      · rw [level, even]
        exact (prompt c rfl).ge
    · refine cycle.step_put (by decide) (here.move_put (by decide) rfl) (Or.inr (Or.inr ⟨?_, ?_, ?_⟩)) stepped
      · rw [Function.update_self, level]
      · rw [Function.update_self, Function.update_of_ne (by decide), even]
      · rw [Function.update_of_ne (by decide), ← even]
        exact here.executeDelta (by decide)
    · refine cycle.step_put (by decide) (here.move_put (by decide) rfl) (Or.inl ⟨?_, ?_, _, here.executeDelta (by decide)⟩)
        stepped
      · rw [Function.update_of_ne (by decide), level]
      · rw [Function.update_self, Function.update_of_ne (by decide), odd]
  | Succ =>
    rcases stands with ⟨even, v, here⟩ | ⟨odd, here⟩
    · refine cycle.step_get (here.move_get (by decide) rfl) (Or.inr ⟨?_, ?_⟩)
        (fun same => absurd same (by decide)) stepped
      · rw [Function.update_self, even]
      · have arrived : At .Succ 1 _ (((commstime setting).program .Succ).execute _ (some 0)) :=
          (here.receive (w := first + received y b)).executeSucc (by decide)
        rw [even] at arrived ⊢
        exact arrived
    · refine cycle.step_put (by decide) (here.move_put (by decide) rfl) (Or.inl ⟨?_, _, here.executeSucc (by decide)⟩) stepped
      rw [Function.update_self, odd]
  | Consume =>
    obtain ⟨v, here⟩ := stands
    refine cycle.step_get (here.move_get (by decide) rfl) ⟨first + received y c, ?_⟩
      (fun same => absurd same (by decide)) stepped
    exact (here.receive (w := first + received y c)).executeConsume

/-- It holds after the initial executions. -/
theorem cycle_initially (setting : Setting) : Cycle (setting.x .Prefix) (commstime setting).initially where
  stands k := by
    obtain ⟨i, v, here, which, begins⟩ := at_initially setting k
    cases k with
    | Prefix =>
      obtain rfl : i = 1 := which
      rw [begins rfl] at here
      exact Or.inl ⟨rfl, here⟩
    | Delta =>
      obtain rfl : i = 0 := which
      exact Or.inl ⟨rfl, rfl, v, here⟩
    | Succ =>
      obtain rfl : i = 0 := which
      exact Or.inl ⟨rfl, v, here⟩
    | Consume =>
      obtain rfl : i = 0 := which
      exact ⟨v, here⟩
  puts _ := rfl
  gets _ := rfl
  below _ := le_refl _
  close := Nat.zero_le _
  others _ _ := rfl

/-- It holds wherever the moves lead. -/
theorem cycle_of_run (run : Run (commstime setting).moves.step (commstime setting).moves.Prompt
    (commstime setting).initially y) : Cycle (setting.x .Prefix) y :=
  run.invariant (Cycle (setting.x .Prefix)) (cycle_initially setting)
    fun _ _ _ cycle prompt stepped => cycle.step prompt stepped

/-- The guard that is active in each process. -/
theorem Stands.decided {puts gets : ChanId → Nat} {own : Local} (stands : Stands first puts gets k own) :
    ∃ i v, i < nrGuards k ∧ At k i v own := by
  cases k with
  | Prefix =>
    rcases stands with ⟨-, here⟩ | ⟨-, v, here⟩
    · exact ⟨1, _, by decide, here⟩
    · exact ⟨0, v, by decide, here⟩
  | Delta =>
    rcases stands with ⟨-, -, v, here⟩ | ⟨-, -, here⟩ | ⟨-, -, here⟩
    · exact ⟨0, v, by decide, here⟩
    · exact ⟨1, _, by decide, here⟩
    · exact ⟨2, _, by decide, here⟩
  | Succ =>
    rcases stands with ⟨-, v, here⟩ | ⟨-, here⟩
    · exact ⟨0, v, by decide, here⟩
    · exact ⟨1, _, by decide, here⟩
  | Consume =>
    obtain ⟨v, here⟩ := stands
    exact ⟨0, v, by decide, here⟩

/-- The code leaves no choice. -/
theorem choiceless (setting : Setting) : (commstime setting).Choiceless where
  stays k l selected := by
    cases k with
    | Prefix => cases selected <;> simp [commstime, rtc, prefixRtc, Op.stays, Op.initChaninGuard, Op.initChanoutGuard,
        Op.activate, Op.deactivate]
    | Delta =>
      simp only [commstime, rtc, deltaRtc]
      split <;> simp [Op.stays, Op.initChaninGuard, Op.initChanoutGuard, Op.activate, Op.deactivate]
    | Succ => cases selected <;> simp [commstime, rtc, succRtc, Op.stays, Op.initChaninGuard, Op.initChanoutGuard,
        Op.activate, Op.deactivate]
    | Consume => cases selected <;> simp [commstime, rtc, consumeRtc, Op.stays, Op.initChaninGuard, Op.activate]
  bare _ _ _ := rfl
  decided y run k := by
    obtain ⟨i, v, inside, here⟩ := ((cycle_of_run run).stands k).decided
    refine ⟨i, here.only inside, ?_⟩
    rw [here.guards i inside]
    cases k with
    | Prefix =>
      obtain rfl | rfl : i = 0 ∨ i = 1 := by simp only [nrGuards] at inside; omega
      · rfl
      · rfl
    | Delta =>
      obtain rfl | rfl | rfl : i = 0 ∨ i = 1 ∨ i = 2 := by simp only [nrGuards] at inside; omega
      · rfl
      · rfl
      · rfl
    | Succ =>
      obtain rfl | rfl : i = 0 ∨ i = 1 := by simp only [nrGuards] at inside; omega
      · rfl
      · rfl
    | Consume =>
      obtain rfl : i = 0 := by simp only [nrGuards] at inside; omega
      rfl

/-- Where what a process has output was input, it is prompt. -/
theorem Cycle.prompt (cycle : Cycle first y) (even : ∀ e ≤ d, (commstime setting).writer e = k →
    received y e = sent y e) : (commstime setting).moves.Prompt k y := by
  intro e writes
  rcases Nat.lt_or_ge d e with other | known
  · have none : (y.puts e).length = 0 := cycle.others e other
    have below : (y.gets e).length ≤ (y.puts e).length := cycle.below e
    omega
  · exact even e known writes

/-- How far the processes are apart. -/
structure Round (y : Moves) : Prop where
  /-- `Prefix` -/
  atPrefix : received y d ≤ sent y a ∧ sent y a ≤ received y d + 1
  /-- `Delta` -/
  atDelta : sent y b ≤ received y a ∧ received y a ≤ sent y b + 1
  /-- Its second output. -/
  copied : sent y c ≤ sent y b
  /-- `Succ` -/
  atSucc : sent y d ≤ received y b ∧ received y b ≤ sent y d + 1

theorem Cycle.round (cycle : Cycle first y) : Round y where
  atPrefix := by
    rcases cycle.stands .Prefix with ⟨even, -⟩ | ⟨odd, -⟩ <;> omega
  atDelta := by
    rcases cycle.stands .Delta with ⟨level, -⟩ | ⟨level, -⟩ | ⟨level, -⟩ <;> omega
  copied := by
    rcases cycle.stands .Delta with ⟨-, even, -⟩ | ⟨-, even, -⟩ | ⟨-, odd, -⟩ <;> omega
  atSucc := by
    rcases cycle.stands .Succ with ⟨even, -⟩ | ⟨odd, -⟩ <;> omega

end Moves

/-! ## The result -/

/-- What the demo has done so far: each channel has carried the numbers that it should, `b` and `d` are no
more than one behind `a` and `c` no more than one behind `b`, and the idle process is not executed. -/
structure Counts (setting : Setting) (s : State) : Prop where
  /-- The numbers. -/
  carried : ∀ channel, copies s.g.log channel = (List.range (copies s.g.log channel).length).map
    fun n => (4, value (setting.x .Prefix) channel n)
  /-- The ring. -/
  ring : (copies s.g.log d).length ≤ (copies s.g.log b).length ∧
    (copies s.g.log b).length ≤ (copies s.g.log a).length ∧
      (copies s.g.log a).length ≤ (copies s.g.log d).length + 1
  /-- The copies. -/
  consumed : (copies s.g.log c).length ≤ (copies s.g.log a).length ∧
    (copies s.g.log a).length ≤ (copies s.g.log c).length + 1
  /-- Some process can go on. -/
  busy : s.idles = false

end Commstime

end Microcsp
