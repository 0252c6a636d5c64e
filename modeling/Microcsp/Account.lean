import Microcsp.Attendance

/-!
# The account of an interrupt channel

An observer counts the interrupts that are handled for an interrupt channel and adds up the counts
that are stored at the destinations of its guards. With the count in the channel they balance, and
the process that uses the channel does not wait while there is something to receive.
-/

open Library

namespace Microcsp

/-- What an observer has noted of an interrupt channel. -/
structure Account where
  /-- The channel has been connected. -/
  connected : Bool
  /-- The interrupts handled for it since. -/
  handled : Nat
  /-- The sum of the counts stored since. -/
  stored : Nat
  deriving DecidableEq, Repr

/-- The number that the bytes of an `int` stand for. -/
def intOf (bytes : Buffer) : Nat := bytes.foldr (fun byte high => byte.toNat + 256 * high) 0

/-- What the observer notes of one step: a handler finds the channel connected to its interrupt, the
end of `disable_alt` stores at the destination of its guard, or the channel is connected. -/
def Account.note (x : ChanId) (label : Label) (s s' : State) (a : Account) : Account :=
  match label, s.stack with
  | .run, .userHandler intrsrc :: _ =>
    if s.g.channelForInterrupt (intrsrc - intrUser0) = some x then
      { a with handled := a.handled + 1 }
    else a
  | .run, .disableAlt p (.loop _ 0 _) :: _ =>
    match (s.g.guard p (s.g.proc p).alt.index).kind with
    | .interrupt y (some dest) =>
      if y = x then { a with stored := a.stored + intOf (s'.g.read (some dest)) } else a
    | _ => a
  | .user (.connect y _), _ => if y = x then ⟨true, 0, 0⟩ else a
  | _, _ => a

/-! ## Conditions -/

/-- The channel is connected once. -/
def connectedOnce (x : ChanId) (label : Label) (a : Account) : Bool :=
  match label with
  | .user (.connect y _) => decide (y ≠ x) || !a.connected
  | _ => true

/-- Guards for the channel are enabled when it is connected. -/
def usedConnected (x : ChanId) (label : Label) (s : State) (a : Account) : Bool :=
  match label, s.stack with
  | .run, .enableAlt q (.loop i _ _) :: _ => !(s.g.guard q i).expects x || a.connected
  | _, _ => true

/-- Fewer than 2^31 interrupts are pending. -/
def fewPending (x : ChanId) (label : Label) (s : State) : Bool :=
  match label, s.stack with
  | .run, .userHandler _ :: _ => decide ((s.g.ichan x).count + 1 < 2 ^ 31)
  | _, _ => true

/-- The conditions on the use of the channel by the process. -/
def receives (x : ChanId) (p : Addr) (label : Label) (both : State × Account) : Bool :=
  findsItself label both.1 && takenOnce p label both.1 && usedBy x p label both.1 &&
    connectedOnce x label both.2 && usedConnected x label both.1 both.2 && fewPending x label both.1

/-! ## The balance -/

/-- The account balances with the channel. -/
structure Balanced (x : ChanId) (s : State) (a : Account) : Prop where
  /-- What is handled is stored or still in the channel. -/
  sum : a.stored + (s.g.ichan x).count = a.handled
  /-- The count fits in an `int`. -/
  few : (s.g.ichan x).count < 2 ^ 31
  /-- Before it is connected the channel is not in use. -/
  unused : a.connected = false → (s.g.ichan x) = ⟨none, 0⟩ ∧
    ∀ i, s.g.channelForInterrupt i ≠ some x

/-- Reading an `int` gives the number stored. -/
theorem intOf_intBytes {n : Nat} (small : n < 2 ^ 32) : intOf (Globals.intBytes n) = n := by
  simp only [Globals.intBytes, intOf, List.range, List.range.loop, List.map_cons, List.map_nil,
    List.foldr_cons, List.foldr_nil, UInt8.toNat_ofNat']
  omega

section Steps

variable {x : ChanId} {rest : List Act} {g : Globals}

/-- The activations that change interrupt channels. -/
def Act.interrupts : Act → Bool
  | .enableAlt _ _ | .disableAlt _ _ | .userHandler _ => true
  | _ => false

/-- The others leave them alone. -/
theorem exec_leaves {act : Act} (other : act.interrupts = false) :
    (exec act g).All (fun _ g' => g'.ichan = g.ichan ∧ g'.channelForInterrupt = g.channelForInterrupt)
      rest := by
  cases act with
  | main pc =>
    cases pc <;> simp only [exec, execMain] <;> (repeat' split) <;> trivial
  | select base pc =>
    cases pc <;> simp only [exec, execSelect] <;> (repeat' split) <;>
      trivial
  | schedule base p pc =>
    cases pc <;> simp only [exec, execSchedule, callDisableAlt] <;> (repeat' split) <;>
      trivial
  | take pri pc =>
    cases pc <;> simp only [exec, execTake] <;> (repeat' split) <;> trivial
  | append p pc =>
    cases pc <;> simp only [exec, execAppend] <;> (repeat' split) <;> trivial
  | start args pc =>
    cases pc <;> simp only [exec, execStart] <;> (repeat' split) <;>
      trivial
  | rtc p => trivial
  | ready q pc =>
    cases pc <;> simp only [exec, execReady, callSchedule] <;> (repeat' split) <;>
      trivial
  | signal intr saved pc =>
    cases pc <;> simp only [exec, execSignal, callScheduleAtCurrent, callSchedule] <;>
      (repeat' split) <;> trivial
  | timeoutHandler pc =>
    cases pc <;> simp only [exec, execTimeoutHandler, readyOrFault] <;> (repeat' split) <;>
      trivial
  | enableAlt p pc => cases other
  | disableAlt p pc => cases other
  | userHandler intrsrc => cases other

/-- `enable_alt` counts nothing, and changes a channel only at a guard for it. -/
theorem execEnableAlt_counts {q : Addr} {pc : EnablePc} :
    (execEnableAlt q pc g).All (fun _ g' => (g'.ichan x).count = (g.ichan x).count ∧
      g'.channelForInterrupt = g.channelForInterrupt ∧
      ((∀ i k partner, pc = .loop i k partner → (g.guard q i).expects x = false) →
        g'.ichan x = g.ichan x)) rest := by
  cases pc with
  | loop i k partner =>
    simp only [execEnableAlt]
    split
    · split
      · rename_i active
        split
        · split <;> exact ⟨rfl, rfl, fun _ => rfl⟩
        · exact ⟨rfl, rfl, fun _ => rfl⟩
        · exact ⟨rfl, rfl, fun _ => rfl⟩
        · split <;> exact ⟨rfl, rfl, fun _ => rfl⟩
        · rename_i y dest kind
          have guard : g.guard q i = ⟨.interrupt y dest, true⟩ := by
            rw [Globals.guard, ← kind, ← active]
          have stored : ((((g.emit (.enabled q i)).disable).enableInterruptChannel y).2).ichan =
              Function.update g.ichan y ((g.ichan y).enable g.current).2 := rfl
          have count : ((g.ichan y).enable g.current).2.count = (g.ichan y).count := by
            unfold InterruptChannel.enable
            split <;> rfl
          have both : (((((g.emit (.enabled q i)).disable).enableInterruptChannel y).2).ichan x).count =
              (g.ichan x).count ∧ ((g.guard q i).expects x = false →
                ((((g.emit (.enabled q i)).disable).enableInterruptChannel y).2).ichan x =
                  g.ichan x) := by
            rw [stored]
            by_cases same : x = y
            · subst same
              rw [Function.update_self]
              exact ⟨count, fun none => absurd none (by simp [guard, Guard.expects])⟩
            · rw [Function.update_of_ne same]
              exact ⟨rfl, fun _ => rfl⟩
          split
          · exact ⟨both.1, rfl, fun none => both.2 (none i k partner rfl)⟩
          · exact ⟨both.1, rfl, fun none => both.2 (none i k partner rfl)⟩
      · exact ⟨rfl, rfl, fun _ => rfl⟩
    · split
      · trivial
      · exact ⟨rfl, rfl, fun _ => rfl⟩
  | enter =>
    simp only [execEnableAlt]
    repeat' split
    all_goals first | trivial | exact ⟨rfl, rfl, fun _ => rfl⟩
  | insert i k t partner =>
    simp only [execEnableAlt]
    split
    · trivial
    · exact ⟨rfl, rfl, fun _ => rfl⟩
  | done i k found partner => exact ⟨rfl, rfl, fun _ => rfl⟩

/-- The guard at the end of `disable_alt` receives from the interrupt channel. -/
def DisablePc.receivesFrom (x : ChanId) (kind : GuardKind) : DisablePc → Prop
  | .loop _ 0 _ => ∃ dest, kind = .interrupt x dest
  | _ => False

/-- `disable_alt` leaves the count alone, except where it receives from the channel. -/
theorem execDisableAlt_counts {q : Addr} {pc : DisablePc}
    (other : ¬ pc.receivesFrom x (g.guard q (g.proc q).alt.index).kind) :
    (execDisableAlt q pc g).All (fun _ g' => (g'.ichan x).count = (g.ichan x).count ∧
      g'.channelForInterrupt = g.channelForInterrupt ∧
      (g.ichan x = ⟨none, 0⟩ → g'.ichan x = ⟨none, 0⟩)) rest := by
  cases pc with
  | loop i left partner =>
    cases left with
    | zero =>
      simp only [execDisableAlt]
      split
      · exact ⟨rfl, rfl, id⟩
      · rename_i y dest kind
        have apart : x ≠ y := by
          rintro rfl
          exact other ⟨dest, kind⟩
        have same : ((g.disable.receiveInterrupt y dest).enable).ichan x = g.ichan x :=
          Function.update_of_ne apart _ _
        refine ⟨congrArg InterruptChannel.count same, rfl, fun unused => same.trans unused⟩
      · exact ⟨rfl, rfl, id⟩
    | succ left =>
      simp only [execDisableAlt]
      split
      · trivial
      · split
        · split
          · exact ⟨rfl, rfl, id⟩
          · exact ⟨rfl, rfl, id⟩
          · exact ⟨rfl, rfl, id⟩
          · exact ⟨rfl, rfl, id⟩
          · rename_i y dest kind
            have stored : ∀ z, Function.update g.ichan y ((g.ichan y).disable).2 z =
                if z = y then { g.ichan y with waiting := none } else g.ichan z := fun z => by
              rw [Function.update_apply]
              rfl
            refine ⟨?_, rfl, fun unused => ?_⟩
            · refine (congrArg InterruptChannel.count (stored x)).trans ?_
              split
              · rename_i same
                rw [same]
              · rfl
            · refine (stored x).trans ?_
              split
              · rename_i same
                rw [← same, unused]
              · exact unused
        · exact ⟨rfl, rfl, id⟩
  | enter => exact ⟨rfl, rfl, id⟩
  | copy c dest len partner =>
    simp only [execDisableAlt]
    split
    · trivial
    · exact ⟨rfl, rfl, id⟩
  | clear c partner => exact ⟨rfl, rfl, id⟩

/-- A handler counts an interrupt in the channel that is connected. -/
theorem execUserHandler_counts {intrsrc : Nat} :
    (execUserHandler intrsrc g).All (fun _ g' => g'.channelForInterrupt = g.channelForInterrupt ∧
      if g.channelForInterrupt (intrsrc - intrUser0) = some x then
        (g'.ichan x).count = (g.ichan x).count + 1 ∧ (g'.ichan x).count < 2 ^ 31
      else g'.ichan x = g.ichan x) rest := by
  cases connected : g.channelForInterrupt (intrsrc - intrUser0) with
  | none =>
    simp only [execUserHandler, connected]
    exact ⟨rfl, rfl⟩
  | some y =>
    by_cases few : (g.ichan y).count + 1 < 2 ^ 31
    · have counted : (g.setIchan y { g.ichan y with count := (g.ichan y).count + 1 }).ichan =
          Function.update g.ichan y { g.ichan y with count := (g.ichan y).count + 1 } := rfl
      have both : if some y = some x then
          ((g.setIchan y { g.ichan y with count := (g.ichan y).count + 1 }).ichan x).count =
            (g.ichan x).count + 1 ∧
          ((g.setIchan y { g.ichan y with count := (g.ichan y).count + 1 }).ichan x).count < 2 ^ 31
          else (g.setIchan y { g.ichan y with count := (g.ichan y).count + 1 }).ichan x = g.ichan x := by
        rw [counted]
        by_cases same : y = x
        · subst same
          rw [if_pos rfl, Function.update_self]
          exact ⟨rfl, few⟩
        · rw [if_neg fun eq => same (Option.some.inj eq)]
          exact Function.update_of_ne (Ne.symm same) _ _
      simp only [execUserHandler, connected, if_pos few]
      cases waits : ((g.setIchan y { g.ichan y with count := (g.ichan y).count + 1 }).ichan y).waiting with
      | none => exact ⟨rfl, both⟩
      | some q => exact ⟨rfl, both⟩
    · simp only [execUserHandler, connected, if_neg few]
      trivial

end Steps

section Balance

variable {x : ChanId} {p : Addr} {rest : List Act} {g : Globals} {a : Account} {after : State}

/-- Where nothing is counted or received, the account stays balanced. -/
theorem Balanced.same {before : State} (balanced : Balanced x before a)
    (count : (after.g.ichan x).count = (before.g.ichan x).count)
    (channels : ∀ i, after.g.channelForInterrupt i = some x → before.g.channelForInterrupt i = some x)
    (unused : a.connected = false → before.g.ichan x = ⟨none, 0⟩ → after.g.ichan x = ⟨none, 0⟩) :
    Balanced x after a where
  sum := by
    rw [count]
    exact balanced.sum
  few := by
    rw [count]
    exact balanced.few
  unused unconnected := by
    obtain ⟨idle, nowhere⟩ := balanced.unused unconnected
    exact ⟨unused unconnected idle, fun i connected => nowhere i (channels i connected)⟩

theorem balanced_enableAlt {q : Addr} {pc : EnablePc}
    (used : usedConnected x .run ⟨.enableAlt q pc :: rest, g, none⟩ a = true)
    (balanced : Balanced x ⟨.enableAlt q pc :: rest, g, none⟩ a)
    (stepped : step .run ⟨.enableAlt q pc :: rest, g, none⟩ = some after) : Balanced x after a := by
  have counts : (after.g.ichan x).count = (g.ichan x).count ∧
      after.g.channelForInterrupt = g.channelForInterrupt ∧
      ((∀ i k partner, pc = .loop i k partner → (g.guard q i).expects x = false) →
        after.g.ichan x = g.ichan x) :=
    execEnableAlt_counts.apply ⟨rfl, rfl, fun _ => rfl⟩ stepped
  obtain ⟨count, channels, same⟩ := counts
  refine balanced.same count ?_ fun unconnected idle => (same ?_).trans idle
  · rw [channels]
    exact fun _ => id
  rintro i k partner rfl
  simpa [usedConnected, unconnected] using used

/-- Only the end of `disable_alt` stores a count. -/
theorem note_disableAlt {q : Addr} {pc : DisablePc} (s' : State)
    (other : ¬ pc.receivesFrom x (g.guard q (g.proc q).alt.index).kind) :
    Account.note x .run ⟨.disableAlt q pc :: rest, g, none⟩ s' a = a := by
  cases pc with
  | loop i left partner =>
    cases left with
    | zero =>
      cases kind : (g.guard q (g.proc q).alt.index).kind with
      | interrupt y dest =>
        have apart : y ≠ x := by
          rintro rfl
          exact other ⟨dest, kind⟩
        cases dest <;> simp [Account.note, kind, apart]
      | _ => simp [Account.note, kind]
    | succ left => rfl
  | _ => rfl

/-- What is stored can be read at the destination. -/
theorem Globals.read_receiveInterrupt (g : Globals) (dest : Ptr) :
    (g.disable.receiveInterrupt x (some dest)).enable.read (some dest) =
      Globals.intBytes (g.ichan x).count := by
  simp [Globals.read, Globals.receiveInterrupt, Globals.write, Globals.enable, Globals.disable]

theorem balanced_disableAlt {q : Addr} {pc : DisablePc}
    (used : usedBy x p .run ⟨.disableAlt q pc :: rest, g, none⟩ = true)
    (balanced : Balanced x ⟨.disableAlt q pc :: rest, g, none⟩ a)
    (stepped : step .run ⟨.disableAlt q pc :: rest, g, none⟩ = some after) :
    Balanced x after (a.note x .run ⟨.disableAlt q pc :: rest, g, none⟩ after) := by
  by_cases receives : pc.receivesFrom x (g.guard q (g.proc q).alt.index).kind
  · cases pc with
    | loop i left partner =>
      cases left with
      | zero =>
        obtain ⟨dest, kind⟩ := receives
        cases dest with
        | none => simp [usedBy, kind] at used
        | some dest =>
          have returned : execDisableAlt q (.loop i 0 partner) g = .ret (.proc partner)
              (g.disable.receiveInterrupt x (some dest)).enable := by
            have selected : ((g.proc q).alt.guards (g.proc q).alt.index).kind =
                .interrupt x (some dest) := kind
            simp only [execDisableAlt, selected]
          change (execDisableAlt q (.loop i 0 partner) g).apply _ rest = some after at stepped
          rw [returned] at stepped
          obtain rfl := Option.some.inj stepped
          have noted : a.note x .run ⟨.disableAlt q (.loop i 0 partner) :: rest, g, none⟩
              ⟨returnTo (.proc partner) rest,
                (g.disable.receiveInterrupt x (some dest)).enable, none⟩ =
              { a with stored := a.stored + (g.ichan x).count } := by
            have value : (g.ichan x).count < 2 ^ 31 := balanced.few
            simp only [Account.note, kind, if_true, Globals.read_receiveInterrupt]
            rw [intOf_intBytes (by omega)]
          have emptied : ((g.disable.receiveInterrupt x (some dest)).enable).ichan x =
              { g.ichan x with count := 0 } := Function.update_self ..
          rw [noted]
          refine ⟨?_, ?_, fun unconnected => ?_⟩
          · simp only [emptied]
            exact balanced.sum
          · simp only [emptied]
            decide
          · obtain ⟨idle, nowhere⟩ := balanced.unused unconnected
            refine ⟨emptied.trans ?_, nowhere⟩
            change { g.ichan x with count := 0 } = _
            have idle' : g.ichan x = ⟨none, 0⟩ := idle
            rw [idle']
      | succ left => exact receives.elim
    | _ => exact receives.elim
  · have counts : (after.g.ichan x).count = (g.ichan x).count ∧
        after.g.channelForInterrupt = g.channelForInterrupt ∧
        (g.ichan x = ⟨none, 0⟩ → after.g.ichan x = ⟨none, 0⟩) :=
      (execDisableAlt_counts receives).apply ⟨rfl, rfl, id⟩ stepped
    obtain ⟨count, channels, unused⟩ := counts
    rw [note_disableAlt after receives]
    refine balanced.same count ?_ fun _ => unused
    rw [channels]
    exact fun _ => id

theorem balanced_userHandler {intrsrc : Nat}
    (few : fewPending x .run ⟨.userHandler intrsrc :: rest, g, none⟩ = true)
    (balanced : Balanced x ⟨.userHandler intrsrc :: rest, g, none⟩ a)
    (stepped : step .run ⟨.userHandler intrsrc :: rest, g, none⟩ = some after) :
    Balanced x after (a.note x .run ⟨.userHandler intrsrc :: rest, g, none⟩ after) := by
  have counts : (execUserHandler intrsrc g).All (fun _ g' =>
      g'.channelForInterrupt = g.channelForInterrupt ∧
      if g.channelForInterrupt (intrsrc - intrUser0) = some x then
        (g'.ichan x).count = (g.ichan x).count + 1 ∧ (g'.ichan x).count < 2 ^ 31
      else g'.ichan x = g.ichan x) rest := execUserHandler_counts
  by_cases connected : g.channelForInterrupt (intrsrc - intrUser0) = some x
  · have noted : a.note x .run ⟨.userHandler intrsrc :: rest, g, none⟩ after =
        { a with handled := a.handled + 1 } := by
      simp [Account.note, connected]
    rw [noted]
    simp only [connected, if_true] at counts
    have small : (g.ichan x).count + 1 < 2 ^ 31 := by simpa [fewPending] using few
    have handled : after.g.channelForInterrupt = g.channelForInterrupt ∧
        (after.g.ichan x).count = (g.ichan x).count + 1 ∧ (after.g.ichan x).count < 2 ^ 31 := by
      -- the count does not overflow, so the program goes on
      change (execUserHandler intrsrc g).apply _ rest = some after at stepped
      simp only [execUserHandler, connected, if_pos small] at counts stepped
      cases waits : ((g.setIchan x { g.ichan x with count := (g.ichan x).count + 1 }).ichan x).waiting with
      | none =>
        rw [waits] at counts stepped
        obtain rfl := Option.some.inj stepped
        exact counts
      | some q =>
        rw [waits] at counts stepped
        obtain rfl := Option.some.inj stepped
        exact counts
    obtain ⟨channels, count, few⟩ := handled
    refine ⟨?_, few, fun unconnected => ?_⟩
    · have sum : a.stored + (g.ichan x).count = a.handled := balanced.sum
      simp only [count]
      omega
    · exact absurd connected ((balanced.unused unconnected).2 _)
  · have noted : a.note x .run ⟨.userHandler intrsrc :: rest, g, none⟩ after = a := by
      simp [Account.note, connected]
    rw [noted]
    simp only [connected, if_false] at counts
    have same : after.g.channelForInterrupt = g.channelForInterrupt ∧ after.g.ichan x = g.ichan x :=
      counts.apply ⟨rfl, rfl⟩ stepped
    refine balanced.same (congrArg _ same.2) ?_ fun _ idle => same.2.trans idle
    rw [same.1]
    exact fun _ => id

/-- A call of application code changes the channel only by connecting it. -/
theorem execUser_counts {op : Op} {act : Act} (other : ∀ i, op ≠ .connect x i) :
    (execUser op act g).All (fun _ g' => g'.ichan x = g.ichan x ∧
      ∀ i, g'.channelForInterrupt i = some x → g.channelForInterrupt i = some x) rest := by
  have connect : ∀ y intrno, op = .connect y intrno →
      (g.connectInterruptToChannel y intrno).ichan x = g.ichan x ∧
      ∀ i, (g.connectInterruptToChannel y intrno).channelForInterrupt i = some x →
        g.channelForInterrupt i = some x := by
    rintro y intrno rfl
    have apart : x ≠ y := by
      rintro rfl
      exact other intrno rfl
    refine ⟨Function.update_of_ne apart _ _, fun i connected => ?_⟩
    have entry : Function.update g.channelForInterrupt intrno.toNat (some y) i = some x := connected
    rw [Function.update_apply] at entry
    split at entry
    · exact absurd (Option.some.inj entry).symm apart
    · exact entry
  have disconnect : ∀ intrno : Int, ∀ i,
      (g.disconnectInterruptFromChannel intrno).channelForInterrupt i = some x →
        g.channelForInterrupt i = some x := by
    intro intrno i connected
    have entry : Function.update g.channelForInterrupt intrno.toNat none i = some x := connected
    rw [Function.update_apply] at entry
    split at entry
    · cases entry
    · exact entry
  unfold execUser
  split
  · split
    · cases op with
      | connect y intrno =>
        simp only [userRtc]
        split
        · exact connect y intrno rfl
        · trivial
      | disconnect intrno =>
        simp only [userRtc]
        split
        · exact ⟨rfl, disconnect intrno⟩
        · trivial
      | initGuard i kind =>
        simp only [userRtc]
        split
        · trivial
        · exact ⟨rfl, fun _ => id⟩
      | error why => trivial
      | ret => exact ⟨rfl, fun _ => id⟩
      | start args => exact ⟨rfl, fun _ => id⟩
      | initTimeoutGuard i t time => exact ⟨rfl, fun _ => id⟩
      | setActive i active => exact ⟨rfl, fun _ => id⟩
      | assign v bytes => exact ⟨rfl, fun _ => id⟩
      | _ =>
        simp only [userRtc]
        cases g.current with
        | none => trivial
        | some c => exact ⟨rfl, fun _ => id⟩
    · trivial
  · cases op with
    | ret => exact ⟨rfl, fun _ => id⟩
    | start args => exact ⟨rfl, fun _ => id⟩
    | connect y intrno =>
      simp only [userMain]
      split
      · exact connect y intrno rfl
      · trivial
    | _ => trivial
  · trivial

/-- Connecting the channel initialises it. -/
theorem execUser_connect {i : Int} {act : Act} :
    (execUser (.connect x i) act g).All (fun _ g' => g'.ichan x = ⟨none, 0⟩) rest := by
  have connect : (g.connectInterruptToChannel x i).ichan x = ⟨none, 0⟩ := Function.update_self ..
  unfold execUser
  split
  · split
    · simp only [userRtc]
      split
      · exact connect
      · trivial
    · trivial
  · simp only [userMain]
    split
    · exact connect
    · trivial
  · trivial

theorem balanced_user {op : Op} {act : Act} (once : connectedOnce x (.user op) a = true)
    (balanced : Balanced x ⟨act :: rest, g, none⟩ a)
    (stepped : step (.user op) ⟨act :: rest, g, none⟩ = some after) :
    Balanced x after (a.note x (.user op) ⟨act :: rest, g, none⟩ after) := by
  by_cases connects : ∃ i, op = .connect x i
  · obtain ⟨i, rfl⟩ := connects
    have noted : a.note x (.user (.connect x i)) ⟨act :: rest, g, none⟩ after = ⟨true, 0, 0⟩ := by
      simp [Account.note]
    have unconnected : a.connected = false := by simpa [connectedOnce] using once
    have fresh : after.g.ichan x = ⟨none, 0⟩ :=
      execUser_connect.apply (balanced.unused unconnected).1 stepped
    rw [noted]
    refine ⟨?_, ?_, fun unconnected => nomatch unconnected⟩
    · rw [fresh]
      rfl
    · rw [fresh]
      decide
  · have other : ∀ i, op ≠ .connect x i := fun i same => connects ⟨i, same⟩
    have noted : a.note x (.user op) ⟨act :: rest, g, none⟩ after = a := by
      cases op with
      | connect y i =>
        have apart : y ≠ x := by
          rintro rfl
          exact other i rfl
        simp [Account.note, apart]
      | _ => rfl
    have counts : after.g.ichan x = g.ichan x ∧
        ∀ i, after.g.channelForInterrupt i = some x → g.channelForInterrupt i = some x :=
      (execUser_counts other).apply ⟨rfl, fun _ => id⟩ stepped
    rw [noted]
    exact balanced.same (congrArg _ counts.1) counts.2 fun _ idle => counts.1.trans idle

/-- The other activations count and store nothing. -/
theorem balanced_other {act : Act} (other : act.interrupts = false)
    (balanced : Balanced x ⟨act :: rest, g, none⟩ a)
    (stepped : step .run ⟨act :: rest, g, none⟩ = some after) :
    Balanced x after (a.note x .run ⟨act :: rest, g, none⟩ after) := by
  have noted : a.note x .run ⟨act :: rest, g, none⟩ after = a := by
    cases act with
    | enableAlt q pc => cases other
    | disableAlt q pc => cases other
    | userHandler intrsrc => cases other
    | _ => rfl
  have same : after.g.ichan = g.ichan ∧ after.g.channelForInterrupt = g.channelForInterrupt :=
    (exec_leaves other).apply ⟨rfl, rfl⟩ stepped
  have kept : after.g.ichan x = g.ichan x := congrFun same.1 x
  rw [noted]
  refine balanced.same (congrArg _ kept) ?_ fun _ idle => kept.trans idle
  rw [same.2]
  exact fun _ => id

/-- Every step keeps the account balanced. -/
theorem balanced_step {label : Label} {before : State} (allowed : receives x p label (before, a) = true)
    (balanced : Balanced x before a) (stepped : step label before = some after) :
    Balanced x after (a.note x label before after) := by
  simp only [receives, Bool.and_eq_true] at allowed
  obtain ⟨⟨⟨⟨⟨-, -⟩, used⟩, once⟩, usedConnected⟩, few⟩ := allowed
  obtain ⟨stack, g, stopped⟩ := before
  cases stopped with
  | some why => simp [step] at stepped
  | none =>
    cases label with
    | run =>
      cases stack with
      | nil => simp [step] at stepped
      | cons act rest =>
        cases act with
        | enableAlt q pc => exact balanced_enableAlt usedConnected balanced stepped
        | disableAlt q pc => exact balanced_disableAlt used balanced stepped
        | userHandler intrsrc => exact balanced_userHandler few balanced stepped
        | _ => exact balanced_other rfl balanced stepped
    | user op =>
      cases stack with
      | nil => simp [step] at stepped
      | cons act rest => exact balanced_user once balanced stepped
    | interrupt intr =>
      simp only [step, Option.isSome_none, Bool.false_eq_true, if_false] at stepped
      split at stepped
      · obtain rfl := Option.some.inj stepped
        exact balanced.same rfl (fun _ => id) fun _ idle => idle
      · cases stepped
    | clock t =>
      obtain rfl := Option.some.inj stepped
      exact balanced.same rfl (fun _ => id) fun _ idle => idle

end Balance

/-! ## Whole runs -/

/-- The process waits on an ALT with an active guard for the interrupt channel. -/
def WaitsForInterrupt (x : ChanId) (p : Addr) (s : State) : Prop :=
  initialised s.stack s.g p = true ∧ (s.g.proc p).state = .waiting ∧
    ∃ j < (s.g.proc p).alt.nrGuards, ((s.g.proc p).alt.guards j).expects x = true

/-- What holds of the system and the observer. -/
structure Accounted (x : ChanId) (p : Addr) (s : State) (a : Account) : Prop where
  /-- Calls are nested as in the source. -/
  stacked : Stacked s.stack
  /-- The process attends to the channel. -/
  attended : Attended x p s.stack s.g
  /-- The account balances. -/
  balanced : Balanced x s a

/-- The conditions on the use of the channel, in an accounted state. -/
theorem Accounted.attends {x : ChanId} {p : Addr} {label : Label} {s : State} {a : Account}
    (inv : Accounted x p s a) (allowed : receives x p label (s, a) = true) : Attends x p label s := by
  simp only [receives, Bool.and_eq_true] at allowed
  obtain ⟨⟨⟨⟨⟨itself, once⟩, used⟩, connected⟩, -⟩, -⟩ := allowed
  refine ⟨itself, once, used, ?_⟩
  cases label with
  | user op =>
    cases op with
    | connect y intrno =>
      simp only [connectsFree, decide_eq_true_eq]
      rintro rfl
      have unconnected : a.connected = false := by simpa [connectedOnce] using connected
      rw [(inv.balanced.unused unconnected).1]
    | _ => rfl
  | _ => rfl

/-- Every observed step keeps this. -/
theorem Accounted.step {x : ChanId} {p : Addr} {label : Label} {before after : State × Account}
    (inv : Accounted x p before.1 before.2) (allowed : receives x p label before = true)
    (stepped : observed step (Account.note x) label before = some after) :
    Accounted x p after.1 after.2 := by
  obtain ⟨moved, noted⟩ := observed_eq_some.mp stepped
  rw [noted]
  exact {
    stacked := stacked_kept.step inv.stacked trivial moved
    attended := (attended_kept x p).step inv.attended ⟨inv.attends allowed, inv.stacked⟩ moved
    balanced := balanced_step allowed inv.balanced moved }

/-- It holds of a boot state and an empty account. -/
theorem accounted_boot {x : ChanId} {p : Addr} {s : State} (booted : Booted s) :
    Accounted x p s ⟨false, 0, 0⟩ := by
  obtain ⟨arena, memlen, stack, pristine⟩ := booted.uninitialised
  have unborn : initialised s.stack s.g p ≠ true := by
    rw [booted.not_initialised]
    exact Bool.false_ne_true
  refine ⟨?_, Attended.calm ?_ fun alive => absurd alive unborn, ?_⟩
  · rw [stack]
    simp [Stacked, Act.callee, Admitted]
  · rw [stack]
    exact Nat.zero_le 1
  · refine ⟨?_, ?_, fun _ => ⟨pristine.ichan x, fun i => ?_⟩⟩
    · rw [pristine.ichan x]
      rfl
    · rw [pristine.ichan x]
      decide
    · rw [pristine.connected i]
      exact (Option.some_ne_none x).symm

/-- No interrupt is lost. What is stored at the destinations of the guards and what is in the channel
add up to the interrupts handled, and the process does not wait for the channel while there is
something in it, except for the moment in which the handler is about to make it ready. -/
theorem no_interrupt_lost {x : ChanId} {p : Addr} {first last : State} {a : Account}
    (booted : Booted first) (run : Run (observed step (Account.note x))
      (fun label both => receives x p label both = true) (first, ⟨false, 0, 0⟩) (last, a)) :
    a.stored + (last.g.ichan x).count = a.handled ∧
      (WaitsForInterrupt x p last → 0 < (last.g.ichan x).count → Answering p last.stack) := by
  have inv : Accounted x p last a :=
    run.invariant (fun both => Accounted x p both.1 both.2) (accounted_boot booted)
      fun label before after inv allowed stepped => inv.step allowed stepped
  refine ⟨inv.balanced.sum, ?_⟩
  rintro ⟨alive, waiting, j, inside, expects⟩ positive
  obtain ⟨-, none | answering⟩ := inv.attended.waits alive waiting j inside expects
  · omega
  · exact answering

/-- A process waits for an interrupt and is made ready for it. A second one comes after the first has
been stored, before the process executes. -/
def interruptedTwice : List Label :=
  runs 11 ++ [.user (.connect 5 0),
    .user (startWith ⟨.interrupt 5 (some ⟨1024, 0⟩), true⟩ 1)] ++ runs 10 ++ [.user .ret] ++ runs 10 ++
    [.user (.initAlt 1), .user .ret] ++ runs 23 ++ [.interrupt 3] ++ runs 25 ++ [.interrupt 3] ++ runs 6

theorem no_interrupt_lost_twice :
    ∃ last : State, 1 + (last.g.ichan 5).count = 2 ∧
      (WaitsForInterrupt 5 1024 last → 0 < (last.g.ichan 5).count → Answering 1024 last.stack) ∧
      codeOf last.stack = some 1024 := by
  obtain ⟨⟨last, a⟩, run, checked⟩ := exists_run_of_executeUnder interruptedTwice
    (fun both : State × Account => codeOf both.1.stack == some 1024 && both.2 == ⟨true, 2, 1⟩)
    (by decide +kernel : (executeUnder (observed step (Account.note 5)) (receives 5 1024)
      interruptedTwice (zeroBoot 1000, ⟨false, 0, 0⟩)).any _ = true)
  simp only [Bool.and_eq_true, beq_iff_eq] at checked
  obtain ⟨code, rfl⟩ := checked
  have kept := no_interrupt_lost (zeroBoot_booted 1000) run
  exact ⟨last, kept.1, kept.2, code⟩

end Microcsp
