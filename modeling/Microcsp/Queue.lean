import Microcsp.Library.LinkedFifo
import Microcsp.Steps

/-!
# The ready-queue operations as wholes

`take` and `append` go through several points, but where no interrupt is delivered to them nothing
else happens in between. Invariants of such runs are stated of the state that the operation in
progress will lead to, which makes each operation a single change of the queue.
-/

open Library

namespace Microcsp

namespace Globals

variable (g : Globals) (p : Addr) (pri : Nat)

/-! ## `take` -/

/-- `take` from `priority_mask &= ~mask[pri]` on. -/
def takeMask : Option Addr × Globals :=
  (some p, { g with priorityMask := g.priorityMask &&& ~~~levelMask pri }.emit (.took p))

/-- `take` from `queue->tail = NULL` on. -/
def takeTail : Option Addr × Globals := (g.setTail pri none).takeMask p pri

/-- `take` from `if (queue->head == NULL)` on. -/
def takeTest : Option Addr × Globals :=
  match (g.readyQ pri).head with
  | none => g.takeTail p pri
  | some _ => (some p, g.emit (.took p))

/-- `take` from `queue->head = proc->next` on. -/
def takeNext : Option Addr × Globals := (g.setHead pri (g.mem.link p)).takeTest p pri

/-- `take` from its start. -/
def takeHead : Option Addr × Globals :=
  match (g.readyQ pri).head with
  | none => (none, g)
  | some p => g.takeNext p pri

/-- `take` from a point on. -/
def takeFrom : TakePc → Option Addr × Globals
  | .head => g.takeHead pri
  | .next p => g.takeNext p pri
  | .test p => g.takeTest p pri
  | .tail p => g.takeTail p pri
  | .mask p => g.takeMask p pri

/-! ## `append` -/

/-- `append` from `priority_mask |= mask[proc->pri]` on. -/
def appendMask : Globals :=
  { g with priorityMask := g.priorityMask ||| levelMask (g.proc p).pri }

/-- `append` from `queue->head = proc` on. -/
def appendHead : Globals := (g.setHead (g.proc p).pri (some p)).appendMask p

/-- `append` from `if (queue->head == NULL)` on. -/
def appendTest : Globals :=
  match (g.readyQ (g.proc p).pri).head with
  | none => g.appendHead p
  | some _ => g

/-- `append` from `proc->next = NULL` on. -/
def appendNext : Globals := (g.setLink p none).appendTest p

/-- `append` from `queue->tail = proc` on. -/
def appendTail : Globals := (g.setTail (g.proc p).pri (some p)).appendNext p

/-- `append` from its start. -/
def appendLink : Globals :=
  match (g.readyQ (g.proc p).pri).tail with
  | none => g.appendTail p
  | some last => (g.setLink last (some p)).appendTail p

/-- `append` from a point on. -/
def appendFrom : AppendPc → Globals
  | .link => g.appendLink p
  | .tail => g.appendTail p
  | .next => g.appendNext p
  | .test => g.appendTest p
  | .head => g.appendHead p
  | .mask => g.appendMask p

/-! ## What they change -/

/-- `take` from a queue that is not empty, as one change. -/
def dequeue : Globals :=
  let next := g.mem.link p
  { g with
    readyQ := Function.update g.readyQ pri
      ⟨next, if next = none then none else (g.readyQ pri).tail⟩
    priorityMask := if next = none then g.priorityMask &&& ~~~levelMask pri else g.priorityMask
    log := .took p :: g.log }

/-- `append`, as one change. -/
def enqueue : Globals :=
  let queue := g.readyQ (g.proc p).pri
  let link := match queue.tail with
    | none => g.mem.link
    | some last => Function.update g.mem.link last (some p)
  { g with
    readyQ := Function.update g.readyQ (g.proc p).pri ⟨queue.head.or (some p), some p⟩
    mem := { g.mem with link := Function.update link p none }
    priorityMask :=
      if queue.head = none then g.priorityMask ||| levelMask (g.proc p).pri else g.priorityMask }

/-- `take` as a whole. -/
theorem takeHead_eq : g.takeHead pri = match (g.readyQ pri).head with
    | none => (none, g)
    | some p => (some p, g.dequeue p pri) := by
  unfold takeHead
  cases head : (g.readyQ pri).head with
  | none => rfl
  | some p =>
    cases next : g.mem.link p <;>
      simp [takeNext, takeTest, takeTail, takeMask, dequeue, setHead, setTail, emit, next,
        Function.update_idem]

/-- `append` as a whole. -/
theorem appendLink_eq : g.appendLink p = g.enqueue p := by
  unfold appendLink
  cases tail : (g.readyQ (g.proc p).pri).tail <;> cases head : (g.readyQ (g.proc p).pri).head <;>
    simp [appendTail, appendNext, appendTest, appendHead, appendMask, enqueue, setTail, setHead,
      setLink, Memory.setLink, head, tail, Function.update_idem]

@[simp] theorem enqueue_proc : (g.enqueue p).proc = g.proc := rfl

@[simp] theorem enqueue_log : (g.enqueue p).log = g.log := rfl

/-- `take` records at most its result. -/
theorem takeFrom_log (pc : TakePc) : (g.takeFrom pri pc).2.log = g.log ∨
    ∃ p, (g.takeFrom pri pc).2.log = .took p :: g.log := by
  have test : ∀ (g : Globals) (p : Addr), (g.takeTest p pri).2.log = .took p :: g.log := by
    intro g p
    unfold takeTest
    split <;> rfl
  cases pc with
  | head =>
    simp only [takeFrom, takeHead]
    split
    · exact Or.inl rfl
    · exact Or.inr ⟨_, test (g.setHead pri _) _⟩
  | next p => exact Or.inr ⟨p, test (g.setHead pri _) p⟩
  | test p => exact Or.inr ⟨p, test g p⟩
  | tail p => exact Or.inr ⟨p, rfl⟩
  | mask p => exact Or.inr ⟨p, rfl⟩

/-- `take` touches no channel and no timeout. -/
theorem takeFrom_frame (pc : TakePc) :
    ((g.takeFrom pri pc).2.chan, (g.takeFrom pri pc).2.ichan, (g.takeFrom pri pc).2.timer) =
      (g.chan, g.ichan, g.timer) := by
  have test : ∀ (g : Globals) (p : Addr),
      ((g.takeTest p pri).2.chan, (g.takeTest p pri).2.ichan, (g.takeTest p pri).2.timer) =
        (g.chan, g.ichan, g.timer) := by
    intro g p
    unfold takeTest
    split <;> rfl
  cases pc with
  | head =>
    simp only [takeFrom, takeHead]
    split
    · rfl
    · exact test (g.setHead pri _) _
  | next p => exact test (g.setHead pri _) p
  | test p => exact test g p
  | tail p => rfl
  | mask p => rfl

/-- `append` records nothing and touches no process record, no channel and no timeout. -/
theorem appendFrom_frame (pc : AppendPc) :
    ((g.appendFrom p pc).log, (g.appendFrom p pc).proc, (g.appendFrom p pc).chan,
      (g.appendFrom p pc).ichan, (g.appendFrom p pc).timer) =
      (g.log, g.proc, g.chan, g.ichan, g.timer) := by
  have test : ∀ g : Globals, ((g.appendTest p).log, (g.appendTest p).proc, (g.appendTest p).chan,
      (g.appendTest p).ichan, (g.appendTest p).timer) =
      (g.log, g.proc, g.chan, g.ichan, g.timer) := by
    intro g
    unfold appendTest
    split <;> rfl
  cases pc with
  | link =>
    simp only [appendFrom, appendLink]
    split
    · exact test _
    · exact test _
  | tail => exact test _
  | next => exact test _
  | test => exact test g
  | head => rfl
  | mask => rfl

theorem appendFrom_log (pc : AppendPc) : (g.appendFrom p pc).log = g.log :=
  (Prod.mk.inj (g.appendFrom_frame p pc)).1

theorem appendFrom_proc (pc : AppendPc) : (g.appendFrom p pc).proc = g.proc :=
  (Prod.mk.inj (Prod.mk.inj (g.appendFrom_frame p pc)).2).1

/-- `append` empties no queue. -/
theorem appendFrom_head {pc : AppendPc} {i : Nat}
    (empty : ((g.appendFrom p pc).readyQ i).head = none) : (g.readyQ i).head = none := by
  have head : ∀ g : Globals, ((g.appendHead p).readyQ i).head = none →
      (g.readyQ i).head = none := by
    intro g empty
    by_cases own : i = (g.proc p).pri
    · subst own
      simp [appendHead, appendMask] at empty
    · simpa [appendHead, appendMask, setHead, Function.update_of_ne own] using empty
  have test : ∀ g : Globals, ((g.appendTest p).readyQ i).head = none →
      (g.readyQ i).head = none := by
    intro g empty
    unfold appendTest at empty
    split at empty
    · exact head g empty
    · exact empty
  have tail : ∀ g : Globals, ((g.appendTail p).readyQ i).head = none →
      (g.readyQ i).head = none := by
    intro g empty
    have before := test ((g.setTail (g.proc p).pri (some p)).setLink p none) empty
    by_cases own : i = (g.proc p).pri
    · subst own
      simpa [setTail] using before
    · simpa [setTail, Function.update_of_ne own] using before
  cases pc with
  | link =>
    simp only [appendFrom, appendLink] at empty
    split at empty
    · exact tail g empty
    · exact tail (g.setLink _ (some p)) empty
  | tail => exact tail g empty
  | next => exact test (g.setLink p none) empty
  | test => exact test g empty
  | head => exact head g empty
  | mask => exact empty

/-- The clock may move during `take`. -/
theorem takeFrom_clock (pc : TakePc) (t : Time) :
    ({ g with now := t } : Globals).takeFrom pri pc =
      ((g.takeFrom pri pc).1, { (g.takeFrom pri pc).2 with now := t }) := by
  have test : ∀ (g : Globals) (p : Addr), ({ g with now := t } : Globals).takeTest p pri =
      ((g.takeTest p pri).1, { (g.takeTest p pri).2 with now := t }) := by
    intro g p
    unfold takeTest
    cases head : (g.readyQ pri).head <;> rfl
  cases pc with
  | head =>
    simp only [takeFrom, takeHead]
    cases head : (g.readyQ pri).head with
    | none => rfl
    | some p => exact test (g.setHead pri (g.mem.link p)) p
  | next p => exact test (g.setHead pri (g.mem.link p)) p
  | test p => exact test g p
  | tail p => rfl
  | mask p => rfl

/-- The clock may move during `append`. -/
theorem appendFrom_clock (pc : AppendPc) (t : Time) :
    ({ g with now := t } : Globals).appendFrom p pc = { g.appendFrom p pc with now := t } := by
  have test : ∀ g : Globals, ({ g with now := t } : Globals).appendTest p =
      { g.appendTest p with now := t } := by
    intro g
    unfold appendTest
    cases head : (g.readyQ (g.proc p).pri).head <;> rfl
  cases pc with
  | link =>
    simp only [appendFrom, appendLink]
    cases tail : (g.readyQ (g.proc p).pri).tail with
    | none => exact test ((g.setTail (g.proc p).pri (some p)).setLink p none)
    | some last =>
      exact test (((g.setLink last (some p)).setTail (g.proc p).pri (some p)).setLink p none)
  | tail => exact test ((g.setTail (g.proc p).pri (some p)).setLink p none)
  | next => exact test (g.setLink p none)
  | test => exact test g
  | head => rfl
  | mask => rfl

end Globals

/-! ## Settled states -/

/-- The property holds when the `take` or `append` in progress, if there is one, has completed. -/
def Settled (P : List Act → Globals → Prop) : List Act → Globals → Prop
  | .take pri pc :: rest, g =>
    P (returnTo (.proc (g.takeFrom pri pc).1) rest) (g.takeFrom pri pc).2
  | .append p pc :: rest, g => P rest (g.appendFrom p pc)
  | stack, g => P stack g

/-- A queue operation is in progress on top of the stack. -/
def queueing : List Act → Bool
  | .take _ _ :: _ => true
  | .append _ _ :: _ => true
  | _ => false

/-- The callers of `append` are not queue operations. -/
theorem Admitted.not_queueing_of_append {p : Addr} {stack : List Act}
    (atop : Admitted (.append p) stack) : queueing stack = false := by
  obtain ⟨rest, rfl | ⟨args, rfl⟩ | rfl⟩ := atop.caller_of_append <;> rfl

theorem settled_of_not_queueing {P : List Act → Globals → Prop} {stack : List Act} {g : Globals}
    (other : queueing stack = false) : Settled P stack g ↔ P stack g := by
  unfold Settled
  split
  · cases other
  · cases other
  · rfl

/-- What holds of settled states may be weakened. -/
theorem Settled.imp {P Q : List Act → Globals → Prop} {stack : List Act} {g : Globals}
    (settled : Settled P stack g) (weaken : ∀ stack g, P stack g → Q stack g) :
    Settled Q stack g := by
  unfold Settled at settled ⊢
  split at settled
  · exact weaken _ _ settled
  · exact weaken _ _ settled
  · exact weaken _ _ settled

/-- Two properties of settled states hold together. -/
theorem Settled.and {P Q : List Act → Globals → Prop} {stack : List Act} {g : Globals}
    (left : Settled P stack g) (right : Settled Q stack g) :
    Settled (fun stack g => P stack g ∧ Q stack g) stack g := by
  cases stack with
  | nil => exact ⟨left, right⟩
  | cons act rest => cases act <;> exact ⟨left, right⟩

section Settled

variable {P : List Act → Globals → Prop} {rest : List Act} {g : Globals}

/-- A step of `take` leads where the whole operation leads. -/
theorem execTake_settled {pri : Nat} {pc : TakePc} (atop : Admitted .take rest)
    (held : Settled P (.take pri pc :: rest) g) : (execTake pri pc g).All (Settled P) rest := by
  obtain ⟨base, under, rfl⟩ := atop.caller_of_take
  cases pc with
  | head =>
    simp only [Settled, Globals.takeFrom, Globals.takeHead] at held
    simp only [execTake]
    cases head : (g.readyQ pri).head with
    | none =>
      simp only [head] at held
      exact held
    | some p =>
      simp only [head] at held
      exact held
  | next p => exact held
  | test p =>
    simp only [Settled, Globals.takeFrom, Globals.takeTest] at held
    simp only [execTake]
    cases head : (g.readyQ pri).head with
    | none =>
      simp only [head] at held
      exact held
    | some q =>
      simp only [head] at held
      exact held
  | tail p => exact held
  | mask p => exact held

/-- A step of `append` leads where the whole operation leads. -/
theorem execAppend_settled {p : Addr} {pc : AppendPc} (atop : Admitted (.append p) rest)
    (held : Settled P (.append p pc :: rest) g) : (execAppend p pc g).All (Settled P) rest := by
  have caller : queueing rest = false := atop.not_queueing_of_append
  have settled : ∀ g, P rest g → Settled P rest g := fun g =>
    (settled_of_not_queueing caller).mpr
  cases pc with
  | link =>
    simp only [Settled, Globals.appendFrom, Globals.appendLink] at held
    simp only [execAppend]
    cases tail : (g.readyQ (g.proc p).pri).tail with
    | none =>
      simp only [tail] at held
      exact held
    | some last =>
      simp only [tail] at held
      exact held
  | tail => exact held
  | next => exact held
  | test =>
    simp only [Settled, Globals.appendFrom, Globals.appendTest] at held
    simp only [execAppend]
    cases head : (g.readyQ (g.proc p).pri).head with
    | none =>
      simp only [head] at held
      exact held
    | some q =>
      simp only [head] at held
      rw [Result.all_ret, returnTo_unit]
      exact settled g held
  | head => exact held
  | mask =>
    rw [execAppend, Result.all_ret, returnTo_unit]
    exact settled _ held

end Settled

/-- No interrupt is delivered to a queue operation. -/
def undisturbed (label : Label) (s : State) : Bool :=
  match label with
  | .interrupt _ => !queueing s.stack
  | _ => true

/-- The invariant rule for settled states. -/
theorem Kept.settled {ok : Label → State → Prop} {P : List Act → Globals → Prop}
    (quiet : ∀ label s, ok label s → undisturbed label s = true ∧ Stacked s.stack)
    (run : ∀ act rest g, queueing (act :: rest) = false → ok .run ⟨act :: rest, g, none⟩ →
      P (act :: rest) g → (exec act g).All (Settled P) rest)
    (user : ∀ op act rest g, ok (.user op) ⟨act :: rest, g, none⟩ → P (act :: rest) g →
      (execUser op act g).All (Settled P) rest)
    (interrupt : ∀ intr stack g, ok (.interrupt intr) ⟨stack, g, none⟩ → intr < nintrSources →
      g.blocked intr = false → P stack g → P (.signal intr g.blocked .enter :: stack) g.disable)
    (clock : ∀ t stack g, P stack g → P stack { g with now := t }) :
    Kept ok (Settled P) where
  run act rest g allowed held := by
    obtain ⟨atop, -⟩ : Stacked (act :: rest) := (quiet _ _ allowed).2
    cases act with
    | take pri pc => exact execTake_settled atop held
    | append p pc => exact execAppend_settled atop held
    | _ => exact run _ rest g rfl allowed held
  user op act rest g allowed held := by
    cases act with
    | take pri pc => trivial
    | append p pc => trivial
    | _ => exact user op _ rest g allowed held
  interrupt intr stack g allowed known unblocked held := by
    have other : queueing stack = false := by simpa [undisturbed] using (quiet _ _ allowed).1
    exact interrupt intr stack g allowed known unblocked ((settled_of_not_queueing other).mp held)
  clock t stack g allowed held := by
    unfold Settled at held ⊢
    split at held
    · simp only [Globals.takeFrom_clock]
      exact clock t _ _ held
    · simp only [Globals.appendFrom_clock]
      exact clock t _ _ held
    · exact clock t _ _ held

end Microcsp
