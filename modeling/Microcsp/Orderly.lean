import Microcsp.Queue

/-!
# Orderly stacks

Three things that hold of the control stack as long as no interrupt is delivered to a queue
operation: its shape, the checks that `start` has made, and that a queue operation is only ever on
top.
-/

open Library

namespace Microcsp

/-- `start` has checked its arguments, and the scheduler is initialised. -/
def Act.Sound : Act → Prop
  | .start args (.alloc index) => index < nalloc ∧ 1 ≤ args.pri ∧ args.pri ≤ priMax
  | .start args (.fill _ _) => 1 ≤ args.pri ∧ args.pri ≤ priMax
  | .main (.memoryInit _ _) => False
  | .main .schedInit => False
  | _ => True

/-- The stack has the right shape, and only its innermost activation is a queue operation. -/
structure Orderly (stack : List Act) : Prop where
  /-- Every activation stands over its caller. -/
  stacked : Stacked stack
  /-- Arguments are checked. -/
  sound : ∀ act ∈ stack, act.Sound
  /-- A queue operation is not interrupted. -/
  innermost : ∀ act ∈ stack.tail, queueing [act] = false

theorem Act.Sound.resume {act : Act} (sound : act.Sound) (v : Value) : (act.resume v).Sound := by
  unfold Act.resume
  split
  · trivial
  · trivial
  · trivial
  · exact sound

/-- A return keeps the arguments checked. -/
theorem sound_returnTo {rest : List Act} (sound : ∀ act ∈ rest, act.Sound) (v : Value) :
    ∀ act ∈ returnTo v rest, act.Sound := by
  cases rest with
  | nil => exact sound
  | cons caller under =>
    obtain ⟨first, others⟩ := List.forall_mem_cons.mp sound
    exact List.forall_mem_cons.mpr ⟨first.resume v, others⟩

@[simp] theorem tail_returnTo (v : Value) (rest : List Act) :
    (returnTo v rest).tail = rest.tail := by
  cases rest <;> rfl

theorem queueing_cons (act : Act) (rest : List Act) : queueing (act :: rest) = queueing [act] := by
  cases act <;> rfl

@[simp] theorem queueing_resume (act : Act) (v : Value) :
    queueing [act.resume v] = queueing [act] := by
  unfold Act.resume
  split <;> rfl

/-- The caller of a return is not a queue operation. -/
theorem Orderly.caller {act : Act} {rest : List Act} (orderly : Orderly (act :: rest)) (v : Value) :
    queueing (returnTo v rest) = false := by
  cases rest with
  | nil => rfl
  | cons caller under =>
    rw [returnTo, queueing_cons, queueing_resume]
    exact orderly.innermost caller List.mem_cons_self

/-- A step keeps the arguments checked if it does so on an empty stack. -/
theorem sound_all {rest : List Act} {r : Result} (sound : ∀ act ∈ rest, act.Sound)
    (alone : r.All (fun stack _ => ∀ act ∈ stack, act.Sound) []) :
    r.All (fun stack _ => ∀ act ∈ stack, act.Sound) rest := by
  cases r with
  | next act g => exact List.forall_mem_cons.mpr ⟨alone act List.mem_cons_self, sound⟩
  | call caller callee g =>
    obtain ⟨first, second⟩ := List.forall_mem_cons.mp alone
    exact List.forall_mem_cons.mpr
      ⟨first, List.forall_mem_cons.mpr ⟨second caller List.mem_cons_self, sound⟩⟩
  | ret v g => exact sound_returnTo sound v
  | stop why => trivial
  | stuck => trivial

/-- Only `start` and `main` have something to check. -/
theorem Act.Sound.of_callee {act : Act} (start : act.callee ≠ .start) (main : act.callee ≠ .main) :
    act.Sound := by
  cases act with
  | main pc => exact absurd rfl main
  | start args pc => exact absurd rfl start
  | _ => trivial

/-- An activation that calls `start` is that of an rtc function or of `main`. -/
theorem Act.admits.caller_of_start {caller : Act} (calls : caller.admits .start) :
    (∃ p, caller.callee = .rtc p) ∨ caller.callee = .main := by
  cases caller with
  | rtc p => exact Or.inl ⟨p, rfl⟩
  | main pc => exact Or.inr rfl
  | _ => exact calls.elim

/-- The steps of all others go on without them. -/
theorem sound_of_follows {act : Act} {r : Result} (start : act.callee ≠ .start)
    (main : act.callee ≠ .main) (rtc : ∀ p, act.callee ≠ .rtc p)
    (follows : r.All (fun stack _ => Follows act stack) []) :
    r.All (fun stack _ => ∀ act ∈ stack, act.Sound) [] := by
  cases r with
  | next act' g =>
    refine List.forall_mem_singleton.mpr ?_
    rcases follows with same | ⟨-, ready⟩
    · exact .of_callee (same ▸ start) (same ▸ main)
    · exact .of_callee (by rw [ready]; nofun) (by rw [ready]; nofun)
  | call caller callee g =>
    obtain ⟨same, calls, -⟩ := follows
    have sound : caller.Sound := .of_callee (same ▸ start) (same ▸ main)
    have called : callee.Sound := by
      refine .of_callee (fun is => ?_) fun is => ?_
      · rw [is] at calls
        rcases calls.caller_of_start with ⟨p, is⟩ | is
        · exact rtc p (same ▸ is)
        · exact main (same ▸ is)
      · rw [is] at calls
        exact calls.elim
    exact List.forall_mem_cons.mpr ⟨called, List.forall_mem_singleton.mpr sound⟩
  | ret v g => exact List.forall_mem_nil _
  | stop why => trivial
  | stuck => trivial

theorem execMain_sound {pc : MainPc} (sound : (Act.main pc).Sound) (g : Globals) :
    (execMain pc g).All (fun stack _ => ∀ act ∈ stack, act.Sound) [] := by
  cases pc with
  | memoryInit arena memlen => exact sound.elim
  | schedInit => exact sound.elim
  | idleAlloc =>
    simp only [execMain]
    split
    · split
      · trivial
      · exact List.forall_mem_singleton.mpr trivial
    · trivial
    · trivial
  | idleFill index record =>
    exact List.forall_mem_cons.mpr ⟨trivial, List.forall_mem_singleton.mpr trivial⟩
  | timerInit => exact List.forall_mem_singleton.mpr trivial
  | user => trivial
  | running => trivial

theorem execStart_sound {args : StartArgs} {pc : StartPc} (sound : (Act.start args pc).Sound)
    (g : Globals) : (execStart args pc g).All (fun stack _ => ∀ act ∈ stack, act.Sound) [] := by
  cases pc with
  | check =>
    simp only [execStart]
    split
    · trivial
    · split
      · rename_i index found
        have bound := findMemIndex_bound found
        exact List.forall_mem_singleton.mpr ⟨bound, by omega, by omega⟩
      · trivial
      · trivial
  | alloc index =>
    simp only [execStart]
    split
    · trivial
    · exact List.forall_mem_singleton.mpr sound.2
  | fill index record =>
    exact List.forall_mem_cons.mpr ⟨trivial, List.forall_mem_singleton.mpr trivial⟩
  | appended => exact List.forall_mem_nil _

/-- An activation's step on an empty stack keeps the arguments checked. -/
theorem exec_sound {act : Act} (sound : act.Sound) (g : Globals) :
    (exec act g).All (fun stack _ => ∀ act ∈ stack, act.Sound) [] := by
  cases act with
  | main pc => exact execMain_sound sound g
  | start args pc => exact execStart_sound sound g
  | rtc p => trivial
  | _ =>
    exact sound_of_follows (by simp [Act.callee]) (by simp [Act.callee]) (by simp [Act.callee])
      (exec_follows _ g)

/-- Every step keeps the arguments checked. -/
theorem sound_kept : Kept Always (fun stack _ => ∀ act ∈ stack, act.Sound) where
  run act rest g _ sound :=
    sound_all (List.forall_mem_cons.mp sound).2 (exec_sound (List.forall_mem_cons.mp sound).1 g)
  user op act rest g _ sound := by
    refine sound_all (List.forall_mem_cons.mp sound).2 ?_
    unfold execUser
    split
    · split
      · cases op <;> simp only [userRtc] <;> (repeat' split) <;> simp [Act.Sound]
      · trivial
    · cases op <;> simp only [userMain, callSchedule] <;> (repeat' split) <;> simp [Act.Sound]
    · trivial
  interrupt intr stack g _ _ _ sound := List.forall_mem_cons.mpr ⟨trivial, sound⟩
  clock t stack g _ sound := sound

/-- Queue operations call nothing. -/
theorem Act.admits.not_queueing {caller : Act} {callee : Callee} (calls : caller.admits callee)
    (other : callee ≠ .signal) : queueing [caller] = false := by
  cases caller with
  | take pri pc => cases callee <;> first | exact absurd rfl other | exact calls.elim
  | append p pc => cases callee <;> first | exact absurd rfl other | exact calls.elim
  | _ => rfl

/-- A step keeps queue operations innermost. -/
theorem innermost_all {act : Act} {rest : List Act} {r : Result}
    (innermost : ∀ act ∈ rest, queueing [act] = false)
    (follows : r.All (fun stack _ => Follows act stack) []) :
    r.All (fun stack _ => ∀ act ∈ stack.tail, queueing [act] = false) rest := by
  cases r with
  | next act g => exact innermost
  | call caller callee g =>
    obtain ⟨-, calls, other⟩ := follows
    exact List.forall_mem_cons.mpr ⟨calls.not_queueing other, innermost⟩
  | ret v g =>
    rw [Result.all_ret, tail_returnTo]
    exact fun act mem => innermost act (List.mem_of_mem_tail mem)
  | stop why => trivial
  | stuck => trivial

/-- Queue operations stay innermost while no interrupt is delivered to them. -/
theorem innermost_kept : Kept (fun label s => undisturbed label s = true)
    (fun stack _ => ∀ act ∈ stack.tail, queueing [act] = false) where
  run act rest g _ innermost := innermost_all innermost (exec_follows act g)
  user op act rest g _ innermost := innermost_all innermost (execUser_follows op act g)
  interrupt intr stack g allowed _ _ innermost := by
    cases stack with
    | nil => simp
    | cons top rest =>
      have other : queueing (top :: rest) = false := by simpa [undisturbed] using allowed
      rw [queueing_cons] at other
      exact List.forall_mem_cons.mpr ⟨other, innermost⟩
  clock t stack g _ innermost := innermost

/-- While no interrupt disturbs a queue operation, the stack stays orderly. -/
theorem orderly_kept : Kept (fun label s => undisturbed label s = true)
    (fun stack _ => Orderly stack) := by
  have all := ((stacked_kept.and (sound_kept.mono fun _ _ _ => trivial)).mono
    (fun _ _ _ => trivial)).and (innermost_kept.mono fun _ _ allowed => allowed.1)
  have same : (fun (stack : List Act) (_ : Globals) => Orderly stack) = fun stack _ =>
      (Stacked stack ∧ ∀ act ∈ stack, act.Sound) ∧
        ∀ act ∈ stack.tail, queueing [act] = false := by
    funext stack g
    exact propext ⟨fun orderly => ⟨⟨orderly.stacked, orderly.sound⟩, orderly.innermost⟩,
      fun parts => ⟨parts.1.1, parts.1.2, parts.2⟩⟩
  rw [same]
  exact all

/-- After `sched_init` the stack is orderly. -/
theorem orderly_init : Orderly [.main .idleAlloc] where
  stacked := ⟨by simp [Admitted, Act.callee], trivial⟩
  sound := by simp [Act.Sound]
  innermost := by simp

end Microcsp
