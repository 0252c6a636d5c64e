import Microcsp.Ownership

/-!
# Taking turns

A queued process keeps its turn. As long as it is not taken, processes leave its queue only from before
it, and come only behind all others: none overtakes it, and none behind it is lost. This rests on what
`readyProcessIfNecessary` is called for, because appending a process that is queued already cuts its
queue off before that process.
-/

open Library

namespace Microcsp

namespace Sched

universe u

variable {P : Type u} [DecidableEq P] {s : Sched P} {a : SchedAct P} {level : Nat} {p : P}
  {ahead behind : List P}

/-- The process that an action takes out of its queue. -/
def takes (s : Sched P) : SchedAct P → Option P
  | .take level => (s.queue level).head?
  | _ => none

/-- Of this queue only processes before `p` are gone, and only behind all others there are more. -/
def Turn (s : Sched P) (level : Nat) (ahead : List P) (p : P) (behind : List P) : Prop :=
  ∃ left more, left <:+ ahead ∧ s.queue level = left ++ p :: (behind ++ more)

omit [DecidableEq P] in
/-- A queue that has got one more process at its end. -/
theorem Turn.append {s' : Sched P} (kept : s.Turn level ahead p behind) {q : P}
    (queue : s'.queue level = s.queue level ++ [q]) : s'.Turn level ahead p behind := by
  obtain ⟨left, more, suffix, cells⟩ := kept
  refine ⟨left, more ++ [q], suffix, ?_⟩
  rw [queue, cells]
  simp only [List.append_assoc, List.cons_append]

/-- `enqueue` adds the process at the end of its queue, or finds it there. -/
theorem queue_enqueue {q : P} (once : (s.queue (s.pri q)).Nodup)
    (place : q ∉ s.queue (s.pri q) ∨ (s.queue (s.pri q)).getLast? = some q) (level : Nat) :
    (s.enqueue q).queue level = s.queue level ∨
      (s.enqueue q).queue level = s.queue level ++ [q] := by
  have kept : ∀ l : List P, q ∉ l → l.takeWhile (fun r => decide (r ≠ q)) = l := fun l absent =>
    List.takeWhile_eq_self_iff.mpr fun r mem => by
      simpa using fun same : r = q => absent (same ▸ mem)
  by_cases own : level = s.pri q
  · subst own
    simp only [Sched.enqueue, Function.update_self]
    rcases place with absent | last
    · right
      rw [kept _ absent]
    · left
      obtain ⟨front, queue⟩ := List.getLast?_eq_some_iff.mp last
      rw [queue] at once ⊢
      have absent : q ∉ front := fun mem =>
        (List.nodup_append.mp once).2.2 q mem q List.mem_cons_self rfl
      rw [List.takeWhile_append_of_pos fun r mem => by
        simpa using fun same : r = q => absent (same ▸ mem)]
      simp
  · left
    simp [Sched.enqueue, own]

/-- So a queue stays as it is but for a process that comes behind all others. -/
theorem Turn.enqueue {q : P} (kept : s.Turn level ahead p behind) (once : (s.queue (s.pri q)).Nodup)
    (place : q ∉ s.queue (s.pri q) ∨ (s.queue (s.pri q)).getLast? = some q) :
    (s.enqueue q).Turn level ahead p behind := by
  rcases queue_enqueue once place level with same | longer
  · obtain ⟨left, more, suffix, cells⟩ := kept
    exact ⟨left, more, suffix, same.trans cells⟩
  · exact kept.append longer

omit [DecidableEq P] in
/-- No process behind it is taken. -/
theorem Turn.not_overtaken (kept : s.Turn level ahead p behind) (owned : s.Exact) {q : P}
    (mem : q ∈ behind) : s.takes a ≠ some q := by
  obtain ⟨left, more, -, cells⟩ := kept
  have queued : q ∈ s.queue level := by simp [cells, mem]
  cases a with
  | take l =>
    intro first
    obtain rfl : level = l := (owned.level level q queued).symm.trans
      (owned.level l q (List.mem_of_mem_head? first))
    have once := owned.once level
    rw [takes, cells] at first
    rw [cells] at once
    cases left with
    | nil =>
      obtain rfl := Option.some.inj first
      exact (List.nodup_cons.mp once).1 (List.mem_append_left _ mem)
    | cons x left =>
      obtain rfl := Option.some.inj first
      exact (List.nodup_cons.mp once).1 (by simp [mem])
  | _ => exact fun none => by cases none

/-- Every action that does not take the process keeps its turn. -/
theorem Turn.next (kept : s.Turn level ahead p behind) (owned : s.Exact) (possible : s.Possible a)
    (may : s.MayReadyExactly a) (other : s.takes a ≠ some p) :
    (s.next a).Turn level ahead p behind := by
  cases a with
  | take l =>
    simp only [Sched.next]
    split
    · exact kept
    · rename_i first rest queue
      obtain ⟨left, more, suffix, cells⟩ := kept
      by_cases own : level = l
      · subst own
        cases left with
        | nil =>
          rw [takes, cells] at other
          exact absurd rfl other
        | cons x left =>
          obtain ⟨rfl, rfl⟩ := List.cons.inj (queue.symm.trans cells)
          refine ⟨left, more, (List.suffix_cons first left).trans suffix, ?_⟩
          exact Function.update_self ..
      · refine ⟨left, more, suffix, ?_⟩
        rw [← cells]
        exact Function.update_of_ne own ..
  | create q pri =>
    have absent : q ∉ s.queue pri := fun mem => possible (owned.live pri q mem)
    have own : (s.create q pri).pri q = pri := Function.update_self ..
    refine Turn.enqueue (s := s.create q pri) kept ?_ (Or.inl ?_) <;> rw [own]
    · exact owned.once pri
    · exact absent
  | ready q =>
    obtain ⟨live, place⟩ := may
    simp only [Sched.next]
    split
    · exact kept
    · rename_i enabling
      refine Turn.enqueue (s := s.mark q .ready) kept (owned.once _) ?_
      rcases place with state | ⟨waiting, -⟩ | last
      · exact absurd state enabling
      · refine Or.inl fun queued => ?_
        rcases owned.runnable _ q queued with can | can <;> rw [waiting] at can <;> cases can
      · exact Or.inr last
  | _ => exact kept

end Sched

/-! ## The machine -/

/-- The process that the activation is about to take. -/
def Act.takes (act : Act) (g : Globals) : Option Addr :=
  match act with
  | .select base (.chosen highest) => if (highest : Int) ≤ base then none else (g.readyQ highest).head
  | _ => none

/-- The process that `schedule` is about to take. -/
def takes (label : Label) (s : State) : Option Addr :=
  match label, s.stack with
  | .run, act :: _ => act.takes s.g
  | _, _ => none

/-- It is the one that the abstract scheduler takes. -/
theorem Implements.takes_eq {s : Sched Addr} {stack : List Act} {g : Globals}
    (impl : Implements s stack g) (label : Label) :
    s.takes (action label ⟨stack, g, none⟩) = takes label ⟨stack, g, none⟩ := by
  obtain ⟨queue, free, rep, rfl⟩ := impl
  cases label with
  | run =>
    cases stack with
    | nil => rfl
    | cons act rest =>
      change Sched.takes _ (act.action g) = act.takes g
      cases act with
      | main pc => cases pc <;> rfl
      | start args pc => cases pc <;> rfl
      | select base pc =>
        cases pc with
        | chosen highest =>
          simp only [Act.action, Act.takes]
          split
          · rfl
          · exact (rep.fifo highest).head_eq.symm
        | _ => rfl
      | schedule base q pc =>
        cases pc with
        | dispatch state => cases state <;> rfl
        | finish =>
          simp only [Act.action]
          split <;> rfl
        | _ => rfl
      | ready q pc => cases pc <;> rfl
      | _ => rfl
  | user op =>
    cases stack with
    | nil => rfl
    | cons act rest =>
      change Sched.takes _ (op.action act) = none
      unfold Op.action
      split <;> rfl
  | _ => rfl

/-- The turn of a process is kept in every run in which it is not taken. -/
theorem turn_kept (level : Nat) (ahead : List Addr) (p : Addr) (behind : List Addr) :
    Kept (fun label s => (keepsQueues label s = true ∧ takes label s ≠ some p) ∧ Orderly s.stack)
      (Settled fun stack g => ∃ s, Implements s stack g ∧
        s.Exact ∧ s.Turn level ahead p behind) := by
  refine Kept.scheduled (fun s => s.Exact ∧ s.Turn level ahead p behind)
    (fun s a => s.MayReadyExactly a ∧ s.takes a ≠ some p) ?_ (fun s inv => inv.1.toLeveled)
    (fun s a inv possible may => inv.1.safe possible (inv.1.mayReady may.1))
    (fun s a inv possible may => ⟨inv.1.next possible may.1,
      inv.2.next inv.1 possible may.1 may.2⟩) ?_
  · rintro label s ⟨⟨keeps, -⟩, orderly⟩
    simp only [keepsQueues, Bool.and_eq_true] at keeps
    exact ⟨keeps.1.1, orderly, keeps.1.2⟩
  · rintro label stack g s ⟨⟨keeps, other⟩, -⟩ - impl
    simp only [keepsQueues, Bool.and_eq_true] at keeps
    refine ⟨impl.mayReadyExactly keeps.2, ?_⟩
    rw [impl.takes_eq]
    exact other

/-- Nobody overtakes: as long as a queued process is not taken, processes leave its queue only from
before it, in their order, the processes behind it stay, and none of these is about to be taken. -/
theorem first_come_first_served {first middle last : State} (booted : Booted first)
    (run : Run step (fun label s => keepsQueues label s = true) first middle)
    (boundary : queueing middle.stack = false) {level : Nat} {p : Addr} {ahead behind : List Addr}
    (queued : Fifo middle.g.mem.link (middle.g.readyQ level).head (middle.g.readyQ level).tail
      (ahead ++ p :: behind))
    (onward : Run step (fun label s => keepsQueues label s = true ∧ takes label s ≠ some p) middle last)
    (boundary' : queueing last.stack = false) :
    (∃ left more, left <:+ ahead ∧ Fifo last.g.mem.link (last.g.readyQ level).head
      (last.g.readyQ level).tail (left ++ p :: (behind ++ more))) ∧
    ∀ q ∈ behind, ∀ label, takes label last ≠ some q := by
  have parts : ∀ label s, keepsQueues label s = true → undisturbed label s = true := by
    intro label s keeps
    simp only [keepsQueues, Bool.and_eq_true] at keeps
    exact keeps.1.1
  rcases exact_of_run booted run with starting | ⟨orderly, settled⟩
  · rw [starting.queues level] at queued
    have none : ahead ++ p :: behind = [] := queued.eq_nil
    simp at none
  · obtain ⟨s, ⟨queue, free, rep, rfl⟩, own⟩ := (settled_of_not_queueing boundary).mp settled
    have cells : queue level = ahead ++ p :: behind := (rep.fifo level).chain.unique queued.chain
    have turn : ((view middle.stack middle.g).sched queue).Turn level ahead p behind :=
      ⟨ahead, [], List.suffix_rfl, by rw [List.append_nil]; exact cells⟩
    have kept := ((orderly_kept.mono fun label s keeps => parts label s keeps.1).and
      (turn_kept level ahead p behind)).invariant
      ⟨orderly, (settled_of_not_queueing boundary).mpr ⟨_, ⟨queue, free, rep, rfl⟩, own, turn⟩⟩ onward
    obtain ⟨s', impl, own', turn'⟩ := (settled_of_not_queueing boundary').mp kept.2
    refine ⟨?_, fun q mem label => ?_⟩
    · obtain ⟨left, more, suffix, cells'⟩ := turn'
      obtain ⟨queue', free', rep', rfl⟩ := impl
      refine ⟨left, more, suffix, ?_⟩
      have fifo := rep'.fifo level
      rw [show queue' level = _ from cells'] at fifo
      exact fifo
    · have apart := turn'.not_overtaken (a := action label ⟨last.stack, last.g, none⟩) own' mem
      rw [impl.takes_eq] at apart
      exact apart

/-- Three processes of one priority that are started one after the other. -/
def threeStarted : List Label :=
  let start := [.user (startWith ⟨.chanin 0 none 0, true⟩ 1)]
  runs 11 ++ start ++ runs 10 ++ start ++ runs 8 ++ start ++ runs 8

/-- The first one is executed, and the others wait for their turns. -/
theorem first_come_first_served_of_three : ∃ last : State,
    codeOf last.stack = some 1024 ∧
    ((∃ left more, left <:+ [1024] ∧ Fifo last.g.mem.link (last.g.readyQ 1).head
      (last.g.readyQ 1).tail (left ++ 1064 :: ([1104] ++ more))) ∧
    ∀ q ∈ [1104], ∀ label, takes label last ≠ some q) := by
  obtain ⟨middle, run, checked⟩ := exists_run_of_executeUnder threeStarted
    (fun s : State => !queueing s.stack && (s.g.readyQ 1).head == some 1024 &&
      s.g.mem.link 1024 == some 1064 && s.g.mem.link 1064 == some 1104 &&
      s.g.mem.link 1104 == none && (s.g.readyQ 1).tail == some 1104 &&
      (executeUnder step (fun label s => keepsQueues label s && decide (takes label s ≠ some 1064))
        (.user .ret :: runs 8) s).any fun s => !queueing s.stack && codeOf s.stack == some 1024)
    (by decide +kernel : (executeUnder step keepsQueues threeStarted (zeroBoot 1000)).any _ = true)
  simp only [Bool.and_eq_true, Bool.not_eq_true', beq_iff_eq] at checked
  obtain ⟨⟨⟨⟨⟨⟨boundary, head⟩, first⟩, second⟩, third⟩, tail⟩, onward⟩ := checked
  obtain ⟨last, run', checked'⟩ := exists_run_of_executeUnder _ _ onward
  simp only [Bool.and_eq_true, Bool.not_eq_true', beq_iff_eq] at checked'
  have chain : Chain middle.g.mem.link (middle.g.readyQ 1).head ([1024] ++ 1064 :: [1104]) := by
    rw [head]
    refine .cons ?_
    rw [first]
    refine .cons ?_
    rw [second]
    refine .cons ?_
    rw [third]
    exact .nil
  refine ⟨last, checked'.2, first_come_first_served (zeroBoot_booted 1000) run boundary
    ⟨chain, tail⟩ (run'.mono fun label s keeps => ?_) checked'.1⟩
  simpa using keeps

end Microcsp
