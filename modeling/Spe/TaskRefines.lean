import Mathlib.Data.Fintype.Card
import Spe.TimerBalance
import Spe.TimerLaw
import Spe.TimerMemory

/-!
# The timer tree in memory refines the scheduler

The scheduler of the model keeps its timers in a tree of tasks.  The scheduler in memory does
the same in lockstep (`PtrMachine.refines`): every call returns, no null pointer is followed,
every assertion has the same outcome, and after every step the nodes in memory are those of
the tree, while the nodes of all other tasks are as `rb_init_node` leaves them.

No loop over the tree needs more than 130 rounds: the tree is red-black in every state, and
there are no more nodes than addresses.  So what is known of the scheduler holds of the
pointers, too; the tasks that `rb_first` and `rb_next` visit are the armed ones, in the order
of their deadlines (`timers_visited_in_order`).
-/

namespace Spe

open Transition
open RedBlack

variable {T H : Type} [DecidableEq T] {L : Layout T} {fuel : Nat}

/-- The scheduler in memory is in the state of the scheduler. -/
structure PtrSched.Matches (L : Layout T) (c : PtrSched T H) (s : Sched T H) : Prop where
  tasks : c.tasks = s.tasks
  taskHead : c.taskHead.Seg .head s.taskHead
  mem : c.mem.InMemory L.toAddressing s.timerHead

omit [DecidableEq T] in
/-- There are no more nodes than addresses. -/
theorem Addressing.length_le (A : Addressing T) {ts : List T} (h : ts.Nodup) :
    ts.length ≤ 2 ^ 64 := by
  have hwords : (ts.map (fun t => (A.addr t).toFin)).Nodup := by
    apply h.map
    intro x y heq
    exact A.inj (BitVec.eq_of_toFin_eq heq)
  calc ts.length = (ts.map (fun t => (A.addr t).toFin)).length := (List.length_map _).symm
    _ ≤ Fintype.card (Fin (2 ^ 64)) := hwords.length_le_card
    _ = 2 ^ 64 := Fintype.card_fin _

omit [DecidableEq T] in
/-- **Rounds.**  A red-black tree in memory is at most 128 nodes high. -/
theorem Addressing.height_le (A : Addressing T) {t : RbTree T} (ht : t.IsRedBlack)
    (honce : t.toList.Nodup) : t.height ≤ 128 := by
  have hlog : (t.toList.length + 1).log2 ≤ 64 := by
    have hlen := A.length_le honce
    rw [← Nat.lt_succ_iff, Nat.log2_lt (by omega)]
    omega
  have hheight := ht.height_le
  omega

section Nodes

variable {c : PtrSched T H} {s : Sched T H}

omit [DecidableEq T] in
/-- Stores to timer nodes. -/
theorem PtrSched.Matches.setMem (h : c.Matches L s) {m : RbMem} {t : RbTree T} (d : T → Nat)
    (hm : m.InMemory L.toAddressing t) :
    PtrSched.Matches L { c with mem := m } { s with timerHead := t, deadline := d } :=
  ⟨h.tasks, h.taskHead, hm⟩

/-- `rb_erase` and `rb_init_node` of an armed task. -/
theorem PtrSched.Matches.rbErase (h : c.Matches L s) (hfuel : 130 ≤ fuel)
    (hbal : s.timerHead.IsRedBlack) (honce : s.timers.Nodup) {t : T} (ht : t ∈ s.timers) :
    ∃ c', c.rbErase L fuel t = some c' ∧ c'.Matches L (s.rbErase t) := by
  have hheight := L.height_le hbal honce
  obtain ⟨m₁, m', hm₁, hm', hmem⟩ := h.mem.erase hbal ht (show _ + 2 ≤ fuel by omega)
  refine ⟨{ c with mem := m' }, ?_, h.setMem s.deadline hmem⟩
  simp only [PtrSched.rbErase, hm₁, hm', Option.bind_eq_bind, Option.bind_some]

/-- The guard of the schedule functions. -/
theorem PtrSched.Matches.disarm (h : c.Matches L s) (hfuel : 130 ≤ fuel)
    (hbal : s.timerHead.IsRedBlack) (hplaced : Placed s) (t : T) :
    ∃ c', c.disarm L fuel t = some c' ∧ c'.Matches L (s.disarm t) := by
  unfold PtrSched.disarm Sched.disarm
  rw [h.tasks]
  by_cases htimer : (s.tasks t).status = .timer
  · rw [if_pos htimer, if_pos htimer]
    exact h.rbErase hfuel hbal hplaced.timersOnce ((hplaced.timed t).mp htimer)
  · rw [if_neg htimer, if_neg htimer]
    exact ⟨c, rfl, h⟩

/-- A store to the fields of a task. -/
theorem PtrSched.Matches.setTask (h : c.Matches L s) (t : T) (k : Task H) :
    (c.setTask t k).Matches L (s.setTask t k) := by
  refine ⟨?_, h.taskHead, h.mem⟩
  show Function.update c.tasks t k = Function.update s.tasks t k
  rw [h.tasks]

/-- A store to `_status`. -/
theorem PtrSched.Matches.setStatus (h : c.Matches L s) (t : T) (st : TaskStatus) :
    (c.setStatus t st).Matches L (s.setStatus t st) := by
  unfold PtrSched.setStatus Sched.setStatus
  rw [h.tasks]
  exact h.setTask t _

/-- `list_add_tail` of a task that is not queued. -/
theorem PtrSched.Matches.listAddTail (h : c.Matches L s) (honce : s.taskHead.Nodup) {t : T}
    (ht : t ∉ s.taskHead) :
    ∃ c', c.listAddTail t = some c' ∧ c'.Matches L (s.listAddTail t) := by
  obtain ⟨r, hr, hseg⟩ := h.taskHead.addTail honce ht
  refine ⟨{ c with taskHead := r }, ?_, h.tasks, hseg, h.mem⟩
  simp only [PtrSched.listAddTail, hr, Option.bind_eq_bind, Option.bind_some]

/-- `spe_task_empty`. -/
theorem ptrTaskEmpty_spec (h : c.Matches L s) : ptrTaskEmpty c = taskEmpty s := by
  have hhead := h.taskHead
  unfold ptrTaskEmpty taskEmpty
  cases hqueue : s.taskHead with
  | nil =>
      rw [hqueue] at hhead
      simp [hhead.1]
  | cons t rest =>
      rw [hqueue] at hhead
      simp [hhead.1]

/-- `list_del_init` of a queued task. -/
theorem PtrSched.Matches.listDelInit (h : c.Matches L s) (honce : s.taskHead.Nodup) {t : T}
    (ht : t ∈ s.taskHead) (act : Ledger.Act T) :
    ∃ c', c.listDelInit t = some c' ∧ c'.Matches L (s.listDel t act) := by
  obtain ⟨r, hr, hseg⟩ := h.taskHead.del honce ht
  refine ⟨{ c with taskHead := r.init (.node t) }, ?_, h.tasks, ?_, h.mem⟩
  · simp only [PtrSched.listDelInit, hr, Option.bind_eq_bind, Option.bind_some]
  · exact hseg.init honce.not_mem_erase

/-- `spe_task_schedule`. -/
theorem ptrTaskSchedule_spec (h : c.Matches L s) (hfuel : 130 ≤ fuel)
    (hbal : s.timerHead.IsRedBlack) (hplaced : Placed s) (t : T) :
    ∃ c', ptrTaskSchedule L fuel c t = some (c', (taskSchedule s t).2) ∧
      c'.Matches L (taskSchedule s t).1 := by
  unfold ptrTaskSchedule taskSchedule
  rw [h.tasks]
  by_cases hqueue : (s.tasks t).status = .queue
  · rw [if_pos hqueue, if_pos hqueue]
    exact ⟨c, rfl, h⟩
  · rw [if_neg hqueue, if_neg hqueue]
    obtain ⟨d, hd, hmatch⟩ := h.disarm hfuel hbal hplaced t
    simp only [hd, Option.bind_eq_bind, Option.bind_some, hmatch.tasks]
    by_cases hfast : ((s.disarm t).tasks t).fast
    · rw [if_pos hfast, if_pos hfast]
      exact ⟨_, rfl, hmatch.setStatus t .free⟩
    · rw [if_neg hfast, if_neg hfast]
      have hout : t ∉ (s.disarm t).taskHead := by
        rw [disarm_taskHead, ← hplaced.queued]
        exact hqueue
      have honce : (s.disarm t).taskHead.Nodup := by
        rw [disarm_taskHead]
        exact hplaced.queueOnce
      obtain ⟨e, he, hadded⟩ := hmatch.listAddTail honce hout
      simp only [he, Option.bind_some]
      exact ⟨_, rfl, hadded.setStatus t .queue⟩

/-- `spe_task_schedule_timeout`. -/
theorem ptrTaskScheduleTimeout_spec (h : c.Matches L s) (hfuel : 130 ≤ fuel)
    (hbal : s.timerHead.IsRedBlack) (hplaced : Placed s) (now ms : Nat) (t : T) :
    ∃ c', ptrTaskScheduleTimeout L fuel c now ms t = some c' ∧
      c'.Matches L (taskScheduleTimeout s now ms t) := by
  unfold ptrTaskScheduleTimeout taskScheduleTimeout
  rw [h.tasks]
  by_cases hqueue : (s.tasks t).status = .queue
  · rw [if_pos hqueue, if_pos hqueue]
    exact ⟨c, rfl, h⟩
  · rw [if_neg hqueue, if_neg hqueue]
    obtain ⟨d, hd, hmatch⟩ := h.disarm hfuel hbal hplaced t
    have hout : t ∉ (s.disarm t).timers := by
      rw [hplaced.disarm_timers]
      exact hplaced.timersOnce.not_mem_erase
    have honce : (s.disarm t).timers.Nodup := by
      rw [hplaced.disarm_timers]
      exact hplaced.timersOnce.erase t
    have hbal' := disarm_redBlack hbal t
    have hheight := L.height_le hbal' honce
    obtain ⟨k, hk⟩ : ∃ k, k = { (s.disarm t).tasks t with
        expire := expireAt now ms, timeout := false } := ⟨_, rfl⟩
    have hset := hmatch.setTask t k
    obtain ⟨tasks, htasks⟩ : ∃ tasks, tasks = ((s.disarm t).setTask t k).tasks := ⟨_, rfl⟩
    obtain ⟨new, parent, m₁, m', hwalk, hm₁, hm', hmem⟩ := hset.mem.insert
      (fun p => decide ((tasks t).expire < (tasks (L.rbEntry p)).expire)) hbal' hout
      (show (s.disarm t).timerHead.height + 2 ≤ fuel by omega)
    simp only [L.rbEntry_addr] at hmem
    refine ⟨({ d.setTask t k with mem := m' } : PtrSched T H).setStatus t .timer, ?_, ?_⟩
    · simp only [hd, Option.bind_eq_bind, Option.bind_some, hmatch.tasks, ← hk, hset.tasks,
        ← htasks, hwalk, hm₁, hm']
    · subst htasks hk
      exact (hset.setMem _ hmem).setStatus t .timer

/-- `spe_task_dequeue`. -/
theorem ptrTaskDequeue_spec (h : c.Matches L s) (hfuel : 130 ≤ fuel)
    (hbal : s.timerHead.IsRedBlack) (hplaced : Placed s) (t : T) :
    ∃ c', ptrTaskDequeue L fuel c t = some c' ∧ c'.Matches L (taskDequeue s t) := by
  unfold ptrTaskDequeue taskDequeue
  rw [h.tasks]
  cases hst : (s.tasks t).status with
  | free => exact ⟨c, rfl, h⟩
  | queue =>
      obtain ⟨d, hd, hmatch⟩ :=
        h.listDelInit hplaced.queueOnce ((hplaced.queued t).mp hst) (.remove t)
      exact ⟨d.setStatus t .free, by simp only [hd, Option.bind_eq_bind, Option.bind_some],
        hmatch.setStatus t .free⟩
  | timer =>
      obtain ⟨d, hd, hmatch⟩ :=
        h.rbErase hfuel hbal hplaced.timersOnce ((hplaced.timed t).mp hst)
      exact ⟨d.setStatus t .free, by simp only [hd, Option.bind_eq_bind, Option.bind_some],
        hmatch.setStatus t .free⟩

/-- `spe_task_init` of a task in neither container. -/
theorem ptrTaskInit_spec (h : c.Matches L s) (hplaced : Placed s) {t : T}
    (hfree : (s.tasks t).status = .free) :
    ∃ c', ptrTaskInit L c t = some c' ∧ c'.Matches L (taskInit s t) := by
  have hout : t ∉ s.timers := by
    rw [← hplaced.timed t, hfree]
    exact TaskStatus.noConfusion
  have hidle : t ∉ s.taskHead := by
    rw [← hplaced.queued t, hfree]
    exact TaskStatus.noConfusion
  obtain ⟨m', hm', hmem⟩ := h.mem.clear hout
  have hcleared : PtrSched.Matches L
      { c with mem := m', taskHead := c.taskHead.init (.node t) } s :=
    ⟨h.tasks, h.taskHead.init hidle, hmem⟩
  refine ⟨_, ?_, hcleared.setTask t _⟩
  rw [ptrTaskInit, hm', Option.bind_eq_bind, Option.bind_some]

/-- Firing a task. -/
theorem PtrSched.Matches.fire (h : c.Matches L s) (hfuel : 130 ≤ fuel)
    (hbal : s.timerHead.IsRedBlack) (hplaced : Placed s) {t : T}
    (hst : (s.tasks t).status = .timer) :
    ∃ c', c.fire L fuel t = some c' ∧ c'.Matches L (s.fire t) := by
  obtain ⟨d, hd, hmatch⟩ :=
    h.rbErase hfuel hbal hplaced.timersOnce ((hplaced.timed t).mp hst)
  have hset := hmatch.setTask t { (s.rbErase t).tasks t with timeout := true }
  have hidle : t ∉ s.taskHead := by
    rw [← hplaced.queued t, hst]
    exact TaskStatus.noConfusion
  obtain ⟨e, he, hadded⟩ := hset.listAddTail hplaced.queueOnce hidle
  refine ⟨_, ?_, hadded.setStatus t .queue⟩
  simp only [PtrSched.fire, hd, Option.bind_eq_bind, Option.bind_some, hmatch.tasks, he]

/-- The outcome of a round in memory is that of the round. -/
inductive RoundMatches {σ τ : Type} (R : σ → τ → Prop) : Round σ → Round τ → Prop
  | done : RoundMatches R .done .done
  | next {a : σ} {b : τ} (h : R a b) : RoundMatches R (.next a) (.next b)
  | assertFailed : RoundMatches R .assertFailed .assertFailed

/-- A round of the timer loop. -/
theorem ptrTimerRound_spec (h : c.Matches L s) (hfuel : 130 ≤ fuel)
    (hbal : s.timerHead.IsRedBlack) (hplaced : Placed s) (curr : Nat) :
    ∃ r, ptrTimerRound L fuel curr c = some r ∧
      RoundMatches (PtrSched.Matches L) r (timerRound curr s) := by
  have hheight := L.height_le hbal hplaced.timersOnce
  have hfirst := rbEnd_spec h.mem.tree .left (show s.timerHead.height ≤ fuel by omega)
  rw [outermost_left] at hfirst
  rw [ptrTimerRound, rbFirst, hfirst, hplaced.timerRound_eq, Option.bind_eq_bind,
    Option.bind_some, h.tasks]
  cases htimers : s.timers with
  | nil =>
      have hroot : s.timerHead.toList.head? = none := by rw [← Sched.timers, htimers]; rfl
      rw [hroot]
      exact ⟨.done, rfl, .done⟩
  | cons t rest =>
      have hroot : s.timerHead.toList.head? = some t := by rw [← Sched.timers, htimers]; rfl
      have hmem : t ∈ s.timers := by rw [htimers]; exact List.mem_cons_self
      have hst : (s.tasks t).status = .timer := (hplaced.timed t).mpr hmem
      rw [hroot, Addressing.ref, if_neg (L.ne_zero t)]
      simp only [L.rbEntry_addr, hst, ne_eq, not_true, if_false]
      by_cases hdue : (s.tasks t).expire ≤ curr
      · obtain ⟨d, hd, hmatch⟩ := h.fire hfuel hbal hplaced hst
        rw [if_neg (Nat.not_lt.mpr hdue), if_pos hdue, hd]
        exact ⟨.next d, rfl, .next hmatch⟩
      · rw [if_pos (Nat.not_le.mp hdue), if_neg hdue]
        exact ⟨.done, rfl, .done⟩

/-- A round of the run loop. -/
theorem ptrRunRound_spec (h : c.Matches L s) (hplaced : Placed s) :
    ∃ r, ptrRunRound c = some r ∧
      RoundMatches (fun a b => a.1.Matches L b.1 ∧ a.2 = b.2) r (runRound s) := by
  have hhead := h.taskHead
  rw [hplaced.runRound_eq]
  cases hqueue : s.taskHead with
  | nil =>
      rw [hqueue] at hhead
      refine ⟨.done, ?_, .done⟩
      simp only [ptrRunRound, hhead.1, Option.bind_eq_bind, Option.bind_some]
  | cons t rest =>
      rw [hqueue] at hhead
      have hmem : t ∈ s.taskHead := by rw [hqueue]; exact List.mem_cons_self
      have hst : (s.tasks t).status = .queue := (hplaced.queued t).mpr hmem
      obtain ⟨d, hd, hmatch⟩ := h.listDelInit hplaced.queueOnce hmem (.execute t)
      refine ⟨.next (d.setStatus t .free, t), ?_, .next ⟨hmatch.setStatus t .free, rfl⟩⟩
      simp only [ptrRunRound, hhead.1, Option.bind_eq_bind, Option.bind_some, h.tasks, hst, hd,
        ne_eq, not_true, if_false]

end Nodes

/-- The machine in memory is in the state of the machine. -/
structure PtrMachine.Matches (L : Layout T) (c : PtrMachine T H) (m : Machine T H) : Prop where
  sched : c.sched.Matches L m.sched
  now : c.now = m.now
  stack : c.stack = m.stack
  aborted : c.aborted = m.aborted

namespace PtrMachine

variable {c : PtrMachine T H} {m : Machine T H}

/-- A call. -/
theorem Matches.call (h : c.Matches L m) (hfuel : 130 ≤ fuel)
    (hbal : m.sched.timerHead.IsRedBlack) (hplaced : Placed m.sched) (k : Call T H) :
    ∃ c', c.call L fuel k = some c' ∧ c'.Matches L (m.call k) := by
  cases k with
  | setHandler t handler fast =>
      refine ⟨_, rfl, ?_, h.now, h.stack, h.aborted⟩
      show PtrSched.Matches L (ptrTaskSetHandler c.sched t handler fast) _
      rw [ptrTaskSetHandler, h.sched.tasks]
      exact h.sched.setTask t _
  | schedule t =>
      obtain ⟨d, hd, hmatch⟩ := ptrTaskSchedule_spec h.sched hfuel hbal hplaced t
      simp only [PtrMachine.call, Machine.call, hd, Option.bind_eq_bind, Option.bind_some]
      cases (taskSchedule m.sched t).2 with
      | none => exact ⟨_, rfl, hmatch, h.now, h.stack, h.aborted⟩
      | some x => exact ⟨_, rfl, hmatch, h.now, congrArg (.handler x :: ·) h.stack, h.aborted⟩
  | scheduleTimeout t ms =>
      obtain ⟨d, hd, hmatch⟩ :=
        ptrTaskScheduleTimeout_spec h.sched hfuel hbal hplaced m.now ms t
      refine ⟨{ c with sched := d }, ?_, hmatch, h.now, h.stack, h.aborted⟩
      simp only [PtrMachine.call, h.now, hd, Option.bind_eq_bind, Option.bind_some]
  | dequeue t =>
      obtain ⟨d, hd, hmatch⟩ := ptrTaskDequeue_spec h.sched hfuel hbal hplaced t
      refine ⟨{ c with sched := d }, ?_, hmatch, h.now, h.stack, h.aborted⟩
      simp only [PtrMachine.call, hd, Option.bind_eq_bind, Option.bind_some]

omit [DecidableEq T] in
/-- `RB_EMPTY_ROOT` tells whether a timer is armed. -/
theorem Matches.process (h : c.Matches L m) : c.process.Matches L m.process := by
  have hempty : c.sched.mem.root = 0 ↔ m.sched.timerHead.isEmpty = true := by
    rw [h.sched.mem.tree.root, ptr_eq_zero]
    cases m.sched.timerHead <;> simp [RedBlack.Tree.isEmpty]
  unfold PtrMachine.process Machine.process
  by_cases hroot : m.sched.timerHead.isEmpty = true
  · rw [if_pos (hempty.mpr hroot), if_pos hroot]
    exact ⟨h.sched, h.now, congrArg (.runLoop :: ·) h.stack, h.aborted⟩
  · rw [if_neg (fun hnull => hroot (hempty.mp hnull)), if_neg hroot, h.now]
    exact ⟨h.sched, rfl, congrArg (.timerLoop m.now :: ·) h.stack, h.aborted⟩

/-- A round of the innermost loop. -/
theorem Matches.loop (h : c.Matches L m) (hfuel : 130 ≤ fuel)
    (hbal : m.sched.timerHead.IsRedBlack) (hplaced : Placed m.sched) :
    Option.Rel (Matches L) (c.loop L fuel) m.loop := by
  unfold PtrMachine.loop Machine.loop
  rw [h.stack]
  cases m.stack with
  | nil => exact .none
  | cons frame rest =>
      cases frame with
      | timerLoop curr =>
          obtain ⟨r, hr, hround⟩ := ptrTimerRound_spec h.sched hfuel hbal hplaced curr
          simp only [hr, Option.bind_eq_bind, Option.bind_some]
          generalize timerRound curr m.sched = r' at hround ⊢
          cases hround with
          | done => exact .some ⟨h.sched, h.now, rfl, h.aborted⟩
          | next hnext => exact .some ⟨hnext, h.now, rfl, h.aborted⟩
          | assertFailed => exact .some ⟨h.sched, h.now, rfl, rfl⟩
      | runLoop =>
          obtain ⟨r, hr, hround⟩ := ptrRunRound_spec h.sched hplaced
          simp only [hr, Option.bind_eq_bind, Option.bind_some]
          generalize runRound m.sched = r' at hround ⊢
          cases hround with
          | done => exact .some ⟨h.sched, h.now, rfl, h.aborted⟩
          | next hnext => exact .some ⟨hnext.1, h.now, by simp only [hnext.2], h.aborted⟩
          | assertFailed => exact .some ⟨h.sched, h.now, rfl, rfl⟩
      | handler t => exact .none

omit [DecidableEq T] in
/-- Calls are made at the same times. -/
theorem Matches.canCall (h : c.Matches L m) : c.canCall = m.canCall := by
  obtain ⟨_, _, cstack, _⟩ := c
  obtain ⟨_, _, mstack, _⟩ := m
  obtain rfl : cstack = mstack := h.stack
  rfl

/-- **Step lemma.**  A step in memory is the step, and returns when the step does. -/
theorem Matches.step (h : c.Matches L m) (hfuel : 130 ≤ fuel)
    (hbal : m.sched.timerHead.IsRedBlack) (hplaced : Placed m.sched) (ev : MachineEvent T H) :
    Option.Rel (Matches L) (c.step L fuel ev) (m.step ev) := by
  have hcan := h.canCall
  unfold PtrMachine.step Machine.step
  rw [h.aborted]
  by_cases haborted : m.aborted = true
  · rw [if_pos haborted, if_pos haborted]
    exact .none
  · rw [if_neg haborted, if_neg haborted]
    cases ev with
    | call k =>
        obtain ⟨c', hc', hmatch⟩ := h.call hfuel hbal hplaced k
        simp only [hcan, hc']
        exact rel_ite Iff.rfl (fun _ => .some hmatch)
    | init t =>
        simp only [hcan, h.sched.tasks]
        apply rel_ite Iff.rfl
        intro hguard
        obtain ⟨d, hd, hmatch⟩ := ptrTaskInit_spec h.sched hplaced hguard.2
        rw [hd]
        exact .some ⟨hmatch, h.now, h.stack, rfl⟩
    | process =>
        simp only [hcan]
        exact rel_ite Iff.rfl (fun _ => .some h.process)
    | loop => exact h.loop hfuel hbal hplaced
    | ret =>
        simp only [PtrMachine.ret, Machine.ret, h.stack]
        cases m.stack with
        | nil => exact .none
        | cons frame rest =>
            cases frame with
            | handler t => exact .some ⟨h.sched, h.now, rfl, h.aborted⟩
            | timerLoop curr => exact .none
            | runLoop => exact .none
    | tick now =>
        simp only [h.now]
        exact rel_ite Iff.rfl (fun _ => .some ⟨h.sched, rfl, h.stack, rfl⟩)

omit [DecidableEq T] in
/-- At the start no task is queued and no timer is armed. -/
theorem matches_start (L : Layout T) (H : Type) :
    (PtrMachine.start L H).Matches L (Machine.start T H) := by
  refine ⟨⟨rfl, ⟨rfl, rfl⟩, ⟨Cells.holds_zero, rfl⟩, ?_⟩, rfl, rfl, rfl⟩
  intro t _
  show (if L.addr (L.rbEntry (L.addr t)) = L.addr t then _ else _) = _
  rw [L.rbEntry_addr, if_pos rfl]
  rfl

/-- What holds between the two machines along every run. -/
structure Mirrors (L : Layout T) (c : PtrMachine T H) (m : Machine T H) : Prop where
  state : c.Matches L m
  placed : Placed m.sched
  redBlack : m.sched.timerHead.IsRedBlack
  ordered : Ordered m.sched

/-- The two machines make the same steps. -/
theorem Mirrors.step (h : Mirrors L c m) (hfuel : 130 ≤ fuel) (ev : MachineEvent T H) :
    Option.Rel (Mirrors L) (c.step L fuel ev) (m.step ev) := by
  rcases rel_cases (h.state.step hfuel h.redBlack h.placed ev) with
    ⟨hleft, hright⟩ | ⟨c', m', hleft, hright, hnext⟩
  · rw [hleft, hright]
    exact .none
  · rw [hleft, hright]
    have hsched := Machine.step_sched hright
    exact .some ⟨hnext, h.placed.step hsched, hsched.redBlack h.redBlack,
      h.ordered.step h.placed hsched⟩

/-- The two machines make the same runs. -/
theorem mirrors_exec (L : Layout T) (H : Type) (hfuel : 130 ≤ fuel)
    (es : List (MachineEvent T H)) :
    Option.Rel (Mirrors L) (exec (PtrMachine.step L fuel) (PtrMachine.start L H) es)
      (exec Machine.step (Machine.start T H) es) :=
  exec_rel (fun _ _ ev hmirrors => hmirrors.step hfuel ev)
    ⟨matches_start L H, placed_start, ⟨rfl, 0, .nil⟩, List.Pairwise.nil⟩ es

/-- **Refinement.**  The scheduler in memory does what the scheduler does, along every list of
events: neither a null pointer nor a walk without end stops it where the scheduler goes on. -/
theorem refines (L : Layout T) (H : Type) (hfuel : 130 ≤ fuel) (es : List (MachineEvent T H)) :
    Option.Rel (Matches L) (exec (PtrMachine.step L fuel) (PtrMachine.start L H) es)
      (exec Machine.step (Machine.start T H) es) := by
  rcases rel_cases (mirrors_exec L H hfuel es) with
    ⟨hleft, hright⟩ | ⟨c, m, hleft, hright, hmirrors⟩
  · rw [hleft, hright]
    exact .none
  · rw [hleft, hright]
    exact .some hmirrors.state

/-- Every state of the machine in memory mirrors a state of the machine. -/
theorem mirrors_of_run {ok : PtrMachine T H → MachineEvent T H → Prop}
    {es : List (MachineEvent T H)} (hfuel : 130 ≤ fuel)
    (h : Run (PtrMachine.step L fuel) ok (PtrMachine.start L H) es c) : ∃ m, Mirrors L c m := by
  have hexec := run_iff_exec.mp (h.mono (fun _ _ _ => trivial))
  rcases rel_cases (mirrors_exec L H hfuel es) with ⟨hleft, _⟩ | ⟨d, m, hleft, _, hmirrors⟩
  · cases hleft.symm.trans hexec
  · obtain rfl := Option.some.inj (hleft.symm.trans hexec)
    exact ⟨m, hmirrors⟩

end PtrMachine

omit [DecidableEq T] in
/-- A node that is its own parent has no neighbours. -/
theorem rbStep_cleared {A : Addressing T} {m : RbMem} {t : T}
    (h : m.node (A.addr t) = some (A.cleared t)) (s : RbSide) :
    rbStep s fuel (A.addr t) m = some 0 := by
  have hparent : (A.cleared t).rbParent = A.addr t := and_not_of_and (A.aligned t)
  simp only [rbStep, h, Option.bind_eq_bind, Option.bind_some, hparent, if_true]

omit [DecidableEq T] in
/-- The walks over the tree visit its keys in order, and lead nowhere from any other. -/
theorem RbMem.InMemory.visits {A : Addressing T} {m : RbMem} {t : RbTree T}
    (h : m.InMemory A t) (hfuel : t.height + 1 ≤ fuel) :
    rbFirst fuel m = some (A.ref t.toList.head?) ∧
      rbLast fuel m = some (A.ref t.toList.getLast?) ∧
      (∀ pre x post, t.toList = pre ++ x :: post →
        rbNext fuel (A.addr x) m = some (A.ref post.head?) ∧
        rbPrev fuel (A.addr x) m = some (A.ref pre.getLast?)) ∧
      ∀ x, x ∉ t.toList → rbNext fuel (A.addr x) m = some 0 ∧
        rbPrev fuel (A.addr x) m = some 0 := by
  obtain ⟨htree, hrest⟩ := h
  refine ⟨?_, ?_, ?_, ?_⟩
  · rw [rbFirst, rbEnd_spec htree .left (by omega), outermost_left]
  · rw [rbLast, rbEnd_spec htree .right (by omega), outermost_right]
  · intro pre x post hsplit
    exact rbNext_rbPrev_spec htree hsplit hfuel
  · intro x hx
    exact ⟨rbStep_cleared (hrest x hx) .right, rbStep_cleared (hrest x hx) .left⟩

/-- **Order of visit.**  In every state of every run in memory, `rb_first` and `rb_next` visit
the armed tasks, each once, in the order of `_expire`; `rb_last` and `rb_prev` visit them
backwards.  From the node of a task that is not armed they lead nowhere. -/
theorem timers_visited_in_order {c : PtrMachine T H} {es : List (MachineEvent T H)}
    (hfuel : 130 ≤ fuel)
    (h : Run (PtrMachine.step L fuel) anyStep (PtrMachine.start L H) es c) :
    ∃ ts : List T, ts.Nodup ∧ (∀ t, (c.sched.tasks t).status = .timer ↔ t ∈ ts) ∧
      ts.Pairwise (fun a b => (c.sched.tasks a).expire ≤ (c.sched.tasks b).expire) ∧
      rbFirst fuel c.sched.mem = some (L.ref ts.head?) ∧
      rbLast fuel c.sched.mem = some (L.ref ts.getLast?) ∧
      (∀ pre t post, ts = pre ++ t :: post →
        rbNext fuel (L.addr t) c.sched.mem = some (L.ref post.head?) ∧
        rbPrev fuel (L.addr t) c.sched.mem = some (L.ref pre.getLast?)) ∧
      ∀ t, t ∉ ts → rbNext fuel (L.addr t) c.sched.mem = some 0 ∧
        rbPrev fuel (L.addr t) c.sched.mem = some 0 := by
  obtain ⟨m, hmirrors⟩ := PtrMachine.mirrors_of_run hfuel h
  obtain ⟨htasks, _, hmem⟩ := hmirrors.state.sched
  have hplaced := hmirrors.placed
  have hheight := L.height_le hmirrors.redBlack hplaced.timersOnce
  rw [htasks]
  exact ⟨m.sched.timers, hplaced.timersOnce, hplaced.timed, hmirrors.ordered,
    hmem.visits (by omega)⟩

/-- Three timer nodes, at the addresses 24, 48 and 72. -/
def threeTasks : Layout (Fin 3) where
  addr i := BitVec.ofNat 64 (24 * (i.val + 1))
  inj := by decide
  ne_zero := by decide
  aligned := by
    unfold Aligned
    decide
  rbEntry p := Fin.ofNat 3 (p.toNat / 24 - 1)
  rbEntry_addr := by decide

/-- The three timers are armed, and two of them fire. -/
def threeTimers : List (MachineEvent (Fin 3) Unit) :=
  [.call (.scheduleTimeout 0 10), .call (.scheduleTimeout 1 30), .call (.scheduleTimeout 2 20),
    .tick 25, .process, .loop, .loop]

/-- A run in memory in which two of three timers fire. -/
theorem PtrMachine.refines_three :
    ∃ c m, exec (PtrMachine.step threeTasks 130) (PtrMachine.start threeTasks Unit) threeTimers =
        some c ∧
      exec Machine.step (Machine.start (Fin 3) Unit) threeTimers = some m ∧
      c.Matches threeTasks m ∧ m.sched.taskHead = [0, 2] ∧ m.sched.timers = [1] := by
  obtain ⟨m, hm⟩ : ∃ m, exec Machine.step (Machine.start (Fin 3) Unit) threeTimers = some m :=
    ⟨_, rfl⟩
  rcases rel_cases (PtrMachine.refines threeTasks Unit (Nat.le_refl 130) threeTimers) with
    ⟨_, hnone⟩ | ⟨c, m', hc, hm', hmatch⟩
  · cases hm.symm.trans hnone
  · obtain rfl := Option.some.inj (hm.symm.trans hm')
    refine ⟨c, m, hc, hm, hmatch, ?_⟩
    obtain rfl := Option.some.inj hm
    exact ⟨rfl, rfl⟩

/-- The state of that run in which the three timers are armed. -/
theorem timers_visited_three :
    ∃ c : PtrMachine (Fin 3) Unit,
      exec (PtrMachine.step threeTasks 130) (PtrMachine.start threeTasks Unit)
        (threeTimers.take 3) = some c ∧
      ∃ ts : List (Fin 3), (∀ t, (c.sched.tasks t).status = .timer ↔ t ∈ ts) ∧
        rbFirst 130 c.sched.mem = some (threeTasks.ref ts.head?) := by
  obtain ⟨c, hc⟩ : ∃ c, exec (PtrMachine.step threeTasks 130) (PtrMachine.start threeTasks Unit)
      (threeTimers.take 3) = some c := ⟨_, rfl⟩
  obtain ⟨ts, _, harmed, _, hfirst, _⟩ :=
    timers_visited_in_order (Nat.le_refl 130) (run_iff_exec.mpr hc)
  exact ⟨c, hc, ts, harmed, hfirst⟩

end Spe
