import Mathlib.Data.List.Nodup
import Mathlib.Data.List.Perm.Basic
import Spe.Task

/-!
# Where a task is

`_status` tells in which container a task sits.  Every operation of the
scheduler either leaves the two containers alone or takes one task out of
where it is and puts it where its new status says (`Relocates`); placement
(`Placed`) is kept by every relocation, whatever the other tasks are.

As the invariant holds between any two steps of the machine, the two
assertions on `_status` in `spe_task_process` never fail.
-/

namespace Spe

open Transition

variable {T H : Type} [DecidableEq T]

/-- `_status` agrees with the containers, which hold no task twice. -/
structure Placed (s : Sched T H) : Prop where
  queueOnce : s.taskHead.Nodup
  timersOnce : s.timers.Nodup
  queued : ∀ t, (s.tasks t).status = .queue ↔ t ∈ s.taskHead
  timed : ∀ t, (s.tasks t).status = .timer ↔ t ∈ s.timers

/-- From `s` to `s'` the task `t` moved to where the status `st` says, and no
other task moved. -/
structure Relocates (t : T) (st : TaskStatus) (s s' : Sched T H) : Prop where
  status : ∀ x, (s'.tasks x).status = if x = t then st else (s.tasks x).status
  queue : s'.taskHead.Perm
    (if st = .queue then t :: s.taskHead.erase t else s.taskHead.erase t)
  timers : s'.timers.Perm
    (if st = .timer then t :: s.timers.erase t else s.timers.erase t)

/-- Membership after a relocation, in either container. -/
theorem mem_relocated {t : T} (x : T) (here : Bool) {old new : List T} (hold : old.Nodup)
    (hnew : new.Perm (if here then t :: old.erase t else old.erase t)) :
    new.Nodup ∧ (x ∈ new ↔ if x = t then here = true else x ∈ old) := by
  have hnot : t ∉ old.erase t := hold.not_mem_erase
  have hkept : (old.erase t).Nodup := hold.erase t
  constructor
  · rw [hnew.nodup_iff]
    cases here with
    | true => exact List.nodup_cons.mpr ⟨hnot, hkept⟩
    | false => exact hkept
  · rw [hnew.mem_iff]
    by_cases hx : x = t
    · subst hx
      cases here <;> simp [hnot]
    · have hmem : x ∈ old.erase t ↔ x ∈ old := List.mem_erase_of_ne hx
      cases here <;> simp [hx, hmem]

/-- **Relocation rule.**  A relocation keeps placement. -/
theorem Placed.relocate {t : T} {st : TaskStatus} {s s' : Sched T H} (h : Placed s)
    (hmove : Relocates t st s s') : Placed s' := by
  have hqueue := fun x => mem_relocated x (decide (st = .queue)) h.queueOnce
    (by simpa using hmove.queue)
  have htimers := fun x => mem_relocated x (decide (st = .timer)) h.timersOnce
    (by simpa using hmove.timers)
  constructor
  · exact (hqueue t).1
  · exact (htimers t).1
  · intro x
    rw [hmove.status x, (hqueue x).2]
    by_cases hx : x = t
    · simp [hx]
    · simp [hx, h.queued x]
  · intro x
    rw [hmove.status x, (htimers x).2]
    by_cases hx : x = t
    · simp [hx]
    · simp [hx, h.timed x]

omit [DecidableEq T] in
/-- What changes neither a status nor a container keeps placement. -/
theorem Placed.congr {s s' : Sched T H} (h : Placed s)
    (hstatus : ∀ x, (s'.tasks x).status = (s.tasks x).status)
    (hqueue : s'.taskHead = s.taskHead) (htimers : s'.timers = s.timers) : Placed s' := by
  constructor
  · rw [hqueue]
    exact h.queueOnce
  · rw [htimers]
    exact h.timersOnce
  · intro x
    rw [hstatus x, hqueue]
    exact h.queued x
  · intro x
    rw [hstatus x, htimers]
    exact h.timed x

/-- A task that is not queued leaves the run queue as it is when erased. -/
theorem Placed.erase_taskHead {s : Sched T H} (h : Placed s) {t : T}
    (hst : (s.tasks t).status ≠ .queue) : s.taskHead.erase t = s.taskHead :=
  List.erase_of_not_mem (fun hmem => hst ((h.queued t).mpr hmem))

/-- A task that is not in the timer tree leaves it as it is when erased. -/
theorem Placed.erase_timers {s : Sched T H} (h : Placed s) {t : T}
    (hst : (s.tasks t).status ≠ .timer) : s.timers.erase t = s.timers :=
  List.erase_of_not_mem (fun hmem => hst ((h.timed t).mpr hmem))

/-- Whatever its status, a disarmed task is not in the timer tree. -/
theorem Placed.disarm_timers {s : Sched T H} (h : Placed s) (t : T) :
    (s.disarm t).timers = s.timers.erase t := by
  unfold Sched.disarm
  by_cases htimer : (s.tasks t).status = .timer
  · rw [if_pos htimer]
    exact rbErase_timers s t
  · rw [if_neg htimer]
    exact (h.erase_timers htimer).symm

/-- `spe_task_schedule` puts a task that is not queued at the end of the run
queue, or nowhere when it is fast. -/
theorem taskSchedule_relocates {s : Sched T H} (h : Placed s) {t : T}
    (hst : (s.tasks t).status ≠ .queue) :
    Relocates t (if (s.tasks t).fast then .free else .queue) s (taskSchedule s t).1 := by
  have hhead := h.erase_taskHead hst
  have htimers := h.disarm_timers t
  unfold taskSchedule
  by_cases hfast : (s.tasks t).fast
  · constructor <;> simp [hst, hfast, htimers, hhead]
  · constructor <;> simp [hst, hfast, htimers, hhead]

/-- `spe_task_schedule_timeout` puts a task that is not queued into the timer
tree. -/
theorem taskScheduleTimeout_relocates {s : Sched T H} (h : Placed s) (now ms : Nat) {t : T}
    (hst : (s.tasks t).status ≠ .queue) :
    Relocates t .timer s (taskScheduleTimeout s now ms t) := by
  have hhead := h.erase_taskHead hst
  have htimers := h.disarm_timers t
  unfold taskScheduleTimeout
  rw [if_neg hst]
  constructor
  · intro x
    by_cases hx : x = t <;> simp [hx]
  · simp [hhead]
  · apply (RedBlack.perm_insert _ t (s.disarm t).timerHead).trans
    rw [if_pos rfl, ← htimers]
    rfl

/-- `spe_task_dequeue` puts a task nowhere. -/
theorem taskDequeue_relocates {s : Sched T H} (h : Placed s) (t : T) :
    Relocates t .free s (taskDequeue s t) := by
  unfold taskDequeue
  cases hst : (s.tasks t).status with
  | free =>
      have hhead := h.erase_taskHead (t := t) (by simp [hst])
      have htimers := h.erase_timers (t := t) (by simp [hst])
      constructor
      · intro x
        by_cases hx : x = t <;> simp [hx, hst]
      · simp [hhead]
      · simp [htimers]
  | queue =>
      have htimers := h.erase_timers (t := t) (by simp [hst])
      constructor <;> simp [htimers]
  | timer =>
      have hhead := h.erase_taskHead (t := t) (by simp [hst])
      constructor <;> simp [hhead]

/-- Firing moves a task from the timer tree to the end of the run queue. -/
theorem fire_relocates {s : Sched T H} (h : Placed s) {t : T}
    (hst : (s.tasks t).status = .timer) : Relocates t .queue s (s.fire t) := by
  have hhead := h.erase_taskHead (t := t) (by simp [hst])
  constructor
  · intro x
    by_cases hx : x = t <;> simp [Sched.fire, hx]
  · simp [Sched.fire, hhead]
  · simp [Sched.fire]

/-- Taking a task off the run queue puts it nowhere. -/
theorem take_relocates {s : Sched T H} (h : Placed s) {t : T}
    (hst : (s.tasks t).status = .queue) : Relocates t .free s (s.take t) := by
  have htimers := h.erase_timers (t := t) (by simp [hst])
  constructor <;> simp [Sched.take, htimers]

/-- The timer loop on a placed scheduler: the first task in the tree's order
fires when it is due; the assertion holds. -/
theorem Placed.timerRound_eq {s : Sched T H} (h : Placed s) (curr : Nat) :
    timerRound curr s =
      match s.timers with
      | [] => .done
      | t :: _ => if (s.tasks t).expire ≤ curr then .next (s.fire t) else .done := by
  have hfirst : RedBlack.first s.timerHead = s.timers.head? :=
    RedBlack.first_eq_head s.timerHead
  unfold timerRound
  rw [hfirst]
  cases htimers : s.timers with
  | nil => rfl
  | cons t rest =>
      have hst : (s.tasks t).status = .timer := (h.timed t).mpr (by simp [htimers])
      by_cases hdue : (s.tasks t).expire ≤ curr
      · simp [hdue, hst]
      · simp [hdue]

/-- The run loop on a placed scheduler: the task at the front is taken; the
assertion holds. -/
theorem Placed.runRound_eq {s : Sched T H} (h : Placed s) :
    runRound s =
      match s.taskHead with
      | [] => .done
      | t :: _ => .next (s.take t, t) := by
  unfold runRound
  cases hqueue : s.taskHead with
  | nil => rfl
  | cons t rest =>
      have hst : (s.tasks t).status = .queue := (h.queued t).mpr (by simp [hqueue])
      simp [hst]

/-- A round of the timer loop that goes on fires the first task. -/
theorem Placed.timerRound_next {s s' : Sched T H} {curr : Nat} (h : Placed s)
    (hround : timerRound curr s = .next s') :
    ∃ t rest, s.timers = t :: rest ∧ (s.tasks t).status = .timer ∧
      (s.tasks t).expire ≤ curr ∧ s' = s.fire t := by
  rw [h.timerRound_eq] at hround
  cases htimers : s.timers with
  | nil => simp [htimers] at hround
  | cons t rest =>
      have hst : (s.tasks t).status = .timer := (h.timed t).mpr (by simp [htimers])
      by_cases hdue : (s.tasks t).expire ≤ curr
      · simp only [htimers, if_pos hdue, Round.next.injEq] at hround
        exact ⟨t, rest, rfl, hst, hdue, hround.symm⟩
      · simp [htimers, hdue] at hround

/-- A round of the run loop that goes on takes the task at the front. -/
theorem Placed.runRound_next {s s' : Sched T H} {t : T} (h : Placed s)
    (hround : runRound s = .next (s', t)) :
    ∃ rest, s.taskHead = t :: rest ∧ (s.tasks t).status = .queue ∧ s' = s.take t := by
  rw [h.runRound_eq] at hround
  cases hqueue : s.taskHead with
  | nil => simp [hqueue] at hround
  | cons x rest =>
      have hst : (s.tasks x).status = .queue := (h.queued x).mpr (by simp [hqueue])
      simp only [hqueue, Round.next.injEq, Prod.mk.injEq] at hround
      obtain ⟨rfl, rfl⟩ := hround
      exact ⟨rest, rfl, hst, rfl⟩

/-- **Step lemma.**  Every operation of the scheduler keeps placement. -/
theorem Placed.step {now : Nat} {arms : Nat → T → Prop} {s s' : Sched T H} (h : Placed s)
    (hstep : SchedStep now arms s s') : Placed s' := by
  cases hstep with
  | keep => exact h
  | setHandler t handler fast =>
      refine h.congr (fun x => ?_) rfl rfl
      by_cases hx : x = t <;> simp [taskSetHandler, hx]
  | init t hfree =>
      refine h.congr (fun x => ?_) rfl rfl
      by_cases hx : x = t <;> simp [taskInit, hx, hfree]
  | schedule t =>
      by_cases hst : (s.tasks t).status = .queue
      · simpa [taskSchedule, hst] using h
      · exact h.relocate (taskSchedule_relocates h hst)
  | scheduleTimeout ms t _ =>
      by_cases hst : (s.tasks t).status = .queue
      · simpa [taskScheduleTimeout, hst] using h
      · exact h.relocate (taskScheduleTimeout_relocates h now ms hst)
  | dequeue t => exact h.relocate (taskDequeue_relocates h t)
  | timerRound _ curr hround =>
      obtain ⟨t, _, _, hst, _, rfl⟩ := h.timerRound_next hround
      exact h.relocate (fire_relocates h hst)
  | runRound _ t hround =>
      obtain ⟨_, _, hst, rfl⟩ := h.runRound_next hround
      exact h.relocate (take_relocates h hst)

/-- A round of the timer loop of a placed machine. -/
theorem Placed.loop_timer {m : Machine T H} (h : Placed m.sched) {curr : Nat}
    {rest : List (Frame T)} (hstack : m.stack = .timerLoop curr :: rest) :
    m.loop =
      match m.sched.timers with
      | [] => some { m with stack := .runLoop :: rest }
      | t :: _ =>
          if (m.sched.tasks t).expire ≤ curr then some { m with sched := m.sched.fire t }
          else some { m with stack := .runLoop :: rest } := by
  unfold Machine.loop
  rw [hstack]
  dsimp only
  rw [h.timerRound_eq]
  cases htimers : m.sched.timers with
  | nil => rfl
  | cons t others =>
      by_cases hdue : (m.sched.tasks t).expire ≤ curr
      · simp only [if_pos hdue, ← hstack]
      · simp only [if_neg hdue]

/-- A round of the run loop of a placed machine. -/
theorem Placed.loop_run {m : Machine T H} (h : Placed m.sched) {rest : List (Frame T)}
    (hstack : m.stack = .runLoop :: rest) :
    m.loop =
      match m.sched.taskHead with
      | [] => some { m with stack := rest }
      | t :: _ =>
          some { m with sched := m.sched.take t, stack := .handler t :: .runLoop :: rest } := by
  unfold Machine.loop
  rw [hstack]
  dsimp only
  rw [h.runRound_eq]
  cases hqueue : m.sched.taskHead <;> rfl

/-- The rounds of the two loops of `spe_task_process`: the first timer is due and moves
to the run queue, or the timer loop ends; the task at the front of the run queue is
taken and its handler starts, or the run loop ends. -/
inductive LoopMove (m : Machine T H) : Machine T H → Prop
  | fire (curr : Nat) (rest : List (Frame T)) (t : T) (others : List T)
      (hstack : m.stack = .timerLoop curr :: rest) (htimers : m.sched.timers = t :: others)
      (hstatus : (m.sched.tasks t).status = .timer) (hdue : (m.sched.tasks t).expire ≤ curr) :
      LoopMove m { m with sched := m.sched.fire t }
  | drained (curr : Nat) (rest : List (Frame T))
      (hstack : m.stack = .timerLoop curr :: rest)
      (hlater : ∀ t others, m.sched.timers = t :: others → ¬ (m.sched.tasks t).expire ≤ curr) :
      LoopMove m { m with stack := .runLoop :: rest }
  | take (rest : List (Frame T)) (t : T) (others : List T)
      (hstack : m.stack = .runLoop :: rest) (hqueue : m.sched.taskHead = t :: others)
      (hstatus : (m.sched.tasks t).status = .queue) :
      LoopMove m { m with
        sched := m.sched.take t
        stack := .handler t :: .runLoop :: rest }
  | idle (rest : List (Frame T)) (hstack : m.stack = .runLoop :: rest)
      (hqueue : m.sched.taskHead = []) : LoopMove m { m with stack := rest }

/-- A round of a placed machine is one of these. -/
theorem Placed.loop_cases {m m' : Machine T H} (h : Placed m.sched) (hloop : m.loop = some m') :
    LoopMove m m' := by
  cases hstack : m.stack with
  | nil => simp [Machine.loop, hstack] at hloop
  | cons frame rest =>
      cases frame with
      | timerLoop curr =>
          rw [h.loop_timer hstack] at hloop
          cases htimers : m.sched.timers with
          | nil =>
              rw [htimers] at hloop
              obtain rfl := Option.some.inj hloop
              exact .drained curr rest hstack (by simp [htimers])
          | cons t others =>
              rw [htimers] at hloop
              by_cases hdue : (m.sched.tasks t).expire ≤ curr
              · simp only [if_pos hdue] at hloop
                obtain rfl := Option.some.inj hloop
                exact .fire curr rest t others hstack htimers
                  ((h.timed t).mpr (by simp [htimers])) hdue
              · simp only [if_neg hdue] at hloop
                obtain rfl := Option.some.inj hloop
                refine .drained curr rest hstack ?_
                intro t' others' htimers'
                cases htimers.symm.trans htimers'
                exact hdue
      | runLoop =>
          rw [h.loop_run hstack] at hloop
          cases hqueue : m.sched.taskHead with
          | nil =>
              rw [hqueue] at hloop
              obtain rfl := Option.some.inj hloop
              exact .idle rest hstack hqueue
          | cons t others =>
              rw [hqueue] at hloop
              obtain rfl := Option.some.inj hloop
              exact .take rest t others hstack hqueue ((h.queued t).mpr (by simp [hqueue]))
      | handler t => simp [Machine.loop, hstack] at hloop

omit [DecidableEq T] in
/-- The start of the machine is placed. -/
theorem placed_start : Placed (Machine.start T H).sched := by
  constructor <;> simp [Machine.start, Sched.timers]

/-- A round of a loop of a placed machine neither takes time nor aborts. -/
theorem Placed.loop_keeps {m m' : Machine T H} (h : Placed m.sched) (hloop : m.loop = some m') :
    m'.now = m.now ∧ m'.aborted = m.aborted := by
  cases h.loop_cases hloop <;> exact ⟨rfl, rfl⟩

/-- A step from a placed state fails no assertion, and the clock does not go
back. -/
theorem Placed.step_keeps {m m' : Machine T H} {ev : MachineEvent T H} (h : Placed m.sched)
    (hstep : m.step ev = some m') : m.now ≤ m'.now ∧ m'.aborted = false := by
  obtain ⟨hgoes, hev⟩ := Machine.step_cases hstep
  cases ev with
  | call c =>
      obtain ⟨_, rfl⟩ := hev
      obtain ⟨hnow, habort⟩ := m.call_keeps c
      exact ⟨hnow.ge, habort.trans hgoes⟩
  | init t =>
      obtain ⟨_, _, rfl⟩ := hev
      exact ⟨Nat.le_refl _, hgoes⟩
  | process =>
      obtain ⟨_, rfl⟩ := hev
      obtain ⟨_, hnow, habort⟩ := m.process_keeps
      exact ⟨hnow.ge, habort.trans hgoes⟩
  | loop =>
      obtain ⟨hnow, habort⟩ := h.loop_keeps hev
      exact ⟨hnow.ge, habort.trans hgoes⟩
  | ret =>
      obtain ⟨_, hnow, habort⟩ := Machine.ret_keeps hev
      exact ⟨hnow.le, habort.symm.trans hgoes⟩
  | tick now =>
      obtain ⟨hle, rfl⟩ := hev
      exact ⟨hle, hgoes⟩

/-- **Run lemma.**  Along every run the scheduler is placed and no assertion
has failed. -/
theorem placed_of_run {ok : Machine T H → MachineEvent T H → Prop} {m : Machine T H}
    {es : List (MachineEvent T H)} (h : Run Machine.step ok (Machine.start T H) es m) :
    Placed m.sched ∧ m.aborted = false := by
  refine h.invariant (fun m => Placed m.sched ∧ m.aborted = false)
    ⟨placed_start, rfl⟩ ?_
  intro s e s' hinv _ hstep
  exact ⟨hinv.1.step (Machine.step_sched hstep), (hinv.1.step_keeps hstep).2⟩

/-- **Placement.**  Whatever handlers do, between any two steps `_status` says
in which container a task is, where it is exactly once, and no assertion of
`spe_task_process` fails. -/
theorem task_placement {m : Machine T H} {es : List (MachineEvent T H)}
    (h : Run Machine.step anyStep (Machine.start T H) es m) :
    m.aborted = false ∧ ∀ t,
      ((m.sched.tasks t).status = .queue ↔ t ∈ m.sched.taskHead) ∧
      (t ∈ m.sched.taskHead → m.sched.taskHead.count t = 1) ∧
      ((m.sched.tasks t).status = .timer ↔ t ∈ m.sched.timerHead.toList) ∧
      (t ∈ m.sched.timerHead.toList → m.sched.timerHead.toList.count t = 1) ∧
      ((m.sched.tasks t).status = .free ↔
        t ∉ m.sched.taskHead ∧ t ∉ m.sched.timerHead.toList) := by
  obtain ⟨hplaced, habort⟩ := placed_of_run h
  refine ⟨habort, fun t => ⟨hplaced.queued t, ?_, hplaced.timed t, ?_, ?_⟩⟩
  · exact List.count_eq_one_of_mem hplaced.queueOnce
  · exact List.count_eq_one_of_mem hplaced.timersOnce
  · have hqueue := hplaced.queued t
    have htimer := hplaced.timed t
    rw [Sched.timers] at htimer
    rw [← hqueue, ← htimer]
    cases (m.sched.tasks t).status <;> simp

/-- A run in which a task is armed, expires, and its handler arms it again. -/
theorem task_placement_rearmed :
    ∃ m : Machine Nat Unit,
      Run Machine.step anyStep (Machine.start Nat Unit)
        [.call (.scheduleTimeout 7 5), .tick 5, .process, .loop, .loop, .loop,
          .call (.scheduleTimeout 7 5)] m ∧
      (m.aborted = false ∧ ∀ t,
        ((m.sched.tasks t).status = .queue ↔ t ∈ m.sched.taskHead) ∧
        (t ∈ m.sched.taskHead → m.sched.taskHead.count t = 1) ∧
        ((m.sched.tasks t).status = .timer ↔ t ∈ m.sched.timerHead.toList) ∧
        (t ∈ m.sched.timerHead.toList → m.sched.timerHead.toList.count t = 1) ∧
        ((m.sched.tasks t).status = .free ↔
          t ∉ m.sched.taskHead ∧ t ∉ m.sched.timerHead.toList)) := by
  obtain ⟨m, hm⟩ : ∃ m, exec Machine.step (Machine.start Nat Unit)
      [.call (.scheduleTimeout 7 5), .tick 5, .process, .loop, .loop, .loop,
        .call (.scheduleTimeout 7 5)] = some m := ⟨_, rfl⟩
  have hrun := run_iff_exec.mpr hm
  exact ⟨m, hrun, task_placement hrun⟩

end Spe
