import Spe.Slot
import Spe.TimerLaw

/-!
# Schedulers that nobody can tell apart

Two schedulers are alike when they hold the same tasks in the same order and differ
only in fields that no function reads before it writes them: the deadline of a task
that is not armed, and of the tasks called `own` the handler, which is set before
every use.  `timeout` is read of these tasks only.  The history and the shape of the
timer tree do not count.

The tree is ordered by `_expire` in every run, so the deadlines alone tell where the
next timer goes (`armed_timers`).
-/

namespace Spe

open Transition

variable {T H : Type}

/-- Two tasks that nobody can tell apart; the handler of an `own` task does not
count. -/
structure TaskAlike (own : Prop) (k l : Task H) : Prop where
  status : k.status = l.status
  fast : k.fast = l.fast
  expire : k.status = .timer → k.expire = l.expire
  handler : ¬ own → k.handler = l.handler
  timeout : own → k.timeout = l.timeout

/-- A task is like itself. -/
theorem TaskAlike.refl (own : Prop) (k : Task H) : TaskAlike own k k :=
  ⟨rfl, rfl, fun _ => rfl, fun _ => rfl, fun _ => rfl⟩

/-- Alike tasks get the same handler. -/
theorem TaskAlike.setHandler {own : Prop} {k l : Task H} (h : TaskAlike own k l)
    (handler : Option H) (fast : Bool) :
    TaskAlike own { k with handler := handler, fast := fast }
      { l with handler := handler, fast := fast } :=
  ⟨h.status, rfl, h.expire, fun _ => rfl, h.timeout⟩

/-- Alike tasks that leave their container. -/
theorem TaskAlike.freed {own : Prop} {k l : Task H} (h : TaskAlike own k l) :
    TaskAlike own k.freed l.freed :=
  ⟨rfl, h.fast, nofun, h.handler, h.timeout⟩

/-- Alike tasks that fire. -/
theorem TaskAlike.fired {own : Prop} {k l : Task H} (h : TaskAlike own k l) :
    TaskAlike own k.fired l.fired :=
  ⟨rfl, h.fast, nofun, h.handler, fun _ => rfl⟩

/-- Alike tasks that are scheduled. -/
theorem TaskAlike.scheduled {own : Prop} {k l : Task H} (h : TaskAlike own k l) :
    TaskAlike own k.scheduled l.scheduled := by
  unfold Task.scheduled
  rw [← h.status, ← h.fast]
  split
  · exact h
  · refine ⟨rfl, rfl, ?_, h.handler, h.timeout⟩
    intro htimer
    dsimp only at htimer
    split at htimer <;> cases htimer

/-- Alike tasks that are armed: the deadline is written. -/
theorem TaskAlike.armed {own : Prop} {k l : Task H} (h : TaskAlike own k l) (now ms : Nat) :
    TaskAlike own (k.armed now ms) (l.armed now ms) := by
  unfold Task.armed
  rw [← h.status]
  split
  · exact h
  · exact ⟨rfl, h.fast, fun _ => rfl, h.handler, fun _ => rfl⟩

/-- Alike tasks after the same call. -/
theorem TaskAlike.effect {own : Prop} {k l : Task H} (h : TaskAlike own k l) (now : Nat)
    (c : Call T H) : TaskAlike own (c.effect now k) (c.effect now l) := by
  cases c with
  | setHandler t handler fast => exact h.setHandler handler fast
  | schedule t => exact h.scheduled
  | scheduleTimeout t ms => exact h.armed now ms
  | dequeue t => exact h.freed

variable [DecidableEq T]

/-- `spe_task_schedule`: what becomes of the containers, and whether a handler is
called. -/
theorem taskSchedule_containers {s : Sched T H} (h : Placed s) (t : T) :
    (taskSchedule s t).1.taskHead =
      (if (s.tasks t).status = .queue ∨ (s.tasks t).fast then s.taskHead
        else s.taskHead ++ [t]) ∧
    (taskSchedule s t).1.timers = s.timers.erase t ∧
    (taskSchedule s t).2 =
      (if (s.tasks t).status ≠ .queue ∧ (s.tasks t).fast then some t else none) := by
  have htimers := h.disarm_timers t
  unfold taskSchedule
  by_cases hqueue : (s.tasks t).status = .queue
  · have hnot : s.timers.erase t = s.timers := h.erase_timers (by simp [hqueue])
    simp [hqueue, hnot]
  · by_cases hfast : (s.tasks t).fast <;> simp [hqueue, hfast, htimers]

/-- `spe_task_dequeue`: what becomes of the containers. -/
theorem taskDequeue_containers {s : Sched T H} (h : Placed s) (t : T) :
    (taskDequeue s t).taskHead = s.taskHead.erase t ∧
    (taskDequeue s t).timers = s.timers.erase t := by
  unfold taskDequeue
  cases hst : (s.tasks t).status with
  | free =>
      have hhead := h.erase_taskHead (t := t) (by simp [hst])
      have htimers := h.erase_timers (t := t) (by simp [hst])
      simp [hhead, htimers]
  | queue =>
      have htimers := h.erase_timers (t := t) (by simp [hst])
      simp [htimers]
  | timer =>
      have hhead := h.erase_taskHead (t := t) (by simp [hst])
      simp [hhead]

/-- **Where a timer goes**: behind those in the tree that expire no later, whatever
the shape of the tree. -/
theorem armed_timers {s : Sched T H} (h : Placed s) (hordered : Ordered s) (now ms : Nat)
    {t : T} (hst : (s.tasks t).status ≠ .queue) :
    (taskScheduleTimeout s now ms t).timers =
      (s.timers.erase t).filter (fun a => (s.tasks a).expire ≤ expireAt now ms) ++
        t :: (s.timers.erase t).filter (fun a => ¬ (s.tasks a).expire ≤ expireAt now ms) := by
  obtain ⟨pre, post, hsplit, hpre, hpost, htimers⟩ :=
    taskScheduleTimeout_timers h hordered now ms hst
  have hlater : ∀ b ∈ post, ¬ (s.tasks b).expire ≤ expireAt now ms :=
    fun b hb => Nat.not_le.mpr (hpost b hb)
  have hfirst : (pre ++ post).filter (fun a => (s.tasks a).expire ≤ expireAt now ms) = pre := by
    rw [List.filter_append, List.filter_eq_self.mpr (by simpa using hpre),
      List.filter_eq_nil_iff.mpr (by simpa using hlater), List.append_nil]
  have hrest : (pre ++ post).filter (fun a => ¬ (s.tasks a).expire ≤ expireAt now ms) = post := by
    rw [List.filter_append, List.filter_eq_nil_iff.mpr (by simpa using hpre),
      List.filter_eq_self.mpr (by simpa using hlater), List.nil_append]
  rw [htimers, hsplit, hfirst, hrest]

/-- Two schedulers that nobody can tell apart. -/
structure SchedAlike (own : T → Prop) (s s' : Sched T H) : Prop where
  tasks : ∀ t, TaskAlike (own t) (s.tasks t) (s'.tasks t)
  taskHead : s.taskHead = s'.taskHead
  timers : s.timers = s'.timers

/-- One task of both changes to two that are alike. -/
theorem SchedAlike.update {own : T → Prop} {s s' : Sched T H} (h : SchedAlike own s s')
    {t : T} {k l : Task H} (hkl : TaskAlike (own t) k l) (x : T) :
    TaskAlike (own x) (Function.update s.tasks t k x) (Function.update s'.tasks t l x) := by
  by_cases hx : x = t
  · subst hx
    rw [Function.update_self, Function.update_self]
    exact hkl
  · rw [Function.update_of_ne hx, Function.update_of_ne hx]
    exact h.tasks x

/-- Alike timers go to the same place. -/
theorem SchedAlike.armed_timers {own : T → Prop} {s s' : Sched T H} (h : SchedAlike own s s')
    (hs : Placed s) (hs' : Placed s') (hordered : Ordered s) (hordered' : Ordered s')
    (now ms : Nat) (t : T) :
    (taskScheduleTimeout s now ms t).timers = (taskScheduleTimeout s' now ms t).timers := by
  by_cases hst : (s.tasks t).status = .queue
  · have hst' : (s'.tasks t).status = .queue := (h.tasks t).status.symm.trans hst
    rw [taskScheduleTimeout, if_pos hst, taskScheduleTimeout, if_pos hst']
    exact h.timers
  · have hst' : (s'.tasks t).status ≠ .queue := fun heq => hst ((h.tasks t).status.trans heq)
    -- the tasks in the tree are armed, so their deadlines are the same
    have hexpire : ∀ a ∈ s.timers.erase t, (s.tasks a).expire = (s'.tasks a).expire := by
      intro a ha
      exact (h.tasks a).expire ((hs.timed a).mpr (List.mem_of_mem_erase ha))
    have hfirst : (s.timers.erase t).filter (fun a => (s.tasks a).expire ≤ expireAt now ms) =
        (s.timers.erase t).filter (fun a => (s'.tasks a).expire ≤ expireAt now ms) :=
      List.filter_congr (fun a ha => by rw [hexpire a ha])
    have hrest : (s.timers.erase t).filter (fun a => ¬ (s.tasks a).expire ≤ expireAt now ms) =
        (s.timers.erase t).filter (fun a => ¬ (s'.tasks a).expire ≤ expireAt now ms) :=
      List.filter_congr (fun a ha => by rw [hexpire a ha])
    rw [Spe.armed_timers hs hordered now ms hst, Spe.armed_timers hs' hordered' now ms hst',
      hfirst, hrest, h.timers]

/-- Two schedulers after the same timer has fired. -/
theorem SchedAlike.fire {own : T → Prop} {s s' : Sched T H} (h : SchedAlike own s s') (t : T) :
    SchedAlike own (s.fire t) (s'.fire t) := by
  refine ⟨?_, ?_, ?_⟩
  · rw [fire_tasks, fire_tasks]
    exact h.update (h.tasks t).fired
  · simp [Sched.fire, h.taskHead]
  · simp [Sched.fire, h.timers]

/-- Two schedulers after the same task was taken off the run queue. -/
theorem SchedAlike.take {own : T → Prop} {s s' : Sched T H} (h : SchedAlike own s s') (t : T) :
    SchedAlike own (s.take t) (s'.take t) := by
  refine ⟨?_, ?_, ?_⟩
  · rw [take_tasks, take_tasks]
    exact h.update (h.tasks t).freed
  · simp [Sched.take, h.taskHead]
  · simp [Sched.take, h.timers]

/-- Two schedulers after the same task was initialised. -/
theorem SchedAlike.init {own : T → Prop} {s s' : Sched T H} (h : SchedAlike own s s') (t : T) :
    SchedAlike own (taskInit s t) (taskInit s' t) :=
  ⟨h.update (.refl _ _), h.taskHead, h.timers⟩

/-- Two machines that nobody can tell apart. -/
structure MachineAlike (own : T → Prop) (m n : Machine T H) : Prop where
  sched : SchedAlike own m.sched n.sched
  now : m.now = n.now
  stack : m.stack = n.stack
  aborted : m.aborted = n.aborted

/-- The scheduler is placed and its tree ordered. -/
structure InOrder (s : Sched T H) : Prop where
  placed : Placed s
  ordered : Ordered s

/-- Every operation keeps it so. -/
theorem InOrder.step {now : Nat} {arms : Nat → T → Prop} {s s' : Sched T H} (h : InOrder s)
    (hstep : SchedStep now arms s s') : InOrder s' :=
  ⟨h.placed.step hstep, h.ordered.step h.placed hstep⟩

/-- So does every run of the machine. -/
theorem InOrder.run {ok : Machine T H → MachineEvent T H → Prop} {m m' : Machine T H}
    {es : List (MachineEvent T H)} (h : InOrder m.sched) (hrun : Run Machine.step ok m es m') :
    InOrder m'.sched :=
  hrun.invariant (fun m => InOrder m.sched) h
    (fun _ _ _ hinv _ hstep => hinv.step (Machine.step_sched hstep))

/-- A call gives the same containers and calls the same handler. -/
theorem MachineAlike.call {own : T → Prop} {m n : Machine T H} (h : MachineAlike own m n)
    (hm : InOrder m.sched) (hn : InOrder n.sched) (c : Call T H) :
    MachineAlike own (m.call c) (n.call c) := by
  have htasks : ∀ t, TaskAlike (own t) ((m.call c).sched.tasks t) ((n.call c).sched.tasks t) := by
    rw [m.call_tasks, n.call_tasks, h.now]
    exact h.sched.update ((h.sched.tasks c.task).effect n.now c)
  obtain ⟨hnow, habort⟩ := m.call_keeps c
  obtain ⟨hnow', habort'⟩ := n.call_keeps c
  have hnows : (m.call c).now = (n.call c).now := (hnow.trans h.now).trans hnow'.symm
  have haborts : (m.call c).aborted = (n.call c).aborted :=
    (habort.trans h.aborted).trans habort'.symm
  cases c with
  | setHandler t handler fast =>
      exact ⟨⟨htasks, h.sched.taskHead, h.sched.timers⟩, hnows, h.stack, haborts⟩
  | schedule t =>
      obtain ⟨hhead, htimers, hcalls⟩ := taskSchedule_containers hm.placed t
      obtain ⟨hhead', htimers', hcalls'⟩ := taskSchedule_containers hn.placed t
      have hsame : (taskSchedule m.sched t).2 = (taskSchedule n.sched t).2 := by
        rw [hcalls, hcalls', (h.sched.tasks t).status, (h.sched.tasks t).fast]
      have hsched : ∀ x : Machine T H,
          (x.call (.schedule t)).sched = (taskSchedule x.sched t).1 := by
        intro x
        rw [Machine.call]
        split <;> rfl
      refine ⟨⟨htasks, ?_, ?_⟩, hnows, ?_, haborts⟩
      · rw [hsched, hsched, hhead, hhead', (h.sched.tasks t).status, (h.sched.tasks t).fast,
          h.sched.taskHead]
      · rw [hsched, hsched, htimers, htimers', h.sched.timers]
      · have hstack : ∀ x : Machine T H, (x.call (.schedule t)).stack =
            ((taskSchedule x.sched t).2.map Frame.handler).toList ++ x.stack := by
          intro x
          rw [Machine.call]
          cases (taskSchedule x.sched t).2 <;> rfl
        rw [hstack, hstack, hsame, h.stack]
  | scheduleTimeout t ms =>
      have hhead : ∀ s : Sched T H, (taskScheduleTimeout s m.now ms t).taskHead = s.taskHead := by
        intro s
        unfold taskScheduleTimeout
        split <;> simp
      refine ⟨⟨htasks, ?_, ?_⟩, hnows, h.stack, haborts⟩
      · change (taskScheduleTimeout m.sched m.now ms t).taskHead =
          (taskScheduleTimeout n.sched n.now ms t).taskHead
        rw [← h.now, hhead, hhead, h.sched.taskHead]
      · change (taskScheduleTimeout m.sched m.now ms t).timers =
          (taskScheduleTimeout n.sched n.now ms t).timers
        rw [← h.now]
        exact h.sched.armed_timers hm.placed hn.placed hm.ordered hn.ordered m.now ms t
  | dequeue t =>
      obtain ⟨hhead, htimers⟩ := taskDequeue_containers hm.placed t
      obtain ⟨hhead', htimers'⟩ := taskDequeue_containers hn.placed t
      refine ⟨⟨htasks, ?_, ?_⟩, hnows, h.stack, haborts⟩
      · exact hhead.trans ((congrArg (fun l : List T => l.erase t) h.sched.taskHead).trans
          hhead'.symm)
      · exact htimers.trans ((congrArg (fun l : List T => l.erase t) h.sched.timers).trans
          htimers'.symm)

/-- A round of a loop does the same to both. -/
theorem MachineAlike.loop {own : T → Prop} {m n : Machine T H} (h : MachineAlike own m n)
    (hm : Placed m.sched) (hn : Placed n.sched) :
    Option.Rel (MachineAlike own) m.loop n.loop := by
  cases hstack : m.stack with
  | nil =>
      have hstack' : n.stack = [] := h.stack.symm.trans hstack
      rw [Machine.loop, hstack, Machine.loop, hstack']
      exact .none
  | cons frame rest =>
      have hstack' : n.stack = frame :: rest := h.stack.symm.trans hstack
      cases frame with
      | timerLoop curr =>
          rw [hm.loop_timer hstack, hn.loop_timer hstack', ← h.sched.timers]
          cases htimers : m.sched.timers with
          | nil => exact .some ⟨h.sched, h.now, rfl, h.aborted⟩
          | cons t others =>
              have harmed : (m.sched.tasks t).status = .timer :=
                (hm.timed t).mpr (by simp [htimers])
              dsimp only
              rw [← (h.sched.tasks t).expire harmed]
              split
              · exact .some ⟨h.sched.fire t, h.now, h.stack, h.aborted⟩
              · exact .some ⟨h.sched, h.now, rfl, h.aborted⟩
      | runLoop =>
          rw [hm.loop_run hstack, hn.loop_run hstack', ← h.sched.taskHead]
          cases m.sched.taskHead with
          | nil => exact .some ⟨h.sched, h.now, rfl, h.aborted⟩
          | cons t others => exact .some ⟨h.sched.take t, h.now, rfl, h.aborted⟩
      | handler t =>
          rw [Machine.loop, hstack, Machine.loop, hstack']
          exact .none

omit [DecidableEq T] in
/-- A handler returns in both. -/
theorem MachineAlike.ret {own : T → Prop} {m n : Machine T H} (h : MachineAlike own m n) :
    Option.Rel (MachineAlike own) m.ret n.ret := by
  unfold Machine.ret
  rw [← h.stack]
  split
  · exact .some ⟨h.sched, h.now, rfl, h.aborted⟩
  · exact .none

omit [DecidableEq T] in
/-- `spe_task_process` starts the same loop in both. -/
theorem MachineAlike.process {own : T → Prop} {m n : Machine T H} (h : MachineAlike own m n) :
    MachineAlike own m.process n.process := by
  have hempty : m.sched.timerHead.isEmpty = n.sched.timerHead.isEmpty := by
    have htimers : m.sched.timerHead.toList = n.sched.timerHead.toList := h.sched.timers
    rw [Bool.eq_iff_iff, RedBlack.Tree.isEmpty_iff, RedBlack.Tree.isEmpty_iff, htimers]
  unfold Machine.process
  rw [hempty]
  split
  · exact ⟨h.sched, h.now, congrArg (fun l => .runLoop :: l) h.stack, h.aborted⟩
  · refine ⟨h.sched, h.now, ?_, h.aborted⟩
    dsimp only
    rw [h.now, h.stack]

end Spe
