import Spe.TaskPlacement

/-!
# What the operations make of a task

Each operation of the scheduler changes the task that it is about and no other.
-/

namespace Spe

variable {T H : Type} [DecidableEq T]

/-- What `spe_task_schedule` makes of the task. -/
def Task.scheduled (k : Task H) : Task H :=
  if k.status = .queue then k else { k with status := if k.fast then .free else .queue }

/-- What `spe_task_schedule_timeout` makes of the task. -/
def Task.armed (now ms : Nat) (k : Task H) : Task H :=
  if k.status = .queue then k
  else { k with expire := expireAt now ms, timeout := false, status := .timer }

/-- What `spe_task_dequeue` makes of the task, and the run loop of the one it
takes. -/
def Task.freed (k : Task H) : Task H := { k with status := .free }

omit [DecidableEq T] in
/-- An idle task is dequeued already. -/
theorem Task.freed_of_free {k : Task H} (h : k.status = .free) : k.freed = k := by
  cases k
  cases h
  rfl

/-- What the timer loop makes of a due task. -/
def Task.fired (k : Task H) : Task H := { k with timeout := true, status := .queue }

/-- Scheduling a task keeps its handler. -/
theorem Task.scheduled_keeps (k : Task H) :
    k.scheduled.handler = k.handler ∧ k.scheduled.fast = k.fast := by
  unfold Task.scheduled
  split <;> exact ⟨rfl, rfl⟩

/-- Arming a task keeps its handler, and it is not idle afterwards. -/
theorem Task.armed_keeps (now ms : Nat) (k : Task H) :
    (k.armed now ms).handler = k.handler ∧ (k.armed now ms).fast = k.fast ∧
      (k.armed now ms).status ≠ .free := by
  unfold Task.armed
  split
  · rename_i hqueue
    exact ⟨rfl, rfl, by simp [hqueue]⟩
  · exact ⟨rfl, rfl, nofun⟩

/-- What the start of an operation makes of its task: the handler is set, and with a
time limit the task is armed. -/
def Task.started (h : H) (now ms : Nat) (k : Task H) : Task H :=
  let k : Task H := { k with handler := some h, fast := false }
  if ms ≠ 0 then k.armed now ms else k

/-- A started task has its handler, and with a time limit it is not idle. -/
theorem Task.started_spec (h : H) (now ms : Nat) (k : Task H) :
    (k.started h now ms).handler = some h ∧ (k.started h now ms).fast = false ∧
      (ms ≠ 0 → (k.started h now ms).status ≠ .free) := by
  obtain ⟨hhandler, hfast, hstatus⟩ :=
    Task.armed_keeps now ms { k with handler := some h, fast := false }
  unfold Task.started
  by_cases hms : ms ≠ 0
  · rw [if_pos hms]
    exact ⟨hhandler, hfast, fun _ => hstatus⟩
  · rw [if_neg hms]
    exact ⟨rfl, rfl, fun h => absurd h hms⟩

/-- `spe_task_schedule` changes no other task. -/
theorem taskSchedule_tasks (s : Sched T H) (t : T) :
    (taskSchedule s t).1.tasks = Function.update s.tasks t (s.tasks t).scheduled := by
  unfold taskSchedule Task.scheduled
  by_cases hqueue : (s.tasks t).status = .queue
  · simp [hqueue]
  · by_cases hfast : (s.tasks t).fast
    · simp [hqueue, hfast, Sched.setStatus]
    · simp [hqueue, hfast, Sched.setStatus]

/-- `spe_task_schedule_timeout` changes no other task. -/
theorem taskScheduleTimeout_tasks (s : Sched T H) (now ms : Nat) (t : T) :
    (taskScheduleTimeout s now ms t).tasks =
      Function.update s.tasks t ((s.tasks t).armed now ms) := by
  unfold taskScheduleTimeout Task.armed
  by_cases hqueue : (s.tasks t).status = .queue
  · simp [hqueue]
  · simp [hqueue, Sched.setStatus]

/-- `spe_task_dequeue` changes no other task. -/
theorem taskDequeue_tasks (s : Sched T H) (t : T) :
    (taskDequeue s t).tasks = Function.update s.tasks t (s.tasks t).freed := by
  unfold taskDequeue Task.freed
  cases hstatus : (s.tasks t).status with
  | free =>
      have hsame : { s.tasks t with status := .free } = s.tasks t := by
        rw [← hstatus]
      simp only [hsame, Function.update_eq_self]
  | timer => simp [Sched.setStatus]
  | queue => simp [Sched.setStatus]

/-- A timer that fires changes no other task. -/
theorem fire_tasks (s : Sched T H) (t : T) :
    (s.fire t).tasks = Function.update s.tasks t (s.tasks t).fired := by
  simp [Sched.fire, Sched.setStatus, Task.fired]

/-- The run loop changes no task but the one it takes. -/
theorem take_tasks (s : Sched T H) (t : T) :
    (s.take t).tasks = Function.update s.tasks t (s.tasks t).freed := by
  simp [Sched.take, Sched.setStatus, Task.freed]

/-- A round of a loop changes no handler. -/
theorem LoopMove.handler {m m' : Machine T H} (h : LoopMove m m') (t : T) :
    (m'.sched.tasks t).handler = (m.sched.tasks t).handler := by
  cases h with
  | fire _ _ x =>
      rw [fire_tasks]
      by_cases hx : t = x
      · subst hx
        rw [Function.update_self]
        rfl
      · rw [Function.update_of_ne hx]
  | drained => rfl
  | take _ x =>
      rw [take_tasks]
      by_cases hx : t = x
      · subst hx
        rw [Function.update_self]
        rfl
      · rw [Function.update_of_ne hx]
  | idle => rfl

/-- The task a call is about. -/
def Call.task : Call T H → T
  | .setHandler t _ _ => t
  | .schedule t => t
  | .scheduleTimeout t _ => t
  | .dequeue t => t

/-- What a call makes of its task. -/
def Call.effect (now : Nat) (c : Call T H) (k : Task H) : Task H :=
  match c with
  | .setHandler _ handler fast => { k with handler := handler, fast := fast }
  | .schedule _ => k.scheduled
  | .scheduleTimeout _ ms => k.armed now ms
  | .dequeue _ => k.freed

/-- **Frame.**  A call changes no other task. -/
theorem Machine.call_tasks (m : Machine T H) (c : Call T H) :
    (m.call c).sched.tasks =
      Function.update m.sched.tasks c.task (c.effect m.now (m.sched.tasks c.task)) := by
  cases c with
  | setHandler t handler fast => rfl
  | schedule t =>
      have hsched : (m.call (.schedule t)).sched = (taskSchedule m.sched t).1 := by
        rw [Machine.call]
        split <;> rfl
      rw [hsched]
      exact taskSchedule_tasks m.sched t
  | scheduleTimeout t ms => exact taskScheduleTimeout_tasks m.sched m.now ms t
  | dequeue t => exact taskDequeue_tasks m.sched t

/-- A call executes the handler of a fast task that it schedules and that is not queued, or
none. -/
theorem Machine.call_stack (m : Machine T H) (c : Call T H) :
    (m.call c).stack = m.stack ∨
      c = .schedule c.task ∧ (m.sched.tasks c.task).status ≠ .queue ∧
        (m.call c).stack = .handler c.task :: m.stack := by
  cases c with
  | setHandler | scheduleTimeout | dequeue => exact Or.inl rfl
  | schedule t =>
      by_cases hst : (m.sched.tasks t).status = .queue
      · left
        simp only [Machine.call, taskSchedule, if_pos hst]
      · by_cases hfast : (m.sched.tasks t).fast
        · refine Or.inr ⟨rfl, hst, ?_⟩
          simp [Machine.call, taskSchedule, hst, hfast, Call.task]
        · left
          simp [Machine.call, taskSchedule, hst, hfast]

end Spe
