import Mathlib.Algebra.Group.Nat.Defs
import Mathlib.Logic.Function.Basic
import Mathlib.Tactic.Simps.Basic
import Spe.Ledger
import Spe.RedBlackTree
import Spe.Transition

/-!
# Tasks and the task scheduler (`spe_task.c`)

A task carries a handler and sits in at most one of two containers: the run
queue `task_head`, a list, and the timer tree `timer_head`, a red-black tree
ordered by the 32-bit field `_expire`.  The first part translates the
functions of `spe_task.c` on the state they share (`Sched`).

The second part is the machine that calls them.  Handlers are arbitrary code
that may call back into the scheduler, and a fast task runs its handler inside
`spe_task_schedule`; the control stack (`Frame`) says which loops and handlers
are active, innermost first.  A step is one call, one round of one of the two
loops of `spe_task_process`, or the return of a handler, so any handlers and
any interleaving of nested calls are runs of `Machine.step`.

Two fields of `Sched` are history: `log` records what happens to the run
queue, `deadline` the exact time `now + ms` at which a timer was armed.  No
function reads them.
-/

namespace Spe

open Transition

/-- `SPE_TASK_FREE`, `SPE_TASK_TIMER`, `SPE_TASK_QUEUE`. -/
inductive TaskStatus
  | free
  | timer
  | queue
  deriving DecidableEq

/-- `spe_task_t`. -/
structure Task (H : Type) where
  handler : Option H
  expire : Nat
  status : TaskStatus
  fast : Bool
  timeout : Bool

/-- The state of the scheduler: the tasks, `task_head` and `timer_head`. -/
structure Sched (T H : Type) where
  tasks : T → Task H
  taskHead : List T
  timerHead : RedBlack.Tree T
  deadline : T → Nat
  log : List (Ledger.Act T)

variable {T H : Type}

/-- The timer tree in order. -/
def Sched.timers (s : Sched T H) : List T := s.timerHead.toList

/-- `list_add_tail` to `task_head`. -/
@[simps -fullyApplied]
def Sched.listAddTail (s : Sched T H) (t : T) : Sched T H :=
  { s with taskHead := s.taskHead ++ [t], log := s.log ++ [.insert t] }

@[simp] theorem listAddTail_timers (s : Sched T H) (t : T) :
    (s.listAddTail t).timers = s.timers := rfl

variable [DecidableEq T]

@[simps -fullyApplied]
def Sched.setTask (s : Sched T H) (t : T) (k : Task H) : Sched T H :=
  { s with tasks := Function.update s.tasks t k }

@[simps! -fullyApplied taskHead timerHead deadline log]
def Sched.setStatus (s : Sched T H) (t : T) (st : TaskStatus) : Sched T H :=
  s.setTask t { s.tasks t with status := st }

/-- `rb_erase` of the task's timer node. -/
@[simps -fullyApplied]
def Sched.rbErase (s : Sched T H) (t : T) : Sched T H :=
  { s with timerHead := RedBlack.erase t s.timerHead }

/-- `list_del_init` of the task's queue node, noted in the history as `act`. -/
@[simps -fullyApplied]
def Sched.listDel (s : Sched T H) (t : T) (act : Ledger.Act T) : Sched T H :=
  { s with taskHead := s.taskHead.erase t, log := s.log ++ [act] }

@[simp] theorem listDel_timers (s : Sched T H) (t : T) (act : Ledger.Act T) :
    (s.listDel t act).timers = s.timers := rfl

@[simp] theorem setTask_timers (s : Sched T H) (t : T) (k : Task H) :
    (s.setTask t k).timers = s.timers := rfl

@[simp] theorem setStatus_timers (s : Sched T H) (t : T) (st : TaskStatus) :
    (s.setStatus t st).timers = s.timers := rfl

/-- A status is set for one task only. -/
@[simp] theorem setStatus_status (s : Sched T H) (t x : T) (st : TaskStatus) :
    ((s.setStatus t st).tasks x).status = if x = t then st else (s.tasks x).status := by
  by_cases hx : x = t
  · subst hx
    simp [Sched.setStatus]
  · simp [Sched.setStatus, hx]

/-- Setting a status changes no deadline. -/
@[simp] theorem setStatus_expire (s : Sched T H) (t x : T) (st : TaskStatus) :
    ((s.setStatus t st).tasks x).expire = (s.tasks x).expire := by
  by_cases hx : x = t
  · subst hx
    simp [Sched.setStatus]
  · simp [Sched.setStatus, hx]

/-- Erasing a node takes the task out of the tree's order. -/
@[simp] theorem rbErase_timers (s : Sched T H) (t : T) :
    (s.rbErase t).timers = s.timers.erase t :=
  RedBlack.toList_erase t s.timerHead

/-- The guarded `rb_erase` with which both schedule functions start. -/
def Sched.disarm (s : Sched T H) (t : T) : Sched T H :=
  if (s.tasks t).status = .timer then s.rbErase t else s

@[simp] theorem disarm_tasks (s : Sched T H) (t : T) : (s.disarm t).tasks = s.tasks := by
  unfold Sched.disarm
  split <;> rfl

@[simp] theorem disarm_taskHead (s : Sched T H) (t : T) :
    (s.disarm t).taskHead = s.taskHead := by
  unfold Sched.disarm
  split <;> rfl

@[simp] theorem disarm_log (s : Sched T H) (t : T) : (s.disarm t).log = s.log := by
  unfold Sched.disarm
  split <;> rfl

@[simp] theorem disarm_deadline (s : Sched T H) (t : T) :
    (s.disarm t).deadline = s.deadline := by
  unfold Sched.disarm
  split <;> rfl

/-- `spe_task_init`. -/
def taskInit (s : Sched T H) (t : T) : Sched T H :=
  s.setTask t { handler := none, expire := 0, status := .free, fast := false, timeout := false }

/-- `spe_task_set_handler`. -/
def taskSetHandler (s : Sched T H) (t : T) (handler : Option H) (fast : Bool) : Sched T H :=
  s.setTask t { s.tasks t with handler := handler, fast := fast }

/-- `spe_task_empty`. -/
def taskEmpty (s : Sched T H) : Bool := s.taskHead.isEmpty

/-- `spe_task_schedule`.  A fast task is returned: its handler is called as
the last act of the function. -/
def taskSchedule (s : Sched T H) (t : T) : Sched T H × Option T :=
  if (s.tasks t).status = .queue then (s, none) else
  let s := s.disarm t
  if (s.tasks t).fast then (s.setStatus t .free, some t)
  else ((s.listAddTail t).setStatus t .queue, none)

/-- `_expire` of a timer armed at time `now`: the sum is made in 64 bits, the
field has 32. -/
def expireAt (now ms : Nat) : Nat := (now + ms) % 2 ^ 64 % 2 ^ 32

/-- `spe_task_schedule_timeout` at time `now`.  The walk down the tree compares
the fields. -/
def taskScheduleTimeout (s : Sched T H) (now ms : Nat) (t : T) : Sched T H :=
  if (s.tasks t).status = .queue then s else
  let s := s.disarm t
  let s := s.setTask t { s.tasks t with expire := expireAt now ms, timeout := false }
  let s : Sched T H := { s with
    timerHead :=
      RedBlack.insert (fun curr => (s.tasks t).expire < (s.tasks curr).expire) t s.timerHead
    deadline := Function.update s.deadline t (now + ms) }
  s.setStatus t .timer

/-- `spe_task_dequeue`. -/
def taskDequeue (s : Sched T H) (t : T) : Sched T H :=
  match (s.tasks t).status with
  | .free => s
  | .queue => (s.listDel t (.remove t)).setStatus t .free
  | .timer => (s.rbErase t).setStatus t .free

/-- The outcome of one round of a loop of `spe_task_process`. -/
inductive Round (σ : Type)
  | done
  | next (s : σ)
  | assertFailed

/-- The timer loop moves a due task to the run queue. -/
def Sched.fire (s : Sched T H) (t : T) : Sched T H :=
  let s := s.rbErase t
  let s := s.setTask t { s.tasks t with timeout := true }
  (s.listAddTail t).setStatus t .queue

/-- The run loop takes a task off the run queue to execute it. -/
def Sched.take (s : Sched T H) (t : T) : Sched T H :=
  (s.listDel t (.execute t)).setStatus t .free

/-- One round of the timer loop of `spe_task_process` at time `curr`. -/
def timerRound (curr : Nat) (s : Sched T H) : Round (Sched T H) :=
  match RedBlack.first s.timerHead with
  | none => .done
  | some t =>
      if curr < (s.tasks t).expire then .done else
      if (s.tasks t).status ≠ .timer then .assertFailed else .next (s.fire t)

/-- One round of the run loop of `spe_task_process`, up to the call of the
handler of the task it took off the queue. -/
def runRound (s : Sched T H) : Round (Sched T H × T) :=
  match s.taskHead with
  | [] => .done
  | t :: _ =>
      if (s.tasks t).status ≠ .queue then .assertFailed else .next (s.take t, t)

/-- What runs on the control stack: the timer loop with the time it read, the
run loop, or the handler of a task. -/
inductive Frame (T : Type)
  | timerLoop (curr : Nat)
  | runLoop
  | handler (t : T)
  deriving DecidableEq

/-- The scheduler, the clock and the control stack. -/
structure Machine (T H : Type) where
  sched : Sched T H
  now : Nat
  stack : List (Frame T)
  aborted : Bool

/-- The calls into the scheduler that any code may make. -/
inductive Call (T H : Type)
  | setHandler (t : T) (handler : Option H) (fast : Bool)
  | schedule (t : T)
  | scheduleTimeout (t : T) (ms : Nat)
  | dequeue (t : T)

/-- The effect of a call; the handler of a fast task becomes the innermost
frame. -/
def Machine.call (m : Machine T H) : Call T H → Machine T H
  | .setHandler t handler fast => { m with sched := taskSetHandler m.sched t handler fast }
  | .schedule t =>
      let r := taskSchedule m.sched t
      match r.2 with
      | none => { m with sched := r.1 }
      | some t => { m with sched := r.1, stack := .handler t :: m.stack }
  | .scheduleTimeout t ms => { m with sched := taskScheduleTimeout m.sched m.now ms t }
  | .dequeue t => { m with sched := taskDequeue m.sched t }

/-- Calls are made from outside any loop or from a running handler. -/
def Machine.canCall (m : Machine T H) : Bool :=
  match m.stack with
  | [] => true
  | .handler _ :: _ => true
  | _ => false

/-- The start of `spe_task_process`: the timer loop is entered only when there
is a timer, and reads the clock once. -/
def Machine.process (m : Machine T H) : Machine T H :=
  if m.sched.timerHead.isEmpty then { m with stack := .runLoop :: m.stack }
  else { m with stack := .timerLoop m.now :: m.stack }

/-- One round of the innermost loop. -/
def Machine.loop (m : Machine T H) : Option (Machine T H) :=
  match m.stack with
  | .timerLoop curr :: rest =>
      match timerRound curr m.sched with
      | .done => some { m with stack := .runLoop :: rest }
      | .next s => some { m with sched := s }
      | .assertFailed => some { m with aborted := true }
  | .runLoop :: rest =>
      match runRound m.sched with
      | .done => some { m with stack := rest }
      | .next (s, t) => some { m with sched := s, stack := .handler t :: .runLoop :: rest }
      | .assertFailed => some { m with aborted := true }
  | _ => none

/-- The return of the innermost handler. -/
def Machine.ret (m : Machine T H) : Option (Machine T H) :=
  match m.stack with
  | .handler _ :: rest => some { m with stack := rest }
  | _ => none

/-- What can happen next: a call, `spe_task_init` on a task in neither
container, a call of `spe_task_process`, a round of the innermost loop, the
return of the innermost handler, or the passing of time. -/
inductive MachineEvent (T H : Type)
  | call (c : Call T H)
  | init (t : T)
  | process
  | loop
  | ret
  | tick (now : Nat)

/-- The step of the machine. -/
def Machine.step (m : Machine T H) (ev : MachineEvent T H) : Option (Machine T H) :=
  if m.aborted then none else
  match ev with
  | .call c => if m.canCall then some (m.call c) else none
  | .init t =>
      if m.canCall ∧ (m.sched.tasks t).status = .free then
        some { m with sched := taskInit m.sched t }
      else none
  | .process => if m.canCall then some m.process else none
  | .loop => m.loop
  | .ret => m.ret
  | .tick now => if m.now ≤ now ∧ now < 2 ^ 64 then some { m with now := now } else none

/-- All tasks initialised, nothing scheduled, nothing running. -/
def Machine.start (T H : Type) : Machine T H where
  sched :=
    { tasks := fun _ => { handler := none, expire := 0, status := .free, fast := false,
                          timeout := false }
      taskHead := []
      timerHead := .nil
      deadline := fun _ => 0
      log := [] }
  now := 0
  stack := []
  aborted := false

/-- What one step can do to the scheduler; `arms` tells which timers it may
arm. -/
inductive SchedStep (now : Nat) (arms : Nat → T → Prop) : Sched T H → Sched T H → Prop
  | keep (s : Sched T H) : SchedStep now arms s s
  | setHandler (s : Sched T H) (t : T) (handler : Option H) (fast : Bool) :
      SchedStep now arms s (taskSetHandler s t handler fast)
  | init (s : Sched T H) (t : T) (hfree : (s.tasks t).status = .free) :
      SchedStep now arms s (taskInit s t)
  | schedule (s : Sched T H) (t : T) : SchedStep now arms s (taskSchedule s t).1
  | scheduleTimeout (s : Sched T H) (ms : Nat) (t : T) (harms : arms ms t) :
      SchedStep now arms s (taskScheduleTimeout s now ms t)
  | dequeue (s : Sched T H) (t : T) : SchedStep now arms s (taskDequeue s t)
  | timerRound (s s' : Sched T H) (curr : Nat) (hround : timerRound curr s = .next s') :
      SchedStep now arms s s'
  | runRound (s s' : Sched T H) (t : T) (hround : runRound s = .next (s', t)) :
      SchedStep now arms s s'

/-- A call neither takes time nor aborts. -/
theorem Machine.call_keeps (m : Machine T H) (c : Call T H) :
    (m.call c).now = m.now ∧ (m.call c).aborted = m.aborted := by
  cases c with
  | schedule t =>
      unfold Machine.call
      dsimp only
      split <;> exact ⟨rfl, rfl⟩
  | _ => exact ⟨rfl, rfl⟩

/-- A call is one operation on the scheduler. -/
theorem Machine.call_sched (m : Machine T H) (c : Call T H) :
    SchedStep m.now (fun ms t => c = .scheduleTimeout t ms) m.sched (m.call c).sched := by
  cases c with
  | setHandler t handler fast => exact .setHandler m.sched t handler fast
  | schedule t =>
      have hsched : (m.call (.schedule t)).sched = (taskSchedule m.sched t).1 := by
        rw [Machine.call]
        split <;> rfl
      rw [hsched]
      exact .schedule m.sched t
  | scheduleTimeout t ms => exact .scheduleTimeout m.sched ms t rfl
  | dequeue t => exact .dequeue m.sched t

/-- A round of a loop that goes on is one operation on the scheduler. -/
theorem Machine.loop_sched {m m' : Machine T H} {arms : Nat → T → Prop}
    (h : m.loop = some m') : SchedStep m.now arms m.sched m'.sched := by
  unfold Machine.loop at h
  split at h
  · rename_i curr rest _
    cases hround : timerRound curr m.sched with
    | done =>
        rw [hround] at h
        obtain rfl := Option.some.inj h
        exact .keep m.sched
    | next s =>
        rw [hround] at h
        obtain rfl := Option.some.inj h
        exact .timerRound m.sched s curr hround
    | assertFailed =>
        rw [hround] at h
        obtain rfl := Option.some.inj h
        exact .keep m.sched
  · rename_i rest _
    cases hround : runRound m.sched with
    | done =>
        rw [hround] at h
        obtain rfl := Option.some.inj h
        exact .keep m.sched
    | next r =>
        obtain ⟨s, t⟩ := r
        rw [hround] at h
        obtain rfl := Option.some.inj h
        exact .runRound m.sched s t hround
    | assertFailed =>
        rw [hround] at h
        obtain rfl := Option.some.inj h
        exact .keep m.sched
  · simp at h

omit [DecidableEq T] in
/-- The return of a handler leaves everything but the stack as it is. -/
theorem Machine.ret_keeps {m m' : Machine T H} (h : m.ret = some m') :
    m.sched = m'.sched ∧ m.now = m'.now ∧ m.aborted = m'.aborted := by
  unfold Machine.ret at h
  split at h
  · obtain rfl := Option.some.inj h
    exact ⟨rfl, rfl, rfl⟩
  · simp at h

/-- **Inversion.**  What a step of the machine is. -/
theorem Machine.step_cases {m m' : Machine T H} {ev : MachineEvent T H}
    (h : m.step ev = some m') :
    m.aborted = false ∧
    match ev with
    | .call c => m.canCall = true ∧ m' = m.call c
    | .init t => m.canCall = true ∧ (m.sched.tasks t).status = .free ∧
        m' = { m with sched := taskInit m.sched t }
    | .process => m.canCall = true ∧ m' = m.process
    | .loop => m.loop = some m'
    | .ret => m.ret = some m'
    | .tick now => m.now ≤ now ∧ m' = { m with now := now } := by
  unfold Machine.step at h
  by_cases habort : m.aborted
  · simp [habort] at h
  · rw [if_neg habort] at h
    refine ⟨by simpa using habort, ?_⟩
    cases ev with
    | call c =>
        obtain ⟨hcan, ⟨⟩⟩ := Option.ite_none_right_eq_some.mp h
        exact ⟨hcan, rfl⟩
    | init t =>
        obtain ⟨hcan, ⟨⟩⟩ := Option.ite_none_right_eq_some.mp h
        exact ⟨hcan.1, hcan.2, rfl⟩
    | process =>
        obtain ⟨hcan, ⟨⟩⟩ := Option.ite_none_right_eq_some.mp h
        exact ⟨hcan, rfl⟩
    | loop => exact h
    | ret => exact h
    | tick now =>
        obtain ⟨hnow, ⟨⟩⟩ := Option.ite_none_right_eq_some.mp h
        exact ⟨hnow.1, rfl⟩

omit [DecidableEq T] in
/-- The start of `spe_task_process` leaves everything but the stack as it is. -/
theorem Machine.process_keeps (m : Machine T H) :
    m.process.sched = m.sched ∧ m.process.now = m.now ∧ m.process.aborted = m.aborted := by
  unfold Machine.process
  split <;> exact ⟨rfl, rfl, rfl⟩

/-- Every step of the machine is one operation on the scheduler; it arms the
timer it is called to arm. -/
theorem Machine.step_sched {m m' : Machine T H} {ev : MachineEvent T H}
    (h : m.step ev = some m') :
    SchedStep m.now (fun ms t => ev = .call (.scheduleTimeout t ms)) m.sched m'.sched := by
  obtain ⟨_, hev⟩ := Machine.step_cases h
  cases ev with
  | call c =>
      obtain ⟨_, rfl⟩ := hev
      simpa using m.call_sched c
  | init t =>
      obtain ⟨_, hfree, rfl⟩ := hev
      exact .init m.sched t hfree
  | process =>
      obtain ⟨_, rfl⟩ := hev
      rw [m.process_keeps.1]
      exact .keep m.sched
  | loop => exact Machine.loop_sched hev
  | ret =>
      rw [← (Machine.ret_keeps hev).1]
      exact .keep m.sched
  | tick now =>
      obtain ⟨_, rfl⟩ := hev
      exact .keep m.sched

end Spe
