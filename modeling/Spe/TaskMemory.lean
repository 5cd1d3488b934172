import Spe.Links
import Spe.RbErase
import Spe.RbInsert
import Spe.TaskPlacement

/-!
# The task scheduler in memory (`spe_task.c`)

The same functions as in the model of the scheduler, now on `struct list_head` and
`struct rb_node`.  A timer is armed by a walk down through a pointer to a pointer,
`rb_link_node` and `rb_insert_color`, disarmed by `rb_erase` and `rb_init_node`, and the next
one to fire is what `rb_first` finds; `rb_entry` gets the task back from the address of its
timer node.  The run queue is a ring through `task_head`, and a task that leaves it is linked
to itself.

The loops over the tree are allowed `fuel` rounds each; the result is `none` when one needs
more, or when a null pointer is followed.
-/

namespace Spe

open Links (Spot)

/-- Where the timer node of each task is, and `rb_entry`. -/
structure Layout (T : Type) extends Addressing T where
  rbEntry : Word → T
  rbEntry_addr : ∀ t, rbEntry (addr t) = t

/-- The state of the scheduler: the tasks but for their two nodes, the ring of `task_head` and
the queue nodes, and the memory with the timer nodes and `timer_head`. -/
structure PtrSched (T H : Type) where
  tasks : T → Task H
  taskHead : Links.Ring T
  mem : RbMem

/-- The walk of `spe_task_schedule_timeout` down the tree. -/
def timerWalk (goLeft : Word → Bool) : Nat → RbLink → Word → RbMem → Option (RbLink × Word)
  | 0, _, _, _ => none
  | fuel + 1, new, parent, m => do
      let p ← m.load new
      if p = 0 then some (new, parent) else
      timerWalk goLeft fuel (.child (if goLeft p then .left else .right) p) p m

variable {T H : Type} [DecidableEq T]

/-- `list_add_tail` to `task_head`. -/
def PtrSched.listAddTail (s : PtrSched T H) (t : T) : Option (PtrSched T H) := do
  let r ← s.taskHead.addTail (.node t)
  some { s with taskHead := r }

/-- `list_del_init` of the task's queue node. -/
def PtrSched.listDelInit (s : PtrSched T H) (t : T) : Option (PtrSched T H) := do
  let r ← s.taskHead.del (.node t)
  some { s with taskHead := r.init (.node t) }

/-- `spe_task_empty`. -/
def ptrTaskEmpty (s : PtrSched T H) : Bool := s.taskHead.next .head = some .head

def PtrSched.setTask (s : PtrSched T H) (t : T) (k : Task H) : PtrSched T H :=
  { s with tasks := Function.update s.tasks t k }

def PtrSched.setStatus (s : PtrSched T H) (t : T) (st : TaskStatus) : PtrSched T H :=
  s.setTask t { s.tasks t with status := st }

section Calls

variable (L : Layout T) (fuel : Nat)

/-- `rb_erase` and `rb_init_node` of the task's timer node. -/
def PtrSched.rbErase (s : PtrSched T H) (t : T) : Option (PtrSched T H) := do
  let m ← Spe.rbErase fuel (L.addr t) s.mem
  let m ← rbInitNode (L.addr t) m
  some { s with mem := m }

/-- The guard with which both schedule functions start. -/
def PtrSched.disarm (s : PtrSched T H) (t : T) : Option (PtrSched T H) :=
  if (s.tasks t).status = .timer then s.rbErase L fuel t else some s

/-- `spe_task_init`. -/
def ptrTaskInit (s : PtrSched T H) (t : T) : Option (PtrSched T H) := do
  let m ← rbInitNode (L.addr t) s.mem
  some ({ s with mem := m, taskHead := s.taskHead.init (.node t) }.setTask t
    { handler := none, expire := 0, status := .free, fast := false, timeout := false })

/-- `spe_task_set_handler`. -/
def ptrTaskSetHandler (s : PtrSched T H) (t : T) (handler : Option H) (fast : Bool) :
    PtrSched T H :=
  s.setTask t { s.tasks t with handler := handler, fast := fast }

/-- `spe_task_schedule`. -/
def ptrTaskSchedule (s : PtrSched T H) (t : T) : Option (PtrSched T H × Option T) :=
  if (s.tasks t).status = .queue then some (s, none) else do
    let s ← s.disarm L fuel t
    if (s.tasks t).fast then some (s.setStatus t .free, some t) else
    let s ← s.listAddTail t
    some (s.setStatus t .queue, none)

/-- `spe_task_schedule_timeout` at time `now`. -/
def ptrTaskScheduleTimeout (s : PtrSched T H) (now ms : Nat) (t : T) :
    Option (PtrSched T H) :=
  if (s.tasks t).status = .queue then some s else do
    let s ← s.disarm L fuel t
    let s := s.setTask t { s.tasks t with expire := expireAt now ms, timeout := false }
    let (new, parent) ← timerWalk
      (fun p => (s.tasks t).expire < (s.tasks (L.rbEntry p)).expire) fuel .root 0 s.mem
    let m ← rbLinkNode (L.addr t) parent new s.mem
    let m ← rbInsertColor fuel (L.addr t) m
    some ({ s with mem := m }.setStatus t .timer)

/-- `spe_task_dequeue`. -/
def ptrTaskDequeue (s : PtrSched T H) (t : T) : Option (PtrSched T H) :=
  match (s.tasks t).status with
  | .free => some s
  | .queue => do
      let s ← s.listDelInit t
      some (s.setStatus t .free)
  | .timer => do
      let s ← s.rbErase L fuel t
      some (s.setStatus t .free)

/-- The timer loop moves a due task to the run queue. -/
def PtrSched.fire (s : PtrSched T H) (t : T) : Option (PtrSched T H) := do
  let s ← s.rbErase L fuel t
  let s := s.setTask t { s.tasks t with timeout := true }
  let s ← s.listAddTail t
  some (s.setStatus t .queue)

/-- One round of the timer loop of `spe_task_process` at time `curr`. -/
def ptrTimerRound (curr : Nat) (s : PtrSched T H) : Option (Round (PtrSched T H)) := do
  let first ← rbFirst fuel s.mem
  if first = 0 then some .done else
  let t := L.rbEntry first
  if curr < (s.tasks t).expire then some .done else
  if (s.tasks t).status ≠ .timer then some .assertFailed else
  let s ← s.fire L fuel t
  some (.next s)

end Calls

/-- One round of the run loop of `spe_task_process`. -/
def ptrRunRound (s : PtrSched T H) : Option (Round (PtrSched T H × T)) := do
  match ← s.taskHead.next .head with
  | .head => some .done
  | .node t =>
      if (s.tasks t).status ≠ .queue then some .assertFailed else
      let s ← s.listDelInit t
      some (.next (s.setStatus t .free, t))

/-- The scheduler, the clock and the control stack. -/
structure PtrMachine (T H : Type) where
  sched : PtrSched T H
  now : Nat
  stack : List (Frame T)
  aborted : Bool

namespace PtrMachine

variable (L : Layout T) (fuel : Nat)

/-- The effect of a call. -/
def call (m : PtrMachine T H) : Call T H → Option (PtrMachine T H)
  | .setHandler t handler fast =>
      some { m with sched := ptrTaskSetHandler m.sched t handler fast }
  | .schedule t => do
      let r ← ptrTaskSchedule L fuel m.sched t
      match r.2 with
      | none => some { m with sched := r.1 }
      | some t => some { m with sched := r.1, stack := .handler t :: m.stack }
  | .scheduleTimeout t ms => do
      let s ← ptrTaskScheduleTimeout L fuel m.sched m.now ms t
      some { m with sched := s }
  | .dequeue t => do
      let s ← ptrTaskDequeue L fuel m.sched t
      some { m with sched := s }

/-- Calls are made from outside any loop or from a running handler. -/
def canCall (m : PtrMachine T H) : Bool :=
  match m.stack with
  | [] => true
  | .handler _ :: _ => true
  | _ => false

/-- The start of `spe_task_process`, with `RB_EMPTY_ROOT`. -/
def process (m : PtrMachine T H) : PtrMachine T H :=
  if m.sched.mem.root = 0 then { m with stack := .runLoop :: m.stack }
  else { m with stack := .timerLoop m.now :: m.stack }

/-- One round of the innermost loop. -/
def loop (m : PtrMachine T H) : Option (PtrMachine T H) :=
  match m.stack with
  | .timerLoop curr :: rest => do
      match ← ptrTimerRound L fuel curr m.sched with
      | .done => some { m with stack := .runLoop :: rest }
      | .next s => some { m with sched := s }
      | .assertFailed => some { m with aborted := true }
  | .runLoop :: rest => do
      match ← ptrRunRound m.sched with
      | .done => some { m with stack := rest }
      | .next (s, t) => some { m with sched := s, stack := .handler t :: .runLoop :: rest }
      | .assertFailed => some { m with aborted := true }
  | _ => none

/-- The return of the innermost handler. -/
def ret (m : PtrMachine T H) : Option (PtrMachine T H) :=
  match m.stack with
  | .handler _ :: rest => some { m with stack := rest }
  | _ => none

/-- The step of the machine. -/
def step (m : PtrMachine T H) (ev : MachineEvent T H) : Option (PtrMachine T H) :=
  if m.aborted then none else
  match ev with
  | .call c => if m.canCall then m.call L fuel c else none
  | .init t =>
      if m.canCall ∧ (m.sched.tasks t).status = .free then do
        let s ← ptrTaskInit L m.sched t
        some { m with sched := s }
      else none
  | .process => if m.canCall then some m.process else none
  | .loop => m.loop L fuel
  | .ret => m.ret
  | .tick now => if m.now ≤ now ∧ now < 2 ^ 64 then some { m with now := now } else none

/-- All tasks initialised, nothing scheduled, nothing running. -/
def start (L : Layout T) (H : Type) : PtrMachine T H where
  sched :=
    { tasks := fun _ => { handler := none, expire := 0, status := .free, fast := false,
                          timeout := false }
      taskHead := ⟨fun p => some p, fun p => some p⟩
      mem :=
        { node := fun p => if L.addr (L.rbEntry p) = p then some ⟨p, 0, 0⟩ else none
          root := 0 } }
  now := 0
  stack := []
  aborted := false

end PtrMachine

end Spe
