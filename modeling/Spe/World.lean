import Spe.ConnRun
import Spe.Epoll
import Spe.Task

/-!
# The event loop

Tasks, descriptors and connections together: the scheduler of `spe_task.c`, the
table of `spe_epoll.c` and the slots of `spe_conn.c`, with what the functions of
`spe_conn.c` ask of the other two.

A step is a call that user code makes, from outside the loops or from one of its
handlers, one event of `epoll_wait`, one round of a loop of `spe_task_process`,
or the execution of a handler of a connection.  A handler of a connection is
called when the run loop takes its task and executes before anything else
happens (`entered`).

`live` and `timed` are history: which connections have been created and not
destroyed, and which pending operations were started with a time limit.
-/

namespace Spe

open Transition

/-- The tasks of a process: `_read_task` and `_write_task`, `post_read_task` and
`post_write_task` of each connection, and those of user code. -/
inductive TaskId
  | op (fd : Nat) (side : Side)
  | post (fd : Nat) (side : Side)
  | user (n : Nat)
  deriving DecidableEq

/-- `_read_task`. -/
abbrev TaskId.readTask (fd : Nat) : TaskId := .op fd .read

/-- `_write_task`. -/
abbrev TaskId.writeTask (fd : Nat) : TaskId := .op fd .write

/-- `post_read_task`. -/
abbrev TaskId.postReadTask (fd : Nat) : TaskId := .post fd .read

/-- `post_write_task`. -/
abbrev TaskId.postWriteTask (fd : Nat) : TaskId := .post fd .write

/-- The handlers: the three of `spe_conn.c` with their connection, and those of
user code. -/
inductive Handler
  | readNormal (fd : Nat)
  | writeNormal (fd : Nat)
  | connectNormal (fd : Nat)
  | user (n : Nat)
  deriving DecidableEq

/-- The handler is code of `spe_conn.c`. -/
def Handler.internal : Handler → Bool
  | .user _ => false
  | _ => true

/-- The state of a process. -/
structure World where
  maxfd : Nat
  machine : Machine TaskId Handler
  epolls : Nat → Epoll TaskId
  conns : Nat → ConnState
  entered : Option TaskId
  crashed : Bool
  live : Nat → Bool
  timed : TaskId → Bool

namespace World

variable (w : World)

/-- A task. -/
def task (t : TaskId) : Task Handler := w.machine.sched.tasks t

def setConn (fd : Nat) (s : ConnState) : World :=
  { w with conns := Function.update w.conns fd s }

def setEpoll (fd : Nat) (e : Epoll TaskId) : World :=
  { w with epolls := Function.update w.epolls fd e }

/-- `SPE_HANDLER_CALL`: a handler of `spe_conn.c` is next to execute; one of user
code runs step by step. -/
def called (t : TaskId) : World :=
  match (w.task t).handler with
  | none => w
  | some h => if h.internal then { w with entered := some t } else w

/-- A call into the scheduler. -/
def call (c : Call TaskId Handler) : World := { w with machine := w.machine.call c }

/-- `spe_task_schedule`, which calls the handler of a fast task. -/
def schedule (t : TaskId) : World :=
  match (taskSchedule w.machine.sched t).2 with
  | none => w.call (.schedule t)
  | some t' => (w.call (.schedule t)).called t'

/-- `spe_epoll_enable`. -/
def epollEnable (fd : Nat) (mask : Mask) (t : TaskId) (ctl : EpollCtl) : World :=
  if w.maxfd ≤ fd then w else w.setEpoll fd ((w.epolls fd).enable mask t ctl).1

/-- `spe_epoll_disable`. -/
def epollDisable (fd : Nat) (mask : Mask) (ctl : EpollCtl) : World :=
  if w.maxfd ≤ fd then w else w.setEpoll fd ((w.epolls fd).disable mask ctl).1

/-- Start an asynchronous operation: set the handler of its task, enable its
events, arm its timer. -/
def beginOp (fd : Nat) (t : TaskId) (h : Handler) (mask : Mask) (ms : Nat) (ctl : EpollCtl) :
    World :=
  let w := w.call (.setHandler t (some h) false)
  let w := w.epollEnable fd mask t ctl
  let w : World := { w with timed := Function.update w.timed t (decide (ms ≠ 0)) }
  if ms ≠ 0 then w.call (.scheduleTimeout t ms) else w

/-- `end_out`: disable the events of an operation, stop its timer and schedule
its post task. -/
def endOp (fd : Nat) (t post : TaskId) (mask : Mask) (ms : Nat) (ctl : EpollCtl) : World :=
  let w := w.epollDisable fd mask ctl
  let w := if ms ≠ 0 then w.call (.dequeue t) else w
  w.schedule post

/-- The end of `spe_conn_read_async`. -/
def beginRead (fd : Nat) (ctl : EpollCtl) : World :=
  w.beginOp fd (.readTask fd) (.readNormal fd) SPE_EPOLL_READ
    (w.conns fd).conn.readExpireTime ctl

/-- The end of `spe_conn_flush`. -/
def beginWrite (fd : Nat) (ctl : EpollCtl) : World :=
  w.beginOp fd (.writeTask fd) (.writeNormal fd) SPE_EPOLL_WRITE
    (w.conns fd).conn.writeExpireTime ctl

/-- The asynchronous end of `spe_conn_connect`. -/
def beginConnect (fd : Nat) (ctl : EpollCtl) : World :=
  w.beginOp fd (.readTask fd) (.connectNormal fd) (SPE_EPOLL_READ ||| SPE_EPOLL_WRITE)
    (w.conns fd).conn.readExpireTime ctl

/-- `end_out` of `read_normal`. -/
def endRead (fd : Nat) (ctl : EpollCtl) : World :=
  w.endOp fd (.readTask fd) (.postReadTask fd) SPE_EPOLL_READ
    (w.conns fd).conn.readExpireTime ctl

/-- `end_out` of `write_normal`. -/
def endWrite (fd : Nat) (ctl : EpollCtl) : World :=
  w.endOp fd (.writeTask fd) (.postWriteTask fd) SPE_EPOLL_WRITE
    (w.conns fd).conn.writeExpireTime ctl

/-- `end_out` of `connect_normal`. -/
def endConnect (fd : Nat) (ctl : EpollCtl) : World :=
  w.endOp fd (.readTask fd) (.postReadTask fd) (SPE_EPOLL_READ ||| SPE_EPOLL_WRITE)
    (w.conns fd).conn.readExpireTime ctl

/-- A call of the connection's user, with what it asks of the other modules. -/
def userCall (fd : Nat) (ev : ConnEvent) (ctl : EpollCtl) : Option World :=
  match connStep (w.conns fd) ev with
  | none => none
  | some (s, out) =>
      let w := w.setConn fd s
      match ev, out with
      | .issue _ _ _, .done => some (w.schedule (.postReadTask fd))
      | .issue _ _ _, .pending => some (w.beginRead fd ctl)
      | .flush _, .done => some (w.schedule (.postWriteTask fd))
      | .flush _, .pending => some (w.beginWrite fd ctl)
      | .connect _, .done => some (w.schedule (.postReadTask fd))
      | .connect _, .pending => some (w.beginConnect fd ctl)
      | .readNormal _ _ _, _ => none
      | .writeNormal _ _, _ => none
      | .connectNormal _ _, _ => none
      | _, _ => some w

/-- What the system calls of a handler answer. -/
inductive Answer
  | read (al : Allocs) (rs : List ReadRes)
  | write (r : WriteRes)
  | connect (soError : Bool)

/-- The handler that has been called executes. -/
def leave : World := { w with entered := none }

/-- The execution of the handler that has been called. -/
def handle (ans : Answer) (ctl : EpollCtl) : Option World :=
  match w.entered with
  | none => none
  | some t =>
      let w := w.leave
      match (w.task t).handler, ans with
      | some (.readNormal fd), .read al rs =>
          match (w.conns fd).readNormal (w.task (.readTask fd)).timeout al rs with
          | none => none
          | some (s, out) =>
              let w := w.setConn fd s
              if out = .done then some (w.endRead fd ctl) else some w
      | some (.writeNormal fd), .write r =>
          let res := (w.conns fd).writeNormal (w.task (.writeTask fd)).timeout r
          let w := w.setConn fd res.1
          if res.2 = .done then some (w.endWrite fd ctl) else some w
      | some (.connectNormal fd), .connect soError =>
          let s := (w.conns fd).connectNormal (w.task (.readTask fd)).timeout soError
          some ((w.setConn fd s).endConnect fd ctl)
      | _, _ => none

/-- `spe_task_init`. -/
def init (t : TaskId) : World :=
  { w with machine := { w.machine with sched := taskInit w.machine.sched t } }

/-- The tasks that `conn_initialize` initialises. -/
def initTasks (fd : Nat) : World :=
  let w := w.init (.readTask fd)
  let w := w.init (.writeTask fd)
  let w := w.init (.postReadTask fd)
  w.init (.postWriteTask fd)

/-- `spe_conn_create`: a slot whose `_fd` is 0 is initialised. -/
def create (fd : Nat) : World :=
  let c := (w.conns fd).conn
  let w := if c.fd = 0 then w.initTasks fd else w
  let w := w.setConn fd (.created c fd)
  { w with live := Function.update w.live fd true }

/-- The calls of `spe_task_dequeue` in `spe_conn_destroy`. -/
def dequeueTasks (fd : Nat) : World :=
  let w := w.call (.dequeue (.readTask fd))
  let w := w.call (.dequeue (.writeTask fd))
  let w := w.call (.dequeue (.postReadTask fd))
  w.call (.dequeue (.postWriteTask fd))

/-- `spe_conn_destroy`. -/
def destroy (fd : Nat) (ctl : EpollCtl) : World :=
  let w := w.dequeueTasks fd
  let w := w.epollDisable fd (SPE_EPOLL_READ ||| SPE_EPOLL_WRITE) ctl
  { w with live := Function.update w.live fd false }

/-- One event of `epoll_wait`: it schedules the task of its side if the bit is set.
There is no task behind a NULL pointer. -/
def ready (fd : Nat) (side : Side) : World :=
  if (w.epolls fd).wide.has side then
    match (w.epolls fd).taskOf side with
    | none => { w with crashed := true }
    | some t => w.schedule t
  else w

/-- One round of a loop of `spe_task_process`. -/
def loop : Option World :=
  match w.machine.loop with
  | none => none
  | some m =>
      let w' : World := { w with machine := m }
      match w.machine.stack, runRound w.machine.sched with
      | .runLoop :: _, .next (_, t) => some (w'.called t)
      | _, _ => some w'

/-- User code may act: no handler of a connection is executing, and no loop of
`spe_task_process` is to go on first. -/
def userRuns : Bool :=
  w.entered = none &&
    match w.machine.stack with
    | [] => true
    | .handler (.op _ _) :: _ => false
    | .handler _ :: _ => true
    | _ => false

/-- The tasks that user code may use: its own, and the post tasks of its
connections. -/
def mayUse (t : TaskId) : Bool :=
  match t with
  | .op _ _ => false
  | .post fd _ => w.live fd
  | .user _ => true

/-- The calls into the scheduler that user code may make. -/
def mayCall (c : Call TaskId Handler) : Bool :=
  match c with
  | .setHandler t handler _ => w.mayUse t && handler.all (fun h => !h.internal)
  | .schedule t => w.mayUse t
  | .scheduleTimeout t _ => w.mayUse t
  | .dequeue t => w.mayUse t

end World

/-- What can happen next. -/
inductive WorldEvent
  | call (c : Call TaskId Handler)
  | init (n : Nat)
  | epollEnable (fd : Nat) (mask : Mask) (n : Nat) (ctl : EpollCtl)
  | epollDisable (fd : Nat) (mask : Mask) (ctl : EpollCtl)
  | create (fd : Nat)
  | destroy (fd : Nat) (ctl : EpollCtl)
  | userCall (fd : Nat) (ev : ConnEvent) (ctl : EpollCtl)
  | ready (fd : Nat) (side : Side)
  | process
  | loop
  | ret
  | handle (ans : World.Answer) (ctl : EpollCtl)
  | tick (now : Nat)

/-- The step of a process. -/
def World.step (w : World) (ev : WorldEvent) : Option World :=
  if w.crashed ∨ w.machine.aborted then none else
  match ev with
  | .call c =>
      if w.userRuns ∧ w.mayCall c then
        match c with
        | .schedule t => some (w.schedule t)
        | c => some (w.call c)
      else none
  | .init n =>
      -- a task in a container is not initialised again
      if w.userRuns ∧ (w.task (.user n)).status = .free then some (w.init (.user n)) else none
  | .epollEnable fd mask n ctl =>
      if w.userRuns then some (w.epollEnable fd mask (.user n) ctl) else none
  | .epollDisable fd mask ctl =>
      if w.userRuns then some (w.epollDisable fd mask ctl) else none
  | .create fd =>
      -- the kernel gives out a descriptor again only after it was closed
      if w.userRuns ∧ fd < w.maxfd ∧ w.live fd = false then some (w.create fd) else none
  | .destroy fd ctl => if w.userRuns ∧ w.live fd then some (w.destroy fd ctl) else none
  | .userCall fd ev ctl => if w.userRuns ∧ w.live fd then w.userCall fd ev ctl else none
  | .ready fd side => if w.userRuns then some (w.ready fd side) else none
  | .process => if w.userRuns then some { w with machine := w.machine.process } else none
  | .loop => if w.entered = none then w.loop else none
  | .ret =>
      if w.entered = none then w.machine.ret.map (fun m => { w with machine := m }) else none
  | .handle ans ctl => w.handle ans ctl
  | .tick now =>
      if w.machine.now ≤ now ∧ now < 2 ^ 64 then
        some { w with machine := { w.machine with now := now } }
      else none

/-- A process whose modules have been initialised. -/
def World.start (maxfd : Nat) : World where
  maxfd := maxfd
  machine := Machine.start TaskId Handler
  epolls := fun _ => .zero
  conns := fun _ => ⟨Conn.zero, History.start⟩
  entered := none
  crashed := false
  live := fun _ => false
  timed := fun _ => false

end Spe
