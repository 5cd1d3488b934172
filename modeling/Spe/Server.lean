import Mathlib.Data.List.GetD
import Mathlib.Data.List.Nodup
import Spe.Epoll
import Spe.Mutex
import Spe.Transition

/-!
# Servers and worker processes (`spe_server.c`, `spe_worker.c`, `spe.c`)

The workers are forked from the master and run the same loop.  Each has its own
copy of the server list, with the flag `_accept_mutex_hold` of each server, and
its own epoll table; the mutex of a server lies in shared memory.

A step of a worker is one access to a mutex, or what it does to its own memory
until the next one.  Workers are numbered in the order of their `fork`, so that a
new one is told from a dead one whose pid it was given.
-/

namespace Spe

open Transition

/-- `SPE_EPOLL_LISTEN`. -/
def SPE_EPOLL_LISTEN : Mask := 1

/-- The bit that `SPE_EPOLL_LISTEN` sets is that of the read side. -/
theorem has_LISTEN (side : Side) : SPE_EPOLL_LISTEN.has side = true ↔ side = .read := by
  cases side <;> decide

/-- The list `server_head`: the descriptors `_sfd` of the servers, in the order of their
registration. -/
structure ServerList where
  sfds : List Nat
  nodup : sfds.Nodup

namespace ServerList

variable (servers : ServerList)

/-- How many servers there are. -/
def count : Nat := servers.sfds.length

/-- `_sfd` of a server. -/
def sfd (k : Nat) : Nat := servers.sfds.getD k 0

/-- Servers have different descriptors. -/
theorem sfd_inj {j k : Nat} (hj : j < servers.count) (hk : k < servers.count)
    (h : servers.sfd j = servers.sfd k) : j = k := by
  have hget : ∀ i (hi : i < servers.count), servers.sfd i = servers.sfds.get ⟨i, hi⟩ := by
    intro i hi
    exact List.getD_eq_getElem _ _ hi
  rw [hget j hj, hget k hk] at h
  exact Fin.mk.inj (servers.nodup.injective_get h)

/-- The descriptor of a server is in the list. -/
theorem sfd_mem {k : Nat} (hk : k < servers.count) : servers.sfd k ∈ servers.sfds := by
  have hget : servers.sfd k = servers.sfds.get ⟨k, hk⟩ := List.getD_eq_getElem _ _ hk
  rw [hget]
  exact List.get_mem _ _

end ServerList

/-- The tasks in the epoll table of a worker: `_listen_task` of a server, and all
others. -/
inductive LoopTask
  | listen (k : Nat)
  | other (n : Nat)
  deriving DecidableEq

/-- Where a worker is in the loop of `spe_worker_process`: before, or right after, the
`trylock` of a server in `spe_server_preloop`; in `spe_epoll_process`; before a server in
`spe_server_postloop`; in `spe_task_process`; in `spe_signal_process`. -/
inductive WorkerPc
  | preloop (k : Nat)
  | acquired (k : Nat)
  | refused (k : Nat)
  | epollProcess
  | postloop (k : Nat)
  | taskProcess
  | signalProcess
  deriving DecidableEq

/-- Handlers are called here. -/
def WorkerPc.handling : WorkerPc → Bool
  | .epollProcess => true
  | .taskProcess => true
  | .signalProcess => true
  | _ => false

/-- The memory of a worker: its place in the loop, `_accept_mutex_hold` of each server, and
its epoll table. -/
structure Worker where
  pc : WorkerPc
  hold : Nat → Bool
  epolls : Nat → Epoll LoopTask

/-- The owners of the mutexes `_accept_mutex`. -/
abbrev AcceptMutexes := Mutex.Table Nat Nat

namespace Worker

variable (servers : ServerList) (p : Worker)

/-- A forked worker at the start of its loop. -/
def start : Worker where
  pc := .preloop 0
  hold := fun _ => false
  epolls := fun _ => .zero

/-- `trylock` of a server's mutex has succeeded. -/
def acquire (k : Nat) : Worker :=
  if p.hold k then { p with pc := .preloop (k + 1) }
  else
    { pc := .preloop (k + 1)
      hold := Function.update p.hold k true
      epolls := Function.update p.epolls (servers.sfd k)
        ((p.epolls (servers.sfd k)).enable SPE_EPOLL_LISTEN (.listen k) ctlGood).1 }

/-- `trylock` of a server's mutex has failed. -/
def refuse (k : Nat) : Worker :=
  if p.hold k then
    { pc := .preloop (k + 1)
      hold := Function.update p.hold k false
      epolls := Function.update p.epolls (servers.sfd k)
        ((p.epolls (servers.sfd k)).disable SPE_EPOLL_LISTEN ctlGood).1 }
  else { p with pc := .preloop (k + 1) }

/-- The next step of worker `w` in its loop. -/
def step (w : Nat) (mutexes : AcceptMutexes) : AcceptMutexes × Worker :=
  match p.pc with
  | .preloop k =>
      if k < servers.count then
        let res := Mutex.trylock mutexes k w
        (res.1, { p with pc := if res.2 then .acquired k else .refused k })
      else (mutexes, { p with pc := .epollProcess })
  | .acquired k => (mutexes, p.acquire servers k)
  | .refused k => (mutexes, p.refuse servers k)
  | .epollProcess => (mutexes, { p with pc := .postloop 0 })
  | .postloop k =>
      if k < servers.count then
        (if p.hold k then Mutex.unlock mutexes k else mutexes,
          { p with pc := .postloop (k + 1) })
      else (mutexes, { p with pc := .taskProcess })
  | .taskProcess => (mutexes, { p with pc := .signalProcess })
  | .signalProcess => (mutexes, { p with pc := .preloop 0 })

end Worker

/-- `SPE_MAX_WORKER`. -/
def SPE_MAX_WORKER : Nat := 128

/-- `get_slot` on the table `spe_workers`, of which only the pids are kept. -/
def getSlot (speWorkers : List Nat) : Option Nat := speWorkers.idxOf? 0

/-- `spe_worker_reset`; `none` is its result -1. -/
def workerReset (speWorkers : List Nat) (pid : Nat) : Option (List Nat) :=
  (speWorkers.idxOf? pid).map (fun i => speWorkers.set i 0)

/-- What has become of a worker process: it runs, it has crashed, the master has reaped
it. -/
inductive Life
  | running
  | crashed
  | reaped
  deriving DecidableEq

/-- A worker process. -/
structure Proc where
  pid : Nat
  life : Life
  worker : Worker

/-- What the master does: `main` forks the workers, `spe_master_process` waits, and forks
again for a reaped worker. -/
inductive Master
  | starting (left : Nat)
  | waiting
  | restarting
  deriving DecidableEq

/-- The processes of a server program: what the master does, its table `spe_workers`, the
worker processes in the order of their `fork`, and the shared mutexes. -/
structure Prefork where
  master : Master
  speWorkers : List Nat
  procs : List Proc
  mutexes : AcceptMutexes

/-- What can happen next: a step of a worker's loop, a change that the handlers of a worker
make to another descriptor, a crash, and the acts of the master. -/
inductive PreforkEvent
  | loop (w : Nat)
  | entry (w : Nat) (fd : Nat) (e : Epoll LoopTask)
  | crash (w : Nat)
  | ready
  | reap (w : Nat)
  | fork (pid : Option Nat)

namespace Prefork

variable (s : Prefork)

/-- `main` before it forks `cycle.procs` workers. -/
def start (procs : Nat) : Prefork where
  master := .starting procs
  speWorkers := List.replicate SPE_MAX_WORKER 0
  procs := []
  mutexes := .free

/-- A running worker changes its memory. -/
def setWorker (w : Nat) (p : Proc) (worker : Worker) : Prefork :=
  { s with procs := s.procs.set w { p with worker := worker } }

/-- A process changes its state. -/
def setLife (w : Nat) (p : Proc) (life : Life) : Prefork :=
  { s with procs := s.procs.set w { p with life := life } }

/-- The kernel gives the pid to no process that is not reaped. -/
def pidFree (pid : Nat) : Bool := s.procs.all (fun p => p.pid ≠ pid || p.life = .reaped)

/-- What the master does after `spe_worker_fork` has returned. -/
def forked (ok : Bool) : Option Master :=
  match s.master with
  | .starting (left + 1) => if ok then some (.starting left) else none
  | .restarting => some .waiting
  | _ => none

/-- `spe_worker_fork` in the master; with `none` the new process could not be made. -/
def workerFork (pid : Option Nat) : Option Prefork :=
  match getSlot s.speWorkers, pid with
  | some i, some pid =>
      if pid ≠ 0 ∧ s.pidFree pid then
        (s.forked true).map (fun master =>
          { s with
            master := master
            speWorkers := s.speWorkers.set i pid
            procs := s.procs ++ [⟨pid, .running, .start⟩] })
      else none
  | _, _ => (s.forked false).map (fun master => { s with master := master })

/-- `waitpid` reaps a process, and the master calls `spe_worker_reset`. -/
def reap (w : Nat) (p : Proc) : Prefork :=
  let s := s.setLife w p .reaped
  match workerReset s.speWorkers p.pid with
  | none => s
  | some speWorkers => { s with master := .restarting, speWorkers := speWorkers }

/-- The step of the processes. -/
def step (servers : ServerList) (s : Prefork) : PreforkEvent → Option Prefork
  | .loop w =>
      match s.procs[w]? with
      | none => none
      | some p =>
          if p.life = .running then
            let res := p.worker.step servers w s.mutexes
            some { s.setWorker w p res.2 with mutexes := res.1 }
          else none
  | .entry w fd e =>
      match s.procs[w]? with
      | none => none
      | some p =>
          -- no handler changes the entry of a listening descriptor
          if p.life = .running ∧ p.worker.pc.handling ∧ fd ∉ servers.sfds then
            some (s.setWorker w p
              { p.worker with epolls := Function.update p.worker.epolls fd e })
          else none
  | .crash w =>
      match s.procs[w]? with
      | none => none
      | some p => if p.life = .running then some (s.setLife w p .crashed) else none
  | .ready => if s.master = .starting 0 then some { s with master := .waiting } else none
  | .reap w =>
      match s.procs[w]? with
      | none => none
      | some p => if p.life = .crashed ∧ s.master = .waiting then some (s.reap w p) else none
  | .fork pid => s.workerFork pid

end Prefork

end Spe
