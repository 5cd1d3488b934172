import Spe.Signal
import Spe.WorkerTable

/-!
# The master and its signals (`spe.c`)

The loop of `spe_master_process`, cut where a signal may arrive: each step of it is one
event, and so is each run of `signal_common_handler`, which is possible whenever the
signals are not blocked.  `owed` is history: the signals that have been delivered and
not yet handed to their handler.

The master sleeps in `sigsuspend` with all signals unblocked, but it does not block them
before: a signal that arrives after the test of the queue, or after the old mask is
restored, is put into the queue, and `sigsuspend` then waits for another one
(`late_signal_sleeps`).  In a run in which no signal arrives between there and
`sigsuspend`, unless the master is about to stop, the queue is empty whenever it sleeps
(`asleep_owes_nothing`).
-/

namespace Spe

open Transition

/-- The handlers that the master registers. -/
inductive MasterHandler
  | reapWorker
  | stopWorker
  deriving DecidableEq

/-- The calls of `spe_signal_register` in the master, in order: `SIGPIPE`, `SIGHUP`,
`SIGCHLD`, `SIGTERM`, `SIGINT` and `SIGUSR1`. -/
def masterSignals : List (Int × SigHandler MasterHandler) :=
  [(13, .SIG_IGN), (1, .SIG_IGN), (17, .handler .reapWorker), (15, .handler .stopWorker),
    (2, .handler .stopWorker), (10, .handler .stopWorker)]

/-- Where the master is. -/
inductive MasterPc
  /-- before the call `k` of `spe_signal_register` -/
  | register (k : Nat)
  /-- before `sigsuspend` -/
  | suspend
  /-- in `sigsuspend` -/
  | asleep
  /-- before the test of `signal_queue_len` in `spe_signal_process` -/
  | signalTest
  /-- before the mask is set -/
  | block
  /-- in the loop over the queue, before the signal `i` -/
  | handling (i : Nat)
  /-- before the old mask is restored -/
  | unblock
  /-- before the test of `spe_reap_worker` -/
  | reapTest
  /-- before `waitpid` -/
  | waiting
  /-- before `spe_worker_fork` -/
  | forking
  /-- before the test of `spe_stop_worker` -/
  | stopTest
  /-- behind the loop -/
  | exited
  deriving DecidableEq

/-- The master process. -/
structure MasterProc where
  pc : MasterPc
  blocked : Bool
  signals : Signals MasterHandler
  speReapWorker : Bool
  speStopWorker : Bool
  table : WorkerTable
  owed : Int → Bool

/-- What can happen: a signal is delivered, or the master makes a step.  The answers of
`waitpid` and of the system calls in `spe_worker_fork` come with the step; `waitpid` with no
child is 0 or -1. -/
inductive MasterEvent
  | deliver (sig : Int)
  | step
  | waitpid (child : Option Int)
  | fork (channel : Option (Nat × Nat)) (child : Option Int)

namespace MasterProc

variable (s : MasterProc)

/-- The master at the start of `spe_master_process`; `main` has forked the workers. -/
def start (table : WorkerTable) : MasterProc where
  pc := .register 0
  blocked := false
  signals := .signalInit
  speReapWorker := false
  speStopWorker := false
  table := table
  owed := fun _ => false

/-- `signal_common_handler` runs, and `sigsuspend` returns. -/
def deliver (sig : Int) : MasterProc :=
  { s with
    signals := s.signals.commonHandler sig
    owed := Function.update s.owed sig
      (s.owed sig || (s.signals.signalState sig).handler.isSome)
    pc := if s.pc = .asleep then .signalTest else s.pc }

/-- The handlers `reap_worker` and `stop_worker`. -/
def call : Option MasterHandler → MasterProc
  | none => s
  | some .reapWorker => { s with speReapWorker := true }
  | some .stopWorker => { s with speStopWorker := true }

/-- A round of the loop in `spe_signal_process`. -/
def handle (sig : Int) : MasterProc :=
  let (handler, signals) := s.signals.processOne sig
  let s : MasterProc := { s with signals := signals }
  { s.call handler with
    owed := Function.update s.owed sig (s.owed sig && handler.isNone) }

/-- A step of the master. -/
def next : Option MasterProc :=
  match s.pc with
  | .register k =>
      match masterSignals[k]? with
      | some (sig, handler) =>
          some { s with signals := s.signals.register sig handler, pc := .register (k + 1) }
      | none => some { s with pc := .suspend }
  | .suspend => some { s with pc := .asleep }
  | .signalTest =>
      some { s with pc := if s.signals.signalQueue.length = 0 then .reapTest else .block }
  | .block => some { s with blocked := true, pc := .handling 0 }
  | .handling i =>
      match s.signals.signalQueue[i]? with
      | some sig => some { s.handle sig with pc := .handling (i + 1) }
      | none => some { s with signals := s.signals.clearQueue, pc := .unblock }
  | .unblock => some { s with blocked := false, pc := .reapTest }
  | .reapTest => some { s with pc := if s.speReapWorker then .waiting else .stopTest }
  | .stopTest =>
      if s.speStopWorker then some { s with table := s.table.workerStop, pc := .exited }
      else some { s with pc := .suspend }
  | _ => none

/-- `waitpid` in the loop over the dead workers, and `spe_worker_reset`. -/
def waited : Option Int → MasterProc
  | none => { s with speReapWorker := false, pc := .stopTest }
  | some pid =>
      let (table, res) := s.table.workerReset pid
      { s with table := table, pc := if res < 0 then .waiting else .forking }

/-- A new worker is forked for the one that was reset. -/
def forked (channel : Option (Nat × Nat)) (child : Option Int) : MasterProc :=
  { s with table := (s.table.workerFork channel child).1, pc := .waiting }

/-- The step of the master and its signals. -/
def step : MasterEvent → Option MasterProc
  | .deliver sig =>
      if s.blocked = false ∧ s.pc ≠ .exited ∧ s.signals.action sig = .signalCommonHandler then
        some (s.deliver sig)
      else none
  | .step => s.next
  | .waitpid child =>
      if s.pc = .waiting ∧ child.all (fun pid => 0 < pid) then some (s.waited child) else none
  | .fork channel child =>
      if s.pc = .forking ∧ s.table.granted channel child then some (s.forked channel child)
      else none

end MasterProc

/-- The queue is not looked at again before `sigsuspend`. -/
def MasterPc.late : MasterPc → Bool
  | .register _ | .suspend | .reapTest | .waiting | .forking | .stopTest => true
  | _ => false

namespace MasterProc

/-- No signal is delivered between the last look at the queue and `sigsuspend`, unless the
master is about to stop, or the signal has been counted already. -/
def InTime (s : MasterProc) (ev : MasterEvent) : Prop :=
  ∀ sig, ev = .deliver sig → s.pc.late = true →
    s.speStopWorker = true ∨ (s.signals.signalState sig).cnt ≠ 0

/-- What holds in time: the queue is empty where it is not looked at again, and the master
does not go to sleep when it has to stop. -/
def Heard (s : MasterProc) : Prop :=
  match s.pc with
  | .register _ | .suspend | .asleep => s.speStopWorker = false ∧ s.signals.signalQueue = []
  | .reapTest | .waiting | .forking | .stopTest =>
      s.speStopWorker = false → s.signals.signalQueue = []
  | .handling _ => s.blocked = true
  | .unblock => s.blocked = true ∧ s.signals.signalQueue = []
  | .signalTest | .block | .exited => True

/-- A signal is delivered in time: the queue stays as it is, or the master stops, looks at
the queue later, or wakes up to do so. -/
theorem Heard.deliver {s : MasterProc} (h : s.Heard) {sig : Int} (hblocked : s.blocked = false)
    (hok : s.InTime (.deliver sig)) : (s.deliver sig).Heard := by
  have hqueue : s.pc.late = true → s.speStopWorker = false →
      s.signals.signalQueue = [] → (s.deliver sig).signals.signalQueue = [] := by
    intro hlate hrunning hempty
    rcases hok sig rfl hlate with hstop | hcnt
    · rw [hstop] at hrunning
      cases hrunning
    · exact (s.signals.commonHandler_counted hcnt).trans hempty
  unfold Heard at h ⊢
  cases hpc : s.pc with
  | asleep => simp [MasterProc.deliver, hpc]
  | register k =>
      simp only [hpc] at h hqueue
      simpa [MasterProc.deliver, hpc, h.1] using hqueue rfl h.1 h.2
  | suspend =>
      simp only [hpc] at h hqueue
      simpa [MasterProc.deliver, hpc, h.1] using hqueue rfl h.1 h.2
  | reapTest =>
      simp only [hpc] at h hqueue
      simpa [MasterProc.deliver, hpc] using fun hrunning => hqueue rfl hrunning (h hrunning)
  | waiting =>
      simp only [hpc] at h hqueue
      simpa [MasterProc.deliver, hpc] using fun hrunning => hqueue rfl hrunning (h hrunning)
  | forking =>
      simp only [hpc] at h hqueue
      simpa [MasterProc.deliver, hpc] using fun hrunning => hqueue rfl hrunning (h hrunning)
  | stopTest =>
      simp only [hpc] at h hqueue
      simpa [MasterProc.deliver, hpc] using fun hrunning => hqueue rfl hrunning (h hrunning)
  | handling i =>
      rw [hpc] at h
      exact absurd h (by simp [hblocked])
  | unblock =>
      rw [hpc] at h
      exact absurd h.1 (by simp [hblocked])
  | signalTest => simp [MasterProc.deliver, hpc]
  | block => simp [MasterProc.deliver, hpc]
  | exited => simp [MasterProc.deliver, hpc]

/-- Handling a signal keeps the mask and the queue. -/
theorem handle_frame (s : MasterProc) (sig : Int) :
    (s.handle sig).blocked = s.blocked ∧
    (s.handle sig).signals.signalQueue = s.signals.signalQueue := by
  unfold handle call
  dsimp only
  split
  · exact ⟨rfl, s.signals.processOne_queue sig⟩
  · exact ⟨rfl, s.signals.processOne_queue sig⟩
  · exact ⟨rfl, s.signals.processOne_queue sig⟩

/-- A step of the master. -/
theorem Heard.next {s s' : MasterProc} (h : s.Heard) (hnext : s.next = some s') : s'.Heard := by
  unfold MasterProc.next at hnext
  unfold Heard at h
  cases hpc : s.pc with
  | register k =>
      simp only [hpc] at h hnext
      split at hnext
      · obtain rfl := Option.some.inj hnext
        exact ⟨h.1, (s.signals.register_queue _ _).trans h.2⟩
      · obtain rfl := Option.some.inj hnext
        exact h
  | suspend =>
      simp only [hpc] at h hnext
      obtain rfl := Option.some.inj hnext
      exact h
  | signalTest =>
      simp only [hpc] at hnext
      obtain rfl := Option.some.inj hnext
      unfold Heard
      by_cases hempty : s.signals.signalQueue.length = 0
      · simp only [if_pos hempty]
        exact fun _ => List.length_eq_zero_iff.mp hempty
      · simp only [if_neg hempty]
  | block =>
      simp only [hpc] at hnext
      obtain rfl := Option.some.inj hnext
      rfl
  | handling i =>
      simp only [hpc] at h hnext
      split at hnext
      · obtain rfl := Option.some.inj hnext
        exact (s.handle_frame _).1.trans h
      · obtain rfl := Option.some.inj hnext
        exact ⟨h, rfl⟩
  | unblock =>
      simp only [hpc] at h hnext
      obtain rfl := Option.some.inj hnext
      exact fun _ => h.2
  | reapTest =>
      simp only [hpc] at h hnext
      obtain rfl := Option.some.inj hnext
      unfold Heard
      by_cases hreap : s.speReapWorker = true
      · simp only [if_pos hreap]
        exact h
      · simp only [if_neg hreap]
        exact h
  | stopTest =>
      simp only [hpc] at h hnext
      split at hnext
      · obtain rfl := Option.some.inj hnext
        trivial
      · obtain rfl := Option.some.inj hnext
        have hrunning : s.speStopWorker = false := by simpa using ‹¬ s.speStopWorker = true›
        exact ⟨hrunning, h hrunning⟩
  | asleep => simp [hpc] at hnext
  | waiting => simp [hpc] at hnext
  | forking => simp [hpc] at hnext
  | exited => simp [hpc] at hnext

/-- **Step lemma.** -/
theorem Heard.step {s s' : MasterProc} {ev : MasterEvent} (h : s.Heard) (hok : s.InTime ev)
    (hstep : s.step ev = some s') : s'.Heard := by
  cases ev with
  | deliver sig =>
      simp only [MasterProc.step, Option.ite_none_right_eq_some, Option.some.injEq] at hstep
      obtain ⟨⟨hblocked, _, _⟩, rfl⟩ := hstep
      exact h.deliver hblocked hok
  | step => exact h.next hstep
  | waitpid child =>
      simp only [MasterProc.step, Option.ite_none_right_eq_some, Option.some.injEq] at hstep
      obtain ⟨⟨hpc, _⟩, rfl⟩ := hstep
      unfold Heard at h
      simp only [hpc] at h
      cases child with
      | none => exact h
      | some pid =>
          unfold Heard waited
          by_cases hres : (s.table.workerReset pid).2 < 0
          · simp only [if_pos hres]
            exact h
          · simp only [if_neg hres]
            exact h
  | fork channel child =>
      simp only [MasterProc.step, Option.ite_none_right_eq_some, Option.some.injEq] at hstep
      obtain ⟨⟨hpc, _⟩, rfl⟩ := hstep
      unfold Heard at h
      simp only [hpc] at h
      exact h

/-- **Asleep, nothing is owed.**  In a run in which no signal is delivered between the last
look at the queue and `sigsuspend`, unless the master is about to stop, the queue holds no
signal that its handler has not seen whenever the master is asleep. -/
theorem asleep_owes_nothing {table : WorkerTable} {evs : List MasterEvent} {s : MasterProc}
    (hrun : Run step InTime (start table) evs s) (hpc : s.pc = .asleep) :
    ∀ sig ∈ s.signals.signalQueue, s.owed sig = false := by
  have hstart : (start table).Heard := ⟨rfl, rfl⟩
  have hheard := hrun.invariant Heard hstart (fun _ _ _ h hok hstep => h.step hok hstep)
  unfold Heard at hheard
  simp only [hpc] at hheard
  intro sig hsig
  rw [hheard.2] at hsig
  cases hsig

/-- A signal that waits for its handler while the master is on its way to sleep. -/
structure Lost (s : MasterProc) (sig : Int) : Prop where
  late : s.pc.late = true
  running : s.speStopWorker = false
  queued : sig ∈ s.signals.signalQueue
  owed : s.owed sig = true

/-- Signals that arrive take none out of the queue. -/
theorem Lost.deliver {s : MasterProc} {sig : Int} (h : s.Lost sig) (other : Int) :
    (s.deliver other).Lost sig := by
  have hawake : s.pc ≠ .asleep := by
    intro hpc
    have hlate := h.late
    rw [hpc] at hlate
    cases hlate
  constructor
  · change (if s.pc = .asleep then MasterPc.signalTest else s.pc).late = true
    rw [if_neg hawake]
    exact h.late
  · exact h.running
  · change sig ∈ (s.signals.commonHandler other).signalQueue
    rcases s.signals.commonHandler_queue other with hsame | ⟨hmore, _⟩
    · rw [hsame]
      exact h.queued
    · rw [hmore]
      exact List.mem_append_left _ h.queued
  · change Function.update s.owed other _ sig = true
    by_cases hsig : sig = other
    · subst hsig
      rw [Function.update_self, h.owed, Bool.true_or]
    · rw [Function.update_of_ne hsig]
      exact h.owed

/-- Whatever happens next, the signal is still waiting, until the master sleeps on it. -/
theorem Lost.step {s s' : MasterProc} {sig : Int} {ev : MasterEvent} (h : s.Lost sig)
    (hstep : s.step ev = some s') :
    s'.Lost sig ∨ s'.pc = .asleep ∧ sig ∈ s'.signals.signalQueue ∧ s'.owed sig = true := by
  cases ev with
  | deliver other =>
      simp only [MasterProc.step, Option.ite_none_right_eq_some, Option.some.injEq] at hstep
      obtain ⟨_, rfl⟩ := hstep
      exact Or.inl (h.deliver other)
  | step =>
      have hlate := h.late
      change s.next = some s' at hstep
      unfold MasterProc.next at hstep
      cases hpc : s.pc with
      | register k =>
          simp only [hpc] at hstep
          split at hstep
          · obtain rfl := Option.some.inj hstep
            refine Or.inl ⟨rfl, h.running, ?_, h.owed⟩
            rw [Signals.register_queue]
            exact h.queued
          · obtain rfl := Option.some.inj hstep
            exact Or.inl ⟨rfl, h.running, h.queued, h.owed⟩
      | suspend =>
          simp only [hpc] at hstep
          obtain rfl := Option.some.inj hstep
          exact Or.inr ⟨rfl, h.queued, h.owed⟩
      | reapTest =>
          simp only [hpc] at hstep
          obtain rfl := Option.some.inj hstep
          refine Or.inl ⟨?_, h.running, h.queued, h.owed⟩
          by_cases hreap : s.speReapWorker = true
          · simp [hreap, MasterPc.late]
          · simp [hreap, MasterPc.late]
      | stopTest =>
          have hrunning : ¬ s.speStopWorker = true := by simp [h.running]
          simp only [hpc, if_neg hrunning] at hstep
          obtain rfl := Option.some.inj hstep
          exact Or.inl ⟨rfl, h.running, h.queued, h.owed⟩
      | waiting => simp [hpc] at hstep
      | forking => simp [hpc] at hstep
      | _ =>
          rw [hpc] at hlate
          cases hlate
  | waitpid child =>
      simp only [MasterProc.step, Option.ite_none_right_eq_some, Option.some.injEq] at hstep
      obtain ⟨_, rfl⟩ := hstep
      refine Or.inl ?_
      cases child with
      | none => exact ⟨rfl, h.running, h.queued, h.owed⟩
      | some pid =>
          refine ⟨?_, h.running, h.queued, h.owed⟩
          unfold waited
          by_cases hres : (s.table.workerReset pid).2 < 0
          · simp [hres, MasterPc.late]
          · simp [hres, MasterPc.late]
  | fork channel child =>
      simp only [MasterProc.step, Option.ite_none_right_eq_some, Option.some.injEq] at hstep
      obtain ⟨_, rfl⟩ := hstep
      exact Or.inl ⟨rfl, h.running, h.queued, h.owed⟩

/-- The master does not notice the signal before it sleeps. -/
theorem Lost.run {s s' : MasterProc} {sig : Int} {evs : List MasterEvent} (h : s.Lost sig)
    (hrun : Run MasterProc.step anyStep s evs s') (hpc : s'.pc.late = false) :
    ∃ done todo m, evs = done ++ todo ∧ Run MasterProc.step anyStep s done m ∧
      m.pc = .asleep ∧ sig ∈ m.signals.signalQueue ∧ m.owed sig = true := by
  induction hrun with
  | nil s =>
      rw [h.late] at hpc
      cases hpc
  | @cons s m s' ev evs hstep _ _ ih =>
      rcases h.step hstep with hlost | hsleep
      · obtain ⟨done, todo, x, rfl, hdone, hx⟩ := ih hlost hpc
        exact ⟨ev :: done, todo, x, rfl, Run.cons hstep trivial hdone, hx⟩
      · exact ⟨[ev], evs, m, rfl, Run.single hstep trivial, hsleep⟩

/-- The actions of the kernel fit the registered handlers. -/
theorem installed_step {s s' : MasterProc} {ev : MasterEvent} (h : s.signals.Installed)
    (hstep : s.step ev = some s') : s'.signals.Installed := by
  cases ev with
  | deliver sig =>
      simp only [MasterProc.step, Option.ite_none_right_eq_some, Option.some.injEq] at hstep
      obtain ⟨_, rfl⟩ := hstep
      exact h.commonHandler sig
  | step =>
      change s.next = some s' at hstep
      unfold MasterProc.next at hstep
      split at hstep
      · split at hstep
        · obtain rfl := Option.some.inj hstep
          exact h.register _ _
        · obtain rfl := Option.some.inj hstep
          exact h
      · obtain rfl := Option.some.inj hstep
        exact h
      · obtain rfl := Option.some.inj hstep
        exact h
      · obtain rfl := Option.some.inj hstep
        exact h
      · split at hstep
        · obtain rfl := Option.some.inj hstep
          unfold handle call
          dsimp only
          split
          · exact h.processOne _
          · exact h.processOne _
          · exact h.processOne _
        · obtain rfl := Option.some.inj hstep
          exact h
      · obtain rfl := Option.some.inj hstep
        exact h
      · obtain rfl := Option.some.inj hstep
        exact h
      · split at hstep
        · obtain rfl := Option.some.inj hstep
          exact h
        · obtain rfl := Option.some.inj hstep
          exact h
      · cases hstep
  | waitpid child =>
      simp only [MasterProc.step, Option.ite_none_right_eq_some, Option.some.injEq] at hstep
      obtain ⟨_, rfl⟩ := hstep
      cases child with
      | none => exact h
      | some pid => exact h
  | fork channel child =>
      simp only [MasterProc.step, Option.ite_none_right_eq_some, Option.some.injEq] at hstep
      obtain ⟨_, rfl⟩ := hstep
      exact h

/-- **A late signal is lost.**  When a signal is delivered late, and there is room in the
queue, the master sleeps on it before it looks at the queue again. -/
theorem late_signal_sleeps {table : WorkerTable} {evs evs' : List MasterEvent}
    {s m s' : MasterProc} {sig : Int} (hrun : Run step anyStep (start table) evs s)
    (hlate : ¬ s.InTime (.deliver sig)) (hroom : s.signals.signalQueue.length < MAX_SIGNAL)
    (hstep : s.step (.deliver sig) = some m) (htail : Run step anyStep m evs' s')
    (hpc : s'.pc.late = false) :
    ∃ done todo x, evs' = done ++ todo ∧ Run step anyStep m done x ∧
      x.pc = .asleep ∧ sig ∈ x.signals.signalQueue ∧ x.owed sig = true := by
  have hinstalled : s.signals.Installed := hrun.invariant (fun s => s.signals.Installed)
    Signals.installed_init (fun _ _ _ h _ hstep => installed_step h hstep)
  unfold InTime at hlate
  push Not at hlate
  obtain ⟨other, heq, hpclate, hstop, hcnt⟩ := hlate
  cases heq
  simp only [step, Option.ite_none_right_eq_some, Option.some.injEq] at hstep
  obtain ⟨⟨_, _, haction⟩, rfl⟩ := hstep
  obtain ⟨hlow, hhigh, hsome⟩ := hinstalled sig haction
  have hawake : s.pc ≠ .asleep := by
    intro hsleep
    rw [hsleep] at hpclate
    cases hpclate
  have hlost : (s.deliver sig).Lost sig := by
    constructor
    · change (if s.pc = .asleep then MasterPc.signalTest else s.pc).late = true
      rw [if_neg hawake]
      exact hpclate
    · exact Bool.eq_false_iff.mpr hstop
    · change sig ∈ (s.signals.commonHandler sig).signalQueue
      rw [s.signals.commonHandler_queued ⟨hlow, hhigh⟩ hsome hcnt hroom]
      exact List.mem_append_right _ List.mem_cons_self
    · change Function.update s.owed sig _ sig = true
      rw [Function.update_self, hsome, Bool.or_true]
  exact hlost.run htail hpc

/-- Only deliveries can be late. -/
theorem inTime_quiet {s : MasterProc} {ev : MasterEvent} (h : ∀ sig, ev ≠ .deliver sig) :
    s.InTime ev :=
  fun sig heq => absurd heq (h sig)

/-- The master goes to sleep, `SIGCHLD` wakes it up, and it goes to sleep again. -/
theorem asleep_owes_nothing_again :
    ∃ evs s, Run step InTime (start .start) evs s ∧ .deliver 17 ∈ evs ∧ s.pc = .asleep ∧
      ∀ sig ∈ s.signals.signalQueue, s.owed sig = false := by
  have hexec : ∃ m, exec step (start .start) (List.replicate 8 .step) = some m ∧
      m.pc = .asleep ∧ ∃ m', m.step (.deliver 17) = some m' ∧
      ∃ s, exec step m' (List.replicate 6 .step ++ [.waitpid none, .step, .step]) = some s ∧
        s.pc = .asleep := ⟨_, rfl, rfl, _, rfl, _, rfl, rfl⟩
  obtain ⟨m, hfirst, hasleep, m', hdeliver, s, hagain, hpc⟩ := hexec
  have hwoken : m.InTime (.deliver 17) := by
    intro sig _ hlate
    rw [hasleep] at hlate
    cases hlate
  have hrun : Run step InTime (start .start)
      (List.replicate 8 .step ++ .deliver 17 ::
        (List.replicate 6 .step ++ [.waitpid none, .step, .step])) s :=
    (run_of_exec (fun _ hev _ => inTime_quiet (by rintro sig rfl; simp at hev)) hfirst).append
      (Run.cons hdeliver hwoken
        (run_of_exec (fun _ hev _ => inTime_quiet (by rintro sig rfl; simp at hev)) hagain))
  exact ⟨_, s, hrun, by simp, hpc, asleep_owes_nothing hrun hpc⟩

/-- **A signal that is not noticed.**  `SIGTERM` arrives when the master has registered its
handlers and is about to wait: it sleeps, and can go on only when another signal comes. -/
theorem asleep_owes_nothing_fails :
    ∃ s, Run step anyStep (start .start) (List.replicate 7 .step ++ [.deliver 15, .step]) s ∧
      s.pc = .asleep ∧ s.step .step = none ∧
      15 ∈ s.signals.signalQueue ∧ s.owed 15 = true := by
  have hexec : ∃ s, exec step (start .start) (List.replicate 7 .step ++ [.deliver 15, .step]) =
      some s ∧ s.pc = .asleep ∧ s.step .step = none ∧
      15 ∈ s.signals.signalQueue ∧ s.owed 15 = true :=
    ⟨_, rfl, rfl, rfl, List.mem_cons_self, rfl⟩
  obtain ⟨s, hrun, hs⟩ := hexec
  exact ⟨s, run_iff_exec.mpr hrun, hs⟩

end MasterProc

end Spe
