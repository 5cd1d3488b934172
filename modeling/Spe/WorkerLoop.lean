import Spe.Task

/-!
# The event loop of a worker (`spe_worker_process`)

The loop around the machine of `spe_task.c`.  The `init_worker` hooks, the handlers that
`spe_epoll_process` schedules and those that `spe_signal_process` calls are arbitrary code,
so in these phases every step of the machine is possible; in `spe_task_process` they are the
steps of the call that the loop has made.

`polls` is history: for each iteration whether the run queue held a task at its start, and
the timeout passed to `spe_epoll_process`.

The loop sets `timeout` to 300 once, before it starts, and to 0 whenever it finds work.
Nothing sets it back: the timeout tells whether any iteration so far has found work
(`timeoutAfter`), and from the first one on the worker never waits again.  It waits when
there is nothing to do exactly as long as the queue, once found with a task, is never found
empty (`polls_exact`).
-/

namespace Spe

open Transition

variable {T H : Type}

/-- Where the worker is. -/
inductive LoopPc
  /-- in the `init_worker` hooks -/
  | initWorker
  /-- before the test of `worker_stop` -/
  | top
  /-- from `spe_server_preloop` to `spe_server_postloop` -/
  | events
  /-- in `spe_task_process` -/
  | tasks
  /-- in `spe_signal_process` -/
  | signals
  /-- behind the loop -/
  | exited
  deriving DecidableEq

/-- An iteration: the run queue is not empty at its start, and the timeout it polls with. -/
structure Poll where
  ready : Bool
  timeout : Nat
  deriving DecidableEq

/-- The worker process. -/
structure WorkerProc (T H : Type) where
  pc : LoopPc
  machine : Machine T H
  timeout : Nat
  workerStop : Bool
  polls : List Poll

/-- What can happen: a step of the code that runs in a phase, `worker_control_handler` with
the answer of `read` and the command it has read, or the end of a phase. -/
inductive WorkerEvent (T H : Type)
  | machine (ev : MachineEvent T H)
  | control (res comm : Int)
  | advance

/-- The command that stops a worker. -/
def WORKER_STOP : Int := 1

namespace WorkerProc

/-- The worker at the start of `spe_worker_process`. -/
def start (T H : Type) : WorkerProc T H where
  pc := .initWorker
  machine := .start T H
  timeout := 0
  workerStop := false
  polls := []

variable (w : WorkerProc T H)

/-- Code that may call the scheduler is running. -/
def running : Bool :=
  match w.pc with
  | .initWorker | .events | .signals => true
  | .tasks => !w.machine.stack.isEmpty
  | .top | .exited => false

/-- The handler of a fast task is running in the event phase, as `worker_control_handler`
does. -/
def inHandler : Bool :=
  match w.pc, w.machine.stack with
  | .events, .handler _ :: _ => true
  | _, _ => false

/-- `worker_control_handler`. -/
def workerControlHandler (res comm : Int) : WorkerProc T H :=
  if res < 0 then w else
  if res = 0 then { w with workerStop := true } else
  if comm = WORKER_STOP then { w with workerStop := true } else w

/-- The start of an iteration, up to the poll. -/
def iterate : WorkerProc T H :=
  let timeout := if !taskEmpty w.machine.sched then 0 else w.timeout
  { w with
    pc := .events
    timeout := timeout
    polls := w.polls ++ [{ ready := !taskEmpty w.machine.sched, timeout := timeout }] }

/-- What follows when the code of a phase has returned. -/
def advance : Option (WorkerProc T H) :=
  match w.pc with
  | .initWorker => some { w with pc := .top, timeout := 300 }
  | .top => if w.workerStop then some { w with pc := .exited } else some w.iterate
  | .events => some { w with pc := .tasks, machine := w.machine.process }
  | .tasks => some { w with pc := .signals }
  | .signals => some { w with pc := .top }
  | .exited => none

/-- The step of the worker. -/
def step [DecidableEq T] (w : WorkerProc T H) : WorkerEvent T H → Option (WorkerProc T H)
  | .machine ev =>
      if w.running then (w.machine.step ev).map (fun m => { w with machine := m }) else none
  | .control res comm =>
      if w.inHandler ∧ !w.machine.aborted then some (w.workerControlHandler res comm) else none
  | .advance => if w.machine.stack.isEmpty ∧ !w.machine.aborted then w.advance else none

/-- An earlier iteration has found a task in the run queue. -/
def FoundWork : Prop := ∃ p ∈ w.polls, p.ready = true

/-- The iteration that begins finds a task in the run queue, if an earlier one has. -/
def Steady (ev : WorkerEvent T H) : Prop :=
  ev = .advance → w.pc = .top → w.workerStop = false → w.FoundWork →
    taskEmpty w.machine.sched = false

end WorkerProc

/-- The timeout after iterations that have found work or not. -/
def timeoutAfter (found : List Bool) : Nat := if true ∈ found then 0 else 300

/-- The timeout is 0 exactly when one of the iterations has found work. -/
theorem timeoutAfter_eq_zero (found : List Bool) : timeoutAfter found = 0 ↔ true ∈ found := by
  unfold timeoutAfter
  split <;> simp_all

/-- One more iteration. -/
theorem timeoutAfter_append (found : List Bool) (ready : Bool) :
    timeoutAfter (found ++ [ready]) = if ready then 0 else timeoutAfter found := by
  unfold timeoutAfter
  cases ready with
  | true => simp
  | false => simp

namespace WorkerProc

/-- What the polls say about the run queue. -/
def found (w : WorkerProc T H) : List Bool := w.polls.map Poll.ready

theorem foundWork_iff (w : WorkerProc T H) : w.FoundWork ↔ true ∈ w.found := by
  simp [FoundWork, found]

@[simp] theorem iterate_polls (w : WorkerProc T H) :
    w.iterate.polls = w.polls ++
      [{ ready := !taskEmpty w.machine.sched, timeout := w.iterate.timeout }] := rfl

@[simp] theorem iterate_found (w : WorkerProc T H) :
    w.iterate.found = w.found ++ [!taskEmpty w.machine.sched] := by
  simp [found]

@[simp] theorem iterate_timeout (w : WorkerProc T H) :
    w.iterate.timeout = if !taskEmpty w.machine.sched then 0 else w.timeout := rfl

/-- The command handler keeps to `worker_stop`. -/
theorem workerControlHandler_keeps (w : WorkerProc T H) (res comm : Int) :
    (w.workerControlHandler res comm).pc = w.pc ∧
    (w.workerControlHandler res comm).timeout = w.timeout ∧
    (w.workerControlHandler res comm).polls = w.polls := by
  unfold workerControlHandler
  split
  · exact ⟨rfl, rfl, rfl⟩
  split
  · exact ⟨rfl, rfl, rfl⟩
  split <;> exact ⟨rfl, rfl, rfl⟩

variable [DecidableEq T]

/-- **Inversion.**  A step begins an iteration, begins the loop, or leaves the timeout and
the polls as they are. -/
theorem step_cases {w w' : WorkerProc T H} {ev : WorkerEvent T H} (h : w.step ev = some w') :
    (ev = .advance ∧ w.pc = .top ∧ w.workerStop = false ∧ w' = w.iterate) ∨
    (w.pc = .initWorker ∧ w'.timeout = 300 ∧ w'.polls = w.polls) ∨
    (¬ (ev = .advance ∧ w.pc = .top ∧ w.workerStop = false) ∧
      (w'.pc = .initWorker ↔ w.pc = .initWorker) ∧ w'.timeout = w.timeout ∧
      w'.polls = w.polls) := by
  cases ev with
  | machine ev =>
      obtain ⟨_, h⟩ := Option.ite_none_right_eq_some.mp h
      obtain ⟨m, _, rfl⟩ := Option.map_eq_some_iff.mp h
      exact Or.inr (Or.inr ⟨by simp, Iff.rfl, rfl, rfl⟩)
  | control res comm =>
      obtain ⟨_, ⟨⟩⟩ := Option.ite_none_right_eq_some.mp h
      obtain ⟨hpc, htimeout, hpolls⟩ := w.workerControlHandler_keeps res comm
      exact Or.inr (Or.inr ⟨by simp, by rw [hpc], htimeout, hpolls⟩)
  | advance =>
      obtain ⟨_, h⟩ := Option.ite_none_right_eq_some.mp h
      cases hpc : w.pc with
      | initWorker =>
          simp only [advance, hpc] at h
          obtain rfl := Option.some.inj h
          exact Or.inr (Or.inl ⟨rfl, rfl, rfl⟩)
      | top =>
          simp only [advance, hpc] at h
          cases hstop : w.workerStop with
          | true =>
              rw [hstop, if_pos rfl] at h
              obtain rfl := Option.some.inj h
              exact Or.inr (Or.inr ⟨by simp, by simp, rfl, rfl⟩)
          | false =>
              rw [hstop, if_neg Bool.false_ne_true] at h
              exact Or.inl ⟨rfl, rfl, rfl, (Option.some.inj h).symm⟩
      | exited => simp [advance, hpc] at h
      | _ =>
          simp only [advance, hpc] at h
          obtain rfl := Option.some.inj h
          exact Or.inr (Or.inr ⟨by simp, by simp, rfl, rfl⟩)

/-- The timeout is what the iterations so far have made of it, and so was that of each poll. -/
structure Carried (w : WorkerProc T H) : Prop where
  fresh : w.pc = .initWorker → w.polls = []
  current : w.pc ≠ .initWorker → w.timeout = timeoutAfter w.found
  polled : ∀ k (hk : k < w.polls.length),
    w.polls[k].timeout = timeoutAfter (w.found.take (k + 1))

omit [DecidableEq T] in
theorem carried_start : (start T H).Carried where
  fresh := fun _ => rfl
  current := fun h => absurd rfl h
  polled := fun _ hk => absurd hk (Nat.not_lt_zero _)

omit [DecidableEq T] in
/-- An iteration. -/
theorem Carried.iterate {w : WorkerProc T H} (h : w.Carried) (hpc : w.pc = .top) :
    w.iterate.Carried := by
  have hnow : w.iterate.timeout = timeoutAfter w.iterate.found := by
    rw [iterate_found, timeoutAfter_append, iterate_timeout, h.current (by simp [hpc])]
  constructor
  · intro hinit
    cases hinit
  · intro _
    exact hnow
  · intro k hk
    rw [iterate_polls, List.length_append, List.length_singleton] at hk
    rcases Nat.lt_succ_iff_lt_or_eq.mp hk with hlt | rfl
    · have hold : w.iterate.found.take (k + 1) = w.found.take (k + 1) := by
        rw [iterate_found, List.take_append_of_le_length]
        simpa [found] using Nat.succ_le_of_lt hlt
      simp only [iterate_polls, List.getElem_append_left hlt, hold]
      exact h.polled k hlt
    · have hall : w.iterate.found.take (w.polls.length + 1) = w.iterate.found := by
        apply List.take_of_length_le
        simp [found]
      simp only [iterate_polls, List.getElem_concat_length, hall]
      exact hnow

theorem Carried.step {w w' : WorkerProc T H} {ev : WorkerEvent T H} (h : w.Carried)
    (hstep : w.step ev = some w') : w'.Carried := by
  rcases step_cases hstep with ⟨_, hpc, _, rfl⟩ | ⟨hinit, htimeout, hpolls⟩ |
    ⟨_, hpc, htimeout, hpolls⟩
  · exact h.iterate hpc
  · have hnil : w'.polls = [] := hpolls.trans (h.fresh hinit)
    constructor
    · exact fun _ => hnil
    · intro _
      simp [htimeout, found, hnil, timeoutAfter]
    · simp [hnil]
  · have hfound : w'.found = w.found := by rw [found, hpolls, found]
    constructor
    · exact fun hinit => hpolls.trans (h.fresh (hpc.mp hinit))
    · intro hloop
      rw [htimeout, hfound]
      exact h.current (mt hpc.mpr hloop)
    · simpa [hpolls, hfound] using h.polled

/-- In every run the timeout is the one that the iterations so far have made of it. -/
theorem carried_run {ok : WorkerProc T H → WorkerEvent T H → Prop} {w : WorkerProc T H}
    {es : List (WorkerEvent T H)} (h : Run step ok (start T H) es w) : w.Carried :=
  h.invariant Carried carried_start (fun _ _ _ hinv _ hstep => hinv.step hstep)

/-- Once an iteration has found work, no later one waits. -/
theorem never_waits_again {ok : WorkerProc T H → WorkerEvent T H → Prop} {w : WorkerProc T H}
    {es : List (WorkerEvent T H)} (h : Run step ok (start T H) es w) {j k : Nat}
    (hjk : j ≤ k) (hk : k < w.polls.length) (hready : w.polls[j].ready = true) :
    w.polls[k].timeout = 0 := by
  rw [(carried_run h).polled k hk, timeoutAfter_eq_zero]
  refine List.mem_take_iff_getElem.mpr ⟨j, ?_, ?_⟩
  · simp only [found, List.length_map]
    omega
  · simpa [found] using hready

/-- The polls of the iterations so far wait exactly when they find no work. -/
def WaitsWhenIdle (w : WorkerProc T H) : Prop :=
  ∀ p ∈ w.polls, p.timeout = 0 ↔ p.ready = true

omit [DecidableEq T] in
/-- An iteration waits when it should, if it finds work once an earlier one has. -/
theorem iterate_waits_iff {w : WorkerProc T H} (h : w.Carried) (hpc : w.pc = .top)
    (hw : w.WaitsWhenIdle) :
    w.iterate.WaitsWhenIdle ↔ (w.FoundWork → taskEmpty w.machine.sched = false) := by
  have hpoll : w.iterate.WaitsWhenIdle ↔
      (w.iterate.timeout = 0 ↔ taskEmpty w.machine.sched = false) := by
    simp only [WaitsWhenIdle, iterate_polls, List.forall_mem_append, List.forall_mem_singleton,
      Bool.not_eq_true']
    exact and_iff_right hw
  rw [hpoll, iterate_timeout, foundWork_iff, h.current (by simp [hpc])]
  cases hempty : taskEmpty w.machine.sched with
  | false => simp
  | true => simp [timeoutAfter_eq_zero]

/-- The polls of a step stay recorded. -/
theorem step_polls {w w' : WorkerProc T H} {ev : WorkerEvent T H} (h : w.step ev = some w') :
    w.polls ⊆ w'.polls := by
  rcases step_cases h with ⟨_, _, _, rfl⟩ | ⟨_, _, hpolls⟩ | ⟨_, _, _, hpolls⟩
  · exact fun p hp => List.mem_append_left _ hp
  · exact hpolls ▸ fun _ hp => hp
  · exact hpolls ▸ fun _ hp => hp

/-- A step of a worker that has waited when it should, up to there. -/
theorem waits_step_iff {w w' : WorkerProc T H} {ev : WorkerEvent T H} (h : w.Carried)
    (hw : w.WaitsWhenIdle) (hstep : w.step ev = some w') :
    w'.WaitsWhenIdle ↔ w.Steady ev := by
  rcases step_cases hstep with ⟨rfl, hpc, hstop, rfl⟩ | ⟨hinit, _, hpolls⟩ | ⟨hnot, _, _, hpolls⟩
  · rw [iterate_waits_iff h hpc hw]
    exact ⟨fun hfound _ _ _ => hfound, fun hsteady => hsteady rfl hpc hstop⟩
  · refine iff_of_true (by rwa [WaitsWhenIdle, hpolls]) ?_
    intro _ hpc
    cases hinit.symm.trans hpc
  · refine iff_of_true (by rwa [WaitsWhenIdle, hpolls]) ?_
    intro hev hpc hstop
    exact absurd ⟨hev, hpc, hstop⟩ hnot

/-- **When the loop waits.**  In a run of the worker every iteration polls without waiting
exactly if the run queue is not empty at its start, if and only if no iteration finds the
queue empty after one that has found work. -/
theorem polls_exact {w : WorkerProc T H} {es : List (WorkerEvent T H)}
    (h : Run step anyStep (start T H) es w) :
    (∀ p ∈ w.polls, p.timeout = 0 ↔ p.ready = true) ↔ Run step Steady (start T H) es w := by
  refine h.exact_last Carried WaitsWhenIdle carried_start ?_ ?_ ?_ ?_
  · exact fun _ hp => absurd hp List.not_mem_nil
  · exact fun _ _ _ hstep hw p hp => hw p (step_polls hstep hp)
  · exact fun _ _ _ hinv _ hstep => hinv.step hstep
  · exact fun _ _ _ hinv hw hstep => waits_step_iff hinv hw hstep

/-- An `init_worker` hook schedules the task 0, whose handler runs in the first iteration. -/
def busyRun : List (WorkerEvent Nat Unit) :=
  [.machine (.call (.setHandler 0 (some ()) false)), .machine (.call (.schedule 0)), .advance,
    .advance, .advance, .machine .loop, .machine .ret, .machine .loop, .advance, .advance,
    .advance]

/-- The second iteration finds nothing to do and polls without waiting. -/
theorem busy_when_idle :
    ∃ w, exec step (start Nat Unit) busyRun = some w ∧
      w.polls = [{ ready := true, timeout := 0 }, { ready := false, timeout := 0 }] ∧
      ¬ ∀ p ∈ w.polls, p.timeout = 0 ↔ p.ready = true :=
  ⟨_, rfl, rfl, by decide⟩

/-- Up to the end of its first iteration the worker has waited when it should. -/
theorem busyRun_exact :
    ∃ w, exec step (start Nat Unit) (busyRun.take 9) = some w ∧
      ((∀ p ∈ w.polls, p.timeout = 0 ↔ p.ready = true) ↔
        Run step Steady (start Nat Unit) (busyRun.take 9) w) :=
  ⟨_, rfl, polls_exact (run_iff_exec.mpr rfl)⟩

end WorkerProc

end Spe
