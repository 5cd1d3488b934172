import Spe.TaskPlacement

/-!
# The run queue as a queue

What happens to `task_head` is an insertion, an execution or a removal
(`Ledger.Act`).  `queueActs` reads off the acts of one step from the call that
is made or from the loop that is running; the history that the scheduler keeps
is the sequence of these acts.

Every run's history is one of a first-in-first-out queue with cancellation,
whose pending elements are the tasks in `task_head`: each insertion is
executed once, or removed once, or still pending, and executions happen in the
order of insertion.  When `spe_task_process` returns nothing is pending.
-/

namespace Spe

open Transition

variable {T H : Type} [DecidableEq T]

/-- What a step does to the run queue. -/
def queueActs (m : Machine T H) : MachineEvent T H → List (Ledger.Act T)
  | .call (.schedule t) =>
      if (m.sched.tasks t).status ≠ .queue ∧ (m.sched.tasks t).fast = false then [.insert t]
      else []
  | .call (.dequeue t) =>
      if (m.sched.tasks t).status = .queue then [.remove t] else []
  | .loop =>
      match m.stack with
      | .timerLoop curr :: _ =>
          match m.sched.timers with
          | t :: _ => if (m.sched.tasks t).expire ≤ curr then [.insert t] else []
          | [] => []
      | .runLoop :: _ =>
          match m.sched.taskHead with
          | t :: _ => [.execute t]
          | [] => []
      | _ => []
  | _ => []

/-- One act on the queue `q`. -/
inductive QueueMove (q q' : List T) : List (Ledger.Act T) → Prop
  | keep (hq : q' = q) : QueueMove q q' []
  | insert (t : T) (hnot : t ∉ q) (hq : q' = q ++ [t]) : QueueMove q q' [.insert t]
  | execute (t : T) (hq : q = t :: q') : QueueMove q q' [.execute t]
  | remove (t : T) (hmem : t ∈ q) (hq : q' = q.erase t) : QueueMove q q' [.remove t]

/-- A call moves the run queue by its acts. -/
theorem call_moves {m : Machine T H} (h : Placed m.sched) (c : Call T H) :
    QueueMove m.sched.taskHead (m.call c).sched.taskHead (queueActs m (.call c)) ∧
    (m.call c).sched.log = m.sched.log ++ queueActs m (.call c) := by
  cases c with
  | setHandler t handler fast => exact ⟨.keep rfl, (List.append_nil _).symm⟩
  | schedule t =>
      have hsched : (m.call (.schedule t)).sched = (taskSchedule m.sched t).1 := by
        rw [Machine.call]
        split <;> rfl
      rw [hsched]
      unfold taskSchedule
      by_cases hst : (m.sched.tasks t).status = .queue
      · simpa [queueActs, hst] using QueueMove.keep rfl
      · have hnot : t ∉ m.sched.taskHead := fun hmem => hst ((h.queued t).mpr hmem)
        by_cases hfast : (m.sched.tasks t).fast
        · simpa [queueActs, hst, hfast] using QueueMove.keep rfl
        · simpa [queueActs, hst, hfast] using QueueMove.insert t hnot rfl
  | scheduleTimeout t ms =>
      show QueueMove m.sched.taskHead (taskScheduleTimeout m.sched m.now ms t).taskHead [] ∧
        (taskScheduleTimeout m.sched m.now ms t).log = m.sched.log ++ []
      unfold taskScheduleTimeout
      by_cases hst : (m.sched.tasks t).status = .queue
      · simpa [hst] using QueueMove.keep rfl
      · simpa [hst] using QueueMove.keep rfl
  | dequeue t =>
      show QueueMove m.sched.taskHead (taskDequeue m.sched t).taskHead _ ∧
        (taskDequeue m.sched t).log = m.sched.log ++ _
      unfold taskDequeue
      cases hst : (m.sched.tasks t).status with
      | free => simpa [queueActs, hst] using QueueMove.keep rfl
      | queue =>
          have hmem : t ∈ m.sched.taskHead := (h.queued t).mp hst
          simpa [queueActs, hst] using QueueMove.remove t hmem rfl
      | timer => simpa [queueActs, hst] using QueueMove.keep rfl

/-- A round of a loop moves the run queue by its acts. -/
theorem loop_moves {m m' : Machine T H} (h : Placed m.sched) (hloop : m.loop = some m') :
    QueueMove m.sched.taskHead m'.sched.taskHead (queueActs m .loop) ∧
    m'.sched.log = m.sched.log ++ queueActs m .loop := by
  cases h.loop_cases hloop with
  | fire curr rest t others hstack htimers hstatus hdue =>
      have hnot : t ∉ m.sched.taskHead := by
        rw [← h.queued t, hstatus]
        simp
      simpa [queueActs, hstack, htimers, hdue, Sched.fire] using QueueMove.insert t hnot rfl
  | drained curr rest hstack hlater =>
      cases htimers : m.sched.timers with
      | nil => simpa [queueActs, hstack, htimers] using QueueMove.keep rfl
      | cons t others =>
          have hdue := hlater t others htimers
          simpa [queueActs, hstack, htimers, hdue] using QueueMove.keep rfl
  | take rest t others hstack hqueue =>
      simpa [queueActs, hstack, hqueue, Sched.take] using QueueMove.execute t rfl
  | idle rest hstack hqueue => simpa [queueActs, hstack, hqueue] using QueueMove.keep rfl

/-- **Step lemma.**  Every step moves the run queue by its acts, and the
history records them. -/
theorem step_moves {m m' : Machine T H} {ev : MachineEvent T H} (h : Placed m.sched)
    (hstep : m.step ev = some m') :
    QueueMove m.sched.taskHead m'.sched.taskHead (queueActs m ev) ∧
    m'.sched.log = m.sched.log ++ queueActs m ev := by
  obtain ⟨_, hev⟩ := Machine.step_cases hstep
  cases ev with
  | call c =>
      obtain ⟨_, rfl⟩ := hev
      exact call_moves h c
  | init t =>
      obtain ⟨_, _, rfl⟩ := hev
      exact ⟨.keep rfl, (List.append_nil _).symm⟩
  | process =>
      obtain ⟨_, rfl⟩ := hev
      rw [m.process_keeps.1]
      exact ⟨.keep rfl, (List.append_nil _).symm⟩
  | loop => exact loop_moves h hev
  | ret =>
      rw [← (Machine.ret_keeps hev).1]
      exact ⟨.keep rfl, (List.append_nil _).symm⟩
  | tick now =>
      obtain ⟨_, rfl⟩ := hev
      exact ⟨.keep rfl, (List.append_nil _).symm⟩

/-- The book of the run queue: it follows the history, and what is pending in
it is what `task_head` holds. -/
structure QueueBook (s : Sched T H) (l : Ledger.Book T) : Prop where
  replayed : Ledger.replay s.log = some l
  pending : l.pending.map Prod.snd = s.taskHead

/-- A queue move is accepted by the book. -/
theorem QueueBook.move {s s' : Sched T H} {l : Ledger.Book T} {acts : List (Ledger.Act T)}
    (h : QueueBook s l) (hmove : QueueMove s.taskHead s'.taskHead acts)
    (hlog : s'.log = s.log ++ acts) : ∃ l', QueueBook s' l' := by
  cases hmove with
  | keep hq =>
      refine ⟨l, ?_, ?_⟩
      · rw [hlog, List.append_nil]
        exact h.replayed
      · rw [hq]
        exact h.pending
  | insert t hnot hq =>
      obtain ⟨l', happly, hpending⟩ := Ledger.Book.apply_insert h.pending hnot
      refine ⟨l', ?_, by rw [hq, hpending]⟩
      rw [hlog]
      exact Ledger.replay_snoc h.replayed happly
  | execute t hq =>
      obtain ⟨l', happly, hpending⟩ := Ledger.Book.apply_execute (h.pending.trans hq)
      refine ⟨l', ?_, hpending⟩
      rw [hlog]
      exact Ledger.replay_snoc h.replayed happly
  | remove t hmem hq =>
      obtain ⟨l', happly, hpending⟩ := Ledger.Book.apply_remove h.pending hmem
      refine ⟨l', ?_, by rw [hq, hpending]⟩
      rw [hlog]
      exact Ledger.replay_snoc h.replayed happly

/-- **Run lemma.**  Every run keeps a book of the run queue. -/
theorem queueBook_of_run {ok : Machine T H → MachineEvent T H → Prop} {m : Machine T H}
    {es : List (MachineEvent T H)} (h : Run Machine.step ok (Machine.start T H) es m) :
    ∃ l, QueueBook m.sched l := by
  have hinv := h.invariant (fun m => Placed m.sched ∧ ∃ l, QueueBook m.sched l)
    ⟨placed_start, Ledger.Book.empty, rfl, rfl⟩ (by
      intro s e s' hs _ hstep
      obtain ⟨hplaced, l, hl⟩ := hs
      obtain ⟨hmove, hlog⟩ := step_moves hplaced hstep
      exact ⟨hplaced.step (Machine.step_sched hstep), hl.move hmove hlog⟩)
  exact hinv.2

/-- A step of the run loop starts the handler of the task it executes, or ends
the loop because nothing is queued. -/
theorem runLoop_step {m m' : Machine T H} {rest : List (Frame T)} (h : Placed m.sched)
    (hstack : m.stack = .runLoop :: rest) (hstep : m.step .loop = some m') :
    (∃ t, m'.stack = .handler t :: m.stack ∧ m'.sched.log = m.sched.log ++ [.execute t]) ∨
    (m'.stack = rest ∧ m.sched.taskHead = [] ∧ m'.sched = m.sched) := by
  obtain ⟨_, hloop⟩ := Machine.step_cases hstep
  dsimp only at hloop
  cases h.loop_cases hloop with
  | fire _ _ _ _ htimer => cases hstack.symm.trans htimer
  | drained _ _ htimer => cases hstack.symm.trans htimer
  | take r t others hrun hqueue => exact Or.inl ⟨t, by rw [hrun], rfl⟩
  | idle r hrun hqueue =>
      cases hstack.symm.trans hrun
      exact Or.inr ⟨rfl, hqueue, rfl⟩

/-- **Run-queue law.**  In every run there is a book of the insertions into
`task_head`: each is executed once, removed once or still queued, and in one
of these places only; executions happen in the order of insertion.  The
history consists of the acts of the steps, and the schedule of a queued task
does nothing.  A step of the run loop either starts the handler of the task it
executes, or it is the return of `spe_task_process`: then `task_head` is empty
and every insertion so far has been executed or removed. -/
theorem run_queue_law {m : Machine T H} {es : List (MachineEvent T H)}
    (h : Run Machine.step anyStep (Machine.start T H) es m) :
    (∃ l : Ledger.Book T, QueueBook m.sched l ∧
      (l.tickets.map Prod.fst).Nodup ∧
      (∀ n t, (n, t) ∈ l.tickets ↔ (Ledger.insertions m.sched.log)[n]? = some t) ∧
      (l.executed.map Prod.fst).Pairwise (· < ·)) ∧
    (∀ ev m', m.step ev = some m' → m'.sched.log = m.sched.log ++ queueActs m ev) ∧
    (∀ t, (m.sched.tasks t).status = .queue → m.call (.schedule t) = m) ∧
    (∀ rest m', m.stack = .runLoop :: rest → m.step .loop = some m' →
      (∃ t, m'.stack = .handler t :: m.stack ∧
        m'.sched.log = m.sched.log ++ [.execute t]) ∨
      (m'.stack = rest ∧ m'.sched.taskHead = [] ∧
        ∃ l : Ledger.Book T, QueueBook m'.sched l ∧ l.pending = [] ∧
          ∀ n t, (Ledger.insertions m'.sched.log)[n]? = some t →
            (n, t) ∈ l.executed ++ l.removed)) := by
  obtain ⟨hplaced, _⟩ := placed_of_run h
  obtain ⟨l, hbook⟩ := queueBook_of_run h
  have hvalid := Ledger.valid_of_replay hbook.replayed
  refine ⟨⟨l, hbook, hvalid.onePlace, hvalid.mem_tickets_iff, hvalid.inOrder⟩, ?_, ?_, ?_⟩
  · intro ev m' hstep
    exact (step_moves hplaced hstep).2
  · intro t hst
    simp [Machine.call, taskSchedule, hst]
  · intro rest m' hstack hstep
    rcases runLoop_step hplaced hstack hstep with hstarts | ⟨hback, hempty, hsched⟩
    · exact Or.inl hstarts
    · right
      rw [hsched]
      have hpending : l.pending = [] := by
        have hmap := hbook.pending
        rw [hempty] at hmap
        exact List.map_eq_nil_iff.mp hmap
      refine ⟨hback, hempty, l, hbook, hpending, ?_⟩
      intro n t hget
      have hmem := (hvalid.mem_tickets_iff n t).mpr hget
      simpa [Ledger.Book.tickets, hpending] using hmem

/-- A run in which one of two queued tasks is executed and its handler cancels
the other. -/
theorem run_queue_law_cancelled :
    ∃ m : Machine Nat Unit,
      Run Machine.step anyStep (Machine.start Nat Unit)
        [.call (.schedule 1), .call (.schedule 2), .process, .loop, .call (.dequeue 2)] m ∧
      ∃ l : Ledger.Book Nat, QueueBook m.sched l ∧
        (l.tickets.map Prod.fst).Nodup ∧
        (∀ n t, (n, t) ∈ l.tickets ↔ (Ledger.insertions m.sched.log)[n]? = some t) ∧
        (l.executed.map Prod.fst).Pairwise (· < ·) := by
  obtain ⟨m, hm⟩ : ∃ m, exec Machine.step (Machine.start Nat Unit)
      [.call (.schedule 1), .call (.schedule 2), .process, .loop, .call (.dequeue 2)]
        = some m := ⟨_, rfl⟩
  have hrun := run_iff_exec.mpr hm
  exact ⟨m, hrun, (run_queue_law hrun).1⟩

end Spe
