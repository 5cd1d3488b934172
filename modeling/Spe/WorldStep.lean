import Spe.SlotFrame

/-!
# What a step of the process does to each connection

Each step of a wired process is a move of every slot and a run of the scheduler's
machine (`World.Stepped`), and leaves the process wired.  This module has the
steps that are not about one connection: calls of user code, events of
`epoll_wait`, and the rounds of the loops of `spe_task_process`.
-/

namespace Spe

open Transition

/-- A wired process. -/
structure World.Wired (w : World) : Prop where
  placed : Placed w.machine.sched
  calls : w.Calls
  slots : ∀ fd, (w.slot fd).Wired fd
  entered : ∀ t, w.entered = some t →
    (∃ fd side, t = .op fd side) ∧ w.machine.canCall = true
  bound : ∀ fd, w.live fd = true → fd < w.maxfd

/-- The handler that executes now completes its operation. -/
def World.Completes (w : World) (fd : Nat) (side : Side) (ans : World.Answer) : Prop :=
  match side, ans with
  | .read, .read al rs =>
      ReadCompletes (w.conns fd).conn (w.task (.readTask fd)).timeout al rs
  | .write, .write r => WriteCompletes (w.conns fd).conn (w.task (.writeTask fd)).timeout r
  | _, _ => True

/-- The event executes the handler of a side and does not complete its operation. -/
def World.Stays (w : World) (ev : WorldEvent) (fd : Nat) (side : Side) : Prop :=
  ∃ ans ctl, ev = .handle ans ctl ∧ w.entered = some (.op fd side) ∧
    ¬ w.Completes fd side ans

/-- What a step of a wired process does: a move of every slot, and a run of the
machine. -/
structure World.Stepped (w : World) (ev : WorldEvent) (w' : World) : Prop where
  moves : ∀ fd, SlotMove fd (w.Stays ev fd) (w.slot fd) (w'.slot fd)
  calls : w'.Calls
  entered : ∀ t, w'.entered = some t →
    (∃ fd side, t = .op fd side) ∧ w'.machine.canCall = true
  bound : ∀ fd, w'.live fd = true → fd < w'.maxfd
  run : ∃ es, Run Machine.step anyStep w.machine es w'.machine

/-- A step keeps the process wired. -/
theorem World.Stepped.wired {w w' : World} {ev : WorldEvent} (h : w.Stepped ev w')
    (hw : w.Wired) : w'.Wired := by
  refine ⟨?_, h.calls, fun fd => (h.moves fd).wired (hw.slots fd), h.entered, h.bound⟩
  obtain ⟨es, hrun⟩ := h.run
  exact hrun.invariant (fun m => Placed m.sched) hw.placed
    (fun _ _ _ hplaced _ hstep => hplaced.step (Machine.step_sched hstep))

/-- A step that acts. -/
theorem World.Wired.stepped {w w' : World} {ev : WorldEvent} (hw : w.Wired)
    (hcan : w.machine.canCall = true) (habort : w.machine.aborted = false)
    (hacts : w.Acts w')
    (hmoves : ∀ fd, SlotMove fd (w.Stays ev fd) (w.slot fd) (w'.slot fd)) :
    w.Stepped ev w' := by
  obtain ⟨hrun, hcan', _⟩ := hacts.run hcan habort
  refine ⟨hmoves, hacts.calls hw.calls, ?_, ?_, hrun⟩
  · intro t ht
    rw [hacts.entered] at ht
    exact ⟨(hw.entered t ht).1, hcan'⟩
  · intro fd hlive
    rw [hacts.live] at hlive
    rw [hacts.maxfd]
    exact hw.bound fd hlive

/-- User code runs where calls can be made, and no handler of `spe_conn.c` is
executing. -/
theorem World.userRuns_spec {w : World} (h : w.userRuns = true) :
    w.machine.canCall = true ∧ w.entered = none := by
  unfold World.userRuns at h
  obtain ⟨hentered, hstack⟩ := Bool.and_eq_true_iff.mp h
  refine ⟨?_, of_decide_eq_true hentered⟩
  unfold Machine.canCall
  cases hs : w.machine.stack with
  | nil => rfl
  | cons frame rest =>
      rw [hs] at hstack
      cases frame with
      | handler t => rfl
      | timerLoop curr => cases hstack
      | runLoop => cases hstack

/-- Moves of one slot only. -/
theorem moves_of {w w' : World} {ev : WorldEvent} (fd : Nat)
    (hself : SlotMove fd (w.Stays ev fd) (w.slot fd) (w'.slot fd))
    (hother : ∀ fd', fd' ≠ fd → w'.slot fd' = w.slot fd') (fd' : Nat) :
    SlotMove fd' (w.Stays ev fd') (w.slot fd') (w'.slot fd') := by
  by_cases hfd : fd' = fd
  · subst hfd
    exact hself
  · rw [hother fd' hfd]
    exact SlotMove.keep

/-- A call of user code. -/
theorem World.Wired.call_step {w : World} (hw : w.Wired) (habort : w.machine.aborted = false)
    (huser : w.userRuns = true) {c : Call TaskId Handler} (hmay : w.mayCall c = true) :
    w.Stepped (.call c) (w.call c) := by
  obtain ⟨hcan, _⟩ := World.userRuns_spec huser
  have huse : w.mayUse c.task = true := by
    cases c with
    | setHandler t handler fast => exact (Bool.and_eq_true_iff.mp hmay).1
    | schedule t => exact hmay
    | scheduleTimeout t ms => exact hmay
    | dequeue t => exact hmay
  have hset : ∀ t handler fast, c = .setHandler t handler fast →
      TaskOk t { w.task t with handler := handler, fast := fast } := by
    intro t handler fast heq
    subst heq
    obtain ⟨hmine, hexternal⟩ := Bool.and_eq_true_iff.mp hmay
    cases t with
    | op fd side => cases hmine
    | post fd side =>
        intro x heq
        subst heq
        simpa using hexternal
    | user n =>
        intro x heq
        subst heq
        simpa using hexternal
  apply hw.stepped hcan habort (w.acts_call c hset)
  cases ht : c.task with
  | op fd side =>
      rw [ht] at huse
      cases huse
  | post fd side =>
      rw [ht] at huse
      obtain ⟨hself, hother⟩ := w.slot_call_post ht
      refine moves_of fd ?_ hother
      rw [hself]
      exact SlotMove.posts _ (Or.inl huse)
  | user n =>
      intro fd
      rw [w.slot_call_user ht]
      exact SlotMove.keep

/-- Enabling or disabling by user code. -/
theorem World.Wired.epoll_step {w : World} (hw : w.Wired) {ev : WorldEvent}
    (habort : w.machine.aborted = false) (huser : w.userRuns = true) (fd : Nat) {e : Epoll TaskId}
    (hpointers : ∀ side t, e.taskOf side = some t →
      (w.epolls fd).taskOf side = some t ∨ ∃ n, t = .user n) :
    w.Stepped ev (w.setEpoll fd e) := by
  obtain ⟨hcan, _⟩ := World.userRuns_spec huser
  obtain ⟨hself, hother⟩ := w.slot_setEpoll fd e
  refine hw.stepped hcan habort (World.Acts.of_machine rfl rfl rfl rfl) (moves_of fd ?_ hother)
  rw [hself]
  exact SlotMove.epoll e hpointers

/-- A step that changes nothing of the slots and of the machine. -/
theorem World.Wired.same_step {w w' : World} (hw : w.Wired) {ev : WorldEvent}
    (hmachine : w'.machine = w.machine) (hslots : ∀ fd, w'.slot fd = w.slot fd)
    (hlive : w'.live = w.live) (hmaxfd : w'.maxfd = w.maxfd) (hentered : w'.entered = w.entered) :
    w.Stepped ev w' := by
  have hacts : w.Acts w' := World.Acts.of_machine hmachine hlive hmaxfd hentered
  refine ⟨?_, hacts.calls hw.calls, ?_, ?_, ?_⟩
  · intro fd
    rw [hslots fd]
    exact SlotMove.keep
  · intro t ht
    rw [hentered] at ht
    rw [hmachine]
    exact hw.entered t ht
  · intro fd hfd
    rw [hlive] at hfd
    rw [hmaxfd]
    exact hw.bound fd hfd
  · rw [hmachine]
    exact ⟨[], Run.nil _⟩

/-- An event of `epoll_wait`. -/
theorem World.Wired.ready_step {w : World} (hw : w.Wired) (habort : w.machine.aborted = false)
    (huser : w.userRuns = true) (fd : Nat) (side : Side) :
    w.Stepped (.ready fd side) (w.ready fd side) := by
  obtain ⟨hcan, hquiet⟩ := World.userRuns_spec huser
  unfold World.ready
  split
  · cases hpointer : (w.epolls fd).taskOf side with
    | none => exact hw.same_step rfl (fun _ => rfl) rfl rfl rfl
    | some t =>
        dsimp only
        apply hw.stepped hcan habort (hw.calls.acts_schedule t)
        rw [hw.calls.schedule_eq]
        rcases (hw.slots fd).pointer side t hpointer with ⟨n, rfl⟩ | ⟨sd, rfl, hbusy, _⟩
        · intro fd'
          rw [w.slot_call_user rfl]
          exact SlotMove.keep
        · obtain ⟨hself, hother⟩ := w.slot_call_op (c := .schedule (.op fd sd)) rfl
          refine moves_of fd ?_ hother
          rw [hself]
          refine SlotMove.ready sd side ?_ hpointer
          change enteredSide w.entered fd = none
          rw [hquiet]
          rfl
  · exact hw.same_step rfl (fun _ => rfl) rfl rfl rfl

/-- A step of the machine that touches no slot. -/
theorem World.Wired.machine_step {w : World} (hw : w.Wired) {ev : WorldEvent}
    {m : Machine TaskId Handler} {me : MachineEvent TaskId Handler}
    (hstep : w.machine.step me = some m)
    (hcalls : ({ w with machine := m } : World).Calls)
    (hslots : ∀ fd, ({ w with machine := m } : World).slot fd = w.slot fd)
    (hentered : w.entered = none ∨ m.stack = w.machine.stack) :
    w.Stepped ev { w with machine := m } := by
  refine ⟨?_, hcalls, ?_, hw.bound, ⟨_, Run.single hstep trivial⟩⟩
  · intro fd
    rw [hslots fd]
    exact SlotMove.keep
  · intro t ht
    obtain ⟨hop, hcan⟩ := hw.entered t ht
    refine ⟨hop, ?_⟩
    rcases hentered with hquiet | hstack
    · cases hquiet.symm.trans ht
    · unfold Machine.canCall at hcan ⊢
      rw [hstack]
      exact hcan

/-- The same scheduler has the same tasks. -/
theorem World.task_of_sched {w : World} {m : Machine TaskId Handler}
    (hm : m.sched = w.machine.sched) (t : TaskId) :
    ({ w with machine := m } : World).task t = w.task t := by
  unfold World.task
  dsimp only
  rw [hm]

/-- A step of the machine that leaves the scheduler as it is. -/
theorem World.Wired.sched_step {w : World} (hw : w.Wired) {ev : WorldEvent}
    {m : Machine TaskId Handler} {me : MachineEvent TaskId Handler}
    (hstep : w.machine.step me = some m) (hsched : m.sched = w.machine.sched)
    (hentered : w.entered = none ∨ m.stack = w.machine.stack) :
    w.Stepped ev { w with machine := m } := by
  refine hw.machine_step hstep ?_ ?_ hentered
  · intro t
    rw [World.task_of_sched hsched t]
    exact hw.calls t
  · intro fd
    unfold World.slot
    simp only [World.task_of_sched hsched]

/-- A task of user code is initialised. -/
theorem World.Wired.init_step {w : World} (hw : w.Wired) (habort : w.machine.aborted = false)
    (huser : w.userRuns = true) {n : Nat} (hfree : (w.task (.user n)).status = .free) :
    w.Stepped (.init n) (w.init (.user n)) := by
  obtain ⟨hcan, _⟩ := World.userRuns_spec huser
  apply hw.stepped hcan habort (World.acts_init hfree)
  intro fd
  have hsame : (w.init (.user n)).slot fd = w.slot fd := w.slot_user rfl fd
  rw [hsame]
  exact SlotMove.keep

/-- The start of `spe_task_process`. -/
theorem World.Wired.process_step {w : World} (hw : w.Wired) (habort : w.machine.aborted = false)
    (huser : w.userRuns = true) :
    w.Stepped .process { w with machine := w.machine.process } := by
  obtain ⟨hcan, hquiet⟩ := World.userRuns_spec huser
  have hstep : w.machine.step .process = some w.machine.process := by
    simp [Machine.step, habort, hcan]
  exact hw.sched_step hstep w.machine.process_keeps.1 (Or.inl hquiet)

/-- The return of a handler. -/
theorem World.Wired.ret_step {w : World} (hw : w.Wired) (habort : w.machine.aborted = false)
    (hquiet : w.entered = none) {m : Machine TaskId Handler} (hret : w.machine.ret = some m) :
    w.Stepped .ret { w with machine := m } := by
  have hstep : w.machine.step .ret = some m := by
    simp [Machine.step, habort, hret]
  exact hw.sched_step hstep (Machine.ret_keeps hret).1.symm (Or.inl hquiet)

/-- The passing of time. -/
theorem World.Wired.tick_step {w : World} (hw : w.Wired) (habort : w.machine.aborted = false)
    {now : Nat} (hnow : w.machine.now ≤ now ∧ now < 2 ^ 64) :
    w.Stepped (.tick now) { w with machine := { w.machine with now := now } } := by
  have hstep : w.machine.step (.tick now) = some { w.machine with now := now } := by
    simp only [Machine.step, habort, Bool.false_eq_true, if_false, if_pos hnow]
  exact hw.sched_step hstep rfl (Or.inr rfl)

/-- What a slot waits for is a handler of `spe_conn.c`. -/
theorem Slot.awaits_internal {s : Slot} {fd : Nat} {side : Side} {h : Handler}
    (hs : s.awaits fd side = some h) : h.internal = true := by
  unfold Slot.awaits Phase.awaits at hs
  grind [Handler.internal]

/-- A handler of `spe_conn.c` is next to execute. -/
theorem World.called_internal {w : World} {t : TaskId} {h : Handler}
    (hhandler : (w.task t).handler = some h) (hinternal : h.internal = true) :
    w.called t = { w with entered := some t } := by
  unfold World.called
  rw [hhandler]
  dsimp only
  rw [if_pos hinternal]

/-- Other handlers run step by step. -/
theorem World.Calls.called_eq {w : World} (h : w.Calls) {t : TaskId}
    (ht : ∀ fd side, t ≠ .op fd side) : w.called t = w := by
  unfold World.called
  cases hhandler : (w.task t).handler with
  | none => rfl
  | some x =>
      have hinternal : x.internal = false := by
        have hok := h t
        cases t with
        | op fd side => exact absurd rfl (ht fd side)
        | post fd side => exact hok x hhandler
        | user n => exact hok x hhandler
      dsimp only
      rw [if_neg (by simp [hinternal])]

/-- A step of the machine that changes a task which is in a container. -/
theorem World.Wired.task_step {w : World} (hw : w.Wired) {ev : WorldEvent}
    {m : Machine TaskId Handler} {me : MachineEvent TaskId Handler} {t : TaskId}
    {k : Task Handler} (hstep : w.machine.step me = some m) (hquiet : w.entered = none)
    (hm : m.sched.tasks = Function.update w.machine.sched.tasks t k)
    (hhandler : k.handler = (w.task t).handler) (hfast : k.fast = (w.task t).fast)
    (hstatus : (w.task t).status ≠ .free)
    (hop : ∀ fd side, t = .op fd side → SlotMove fd (w.Stays ev fd) (w.slot fd)
      { w.slot fd with op := Function.update (w.slot fd).op side k }) :
    w.Stepped ev { w with machine := m } := by
  have hcalls : ({ w with machine := m } : World).Calls := by
    intro x
    change TaskOk x (m.sched.tasks x)
    rw [hm]
    by_cases hx : x = t
    · subst hx
      rw [Function.update_self]
      exact (hw.calls x).congr hhandler hfast
    · rw [Function.update_of_ne hx]
      exact hw.calls x
  have hentered : ∀ x, w.entered = some x →
      (∃ fd side, x = .op fd side) ∧ m.canCall = true := by
    intro x hx
    cases hquiet.symm.trans hx
  refine ⟨?_, hcalls, hentered, hw.bound, ⟨_, Run.single hstep trivial⟩⟩
  cases t with
  | op fd side =>
      obtain ⟨hself, hother⟩ := w.slot_op hm
      refine moves_of fd ?_ hother
      rw [hself]
      exact hop fd side rfl
  | post fd side =>
      obtain ⟨hself, hother⟩ := w.slot_post hm
      refine moves_of fd ?_ hother
      rw [hself]
      exact SlotMove.posts _ (Or.inr ⟨side, hstatus⟩)
  | user n =>
      intro fd
      rw [w.slot_user hm fd]
      exact SlotMove.keep

/-- Before a handler is called no slot has one executing. -/
theorem World.slot_quiet {w : World} (h : w.entered = none) (fd : Nat) :
    (w.slot fd).entered = none := by
  change enteredSide w.entered fd = none
  rw [h]
  rfl

/-- The task whose handler is called belongs to one slot. -/
theorem World.slot_enter (w : World) (fd : Nat) (side : Side) :
    ({ w with entered := some (.op fd side) } : World).slot fd =
      { w.slot fd with entered := some side } ∧
    (w.entered = none → ∀ fd', fd' ≠ fd →
      ({ w with entered := some (.op fd side) } : World).slot fd' = w.slot fd') := by
  constructor
  · have henter : enteredSide (some (.op fd side)) fd = some side := if_pos rfl
    unfold World.slot
    simp only [henter]
    rfl
  · intro hquiet fd' hfd
    have henter : enteredSide (some (.op fd side)) fd' = enteredSide w.entered fd' := by
      rw [hquiet]
      exact if_neg (Ne.symm hfd)
    unfold World.slot
    simp only [henter]
    rfl

/-- The run loop takes a private task, whose handler executes next. -/
theorem World.Wired.take_step {w : World} (hw : w.Wired)
    (hquiet : w.entered = none) {m : Machine TaskId Handler} {fd : Nat} {side : Side}
    (hstep : w.machine.step .loop = some m) (hcan : m.canCall = true)
    (hm : m.sched.tasks = Function.update w.machine.sched.tasks (.op fd side)
      (w.task (.op fd side)).freed)
    (hqueue : (w.task (.op fd side)).status = .queue) :
    w.Stepped .loop (({ w with machine := m } : World).called (.op fd side)) := by
  have hqueue : ((w.slot fd).op side).status = .queue := hqueue
  have hbusy : (w.slot fd).Busy fd side := (hw.slots fd).busy (by simp [hqueue])
  obtain ⟨h, hawaits⟩ := Option.ne_none_iff_exists'.mp hbusy
  have hhandler : (({ w with machine := m } : World).task (.op fd side)).handler = some h := by
    change (m.sched.tasks (.op fd side)).handler = some h
    rw [hm, Function.update_self]
    exact (hw.slots fd).handler side h hawaits
  rw [World.called_internal hhandler (Slot.awaits_internal hawaits)]
  obtain ⟨hself, hother⟩ := w.slot_op hm
  obtain ⟨hselfEnter, hotherEnter⟩ :=
    World.slot_enter ({ w with machine := m } : World) fd side
  rw [hself] at hselfEnter
  have hmove : SlotMove fd (w.Stays .loop fd) (w.slot fd)
      (({ w with machine := m, entered := some (.op fd side) } : World).slot fd) := by
    rw [hselfEnter]
    exact SlotMove.take side (World.slot_quiet hquiet fd) hqueue
  have hothers : ∀ fd', fd' ≠ fd →
      ({ w with machine := m, entered := some (.op fd side) } : World).slot fd' = w.slot fd' := by
    intro fd' hfd
    exact (hotherEnter hquiet fd' hfd).trans (hother fd' hfd)
  refine ⟨moves_of fd hmove hothers, ?_, ?_, hw.bound, ⟨_, Run.single hstep trivial⟩⟩
  · intro x
    change TaskOk x (m.sched.tasks x)
    rw [hm]
    by_cases hx : x = .op fd side
    · subst hx
      rw [Function.update_self]
      exact (hw.calls (.op fd side)).congr rfl rfl
    · rw [Function.update_of_ne hx]
      exact hw.calls x
  · intro x hx
    exact ⟨⟨fd, side, (Option.some.inj hx).symm⟩, hcan⟩

/-- After a round of a loop of the machine the handler of the task that the run loop has
taken is called. -/
def World.looped (w : World) (m : Machine TaskId Handler) : World :=
  match w.machine.stack, w.machine.sched.taskHead with
  | .runLoop :: _, t :: _ => ({ w with machine := m } : World).called t
  | _, _ => { w with machine := m }

theorem World.looped_timer {w : World} (m : Machine TaskId Handler) {curr : Nat}
    {rest : List (Frame TaskId)} (hstack : w.machine.stack = .timerLoop curr :: rest) :
    w.looped m = { w with machine := m } := by
  unfold World.looped
  rw [hstack]

theorem World.looped_idle {w : World} (m : Machine TaskId Handler)
    {rest : List (Frame TaskId)} (hstack : w.machine.stack = .runLoop :: rest)
    (hqueue : w.machine.sched.taskHead = []) : w.looped m = { w with machine := m } := by
  unfold World.looped
  rw [hstack, hqueue]

theorem World.looped_take {w : World} (m : Machine TaskId Handler) {t : TaskId}
    {rest : List (Frame TaskId)} {others : List TaskId}
    (hstack : w.machine.stack = .runLoop :: rest)
    (hqueue : w.machine.sched.taskHead = t :: others) :
    w.looped m = ({ w with machine := m } : World).called t := by
  unfold World.looped
  rw [hstack, hqueue]

/-- A round of a loop is one of the machine. -/
theorem World.loop_eq {w : World} (hplaced : Placed w.machine.sched) :
    w.loop = w.machine.loop.map w.looped := by
  have hround := hplaced.runRound_eq
  unfold World.loop
  cases hm : w.machine.loop with
  | none => rfl
  | some m =>
      rw [Option.map_some]
      cases hplaced.loop_cases hm with
      | fire _ _ _ _ hstack =>
          rw [World.looped_timer _ hstack]
          simp only [hstack]
      | drained _ _ hstack =>
          rw [World.looped_timer _ hstack]
          simp only [hstack]
      | take _ _ _ hstack hqueue =>
          rw [hqueue] at hround
          rw [World.looped_take _ hstack hqueue]
          simp only [hstack, hround]
      | idle _ hstack hqueue =>
          rw [hqueue] at hround
          rw [World.looped_idle _ hstack hqueue]
          simp only [hstack, hround]

/-- What a round of a loop can do. -/
theorem World.loop_cases {w w' : World} (hplaced : Placed w.machine.sched)
    (hloop : w.loop = some w') :
    ∃ m, w.machine.loop = some m ∧ LoopMove w.machine m ∧ w' = w.looped m := by
  rw [World.loop_eq hplaced] at hloop
  obtain ⟨m, hm, rfl⟩ := Option.map_eq_some_iff.mp hloop
  exact ⟨m, hm, hplaced.loop_cases hm, rfl⟩

/-- The run loop takes a task and calls its handler. -/
theorem World.Wired.taken_step {w : World} (hw : w.Wired) (hquiet : w.entered = none)
    {m : Machine TaskId Handler} {t : TaskId} (hstep : w.machine.step .loop = some m)
    (hcan : m.canCall = true)
    (htasks : m.sched.tasks = Function.update w.machine.sched.tasks t (w.task t).freed)
    (hqueued : (w.task t).status = .queue) :
    w.Stepped .loop (({ w with machine := m } : World).called t) := by
  have hother : (∀ fd side, t ≠ .op fd side) →
      w.Stepped .loop (({ w with machine := m } : World).called t) := by
    intro hne
    have hstepped : w.Stepped .loop { w with machine := m } :=
      hw.task_step hstep hquiet htasks rfl rfl (by simp [hqueued])
        (fun fd side heq => absurd heq (hne fd side))
    rw [hstepped.calls.called_eq hne]
    exact hstepped
  cases t with
  | op fd side => exact hw.take_step hquiet hstep hcan htasks hqueued
  | post fd side => exact hother (by rintro _ _ ⟨⟩)
  | user n => exact hother (by rintro _ _ ⟨⟩)

/-- A round of a loop. -/
theorem World.Wired.loop_step {w w' : World} (hw : w.Wired)
    (habort : w.machine.aborted = false) (hquiet : w.entered = none)
    (hloop : w.loop = some w') : w.Stepped .loop w' := by
  obtain ⟨m, hm, hmove, rfl⟩ := World.loop_cases hw.placed hloop
  have hstep : w.machine.step .loop = some m := by simp [Machine.step, habort, hm]
  cases hmove with
  | fire curr rest t others hstack htimers hstatus hdue =>
      rw [World.looped_timer _ hstack]
      refine hw.task_step hstep hquiet (fire_tasks w.machine.sched t) rfl rfl
        (by simp [World.task, hstatus]) ?_
      intro fd side heq
      subst heq
      exact SlotMove.fire side (World.slot_quiet hquiet fd) hstatus
  | drained curr rest hstack hlater =>
      rw [World.looped_timer _ hstack]
      exact hw.sched_step hstep rfl (Or.inl hquiet)
  | take rest t others hstack hqueue hstatus =>
      rw [World.looped_take _ hstack hqueue]
      exact hw.taken_step hquiet hstep rfl (take_tasks w.machine.sched t) hstatus
  | idle rest hstack hqueue =>
      rw [World.looped_idle _ hstack hqueue]
      exact hw.sched_step hstep rfl (Or.inl hquiet)

end Spe
