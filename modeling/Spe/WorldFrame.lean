import Spe.WorldConn

/-!
# What one connection leaves alone

`World.SameElse fd` says of two states that they differ at most in the slot of `fd`:
its connection, its four tasks and its entry in the epoll table.

A run that concerns one slot only changes nothing else, as long as no task of another
slot is in a container (`World.sameElse_of_run`).
-/

namespace Spe

open Transition

/-- The task belongs to the slot. -/
def TaskId.Of (fd : Nat) : TaskId → Prop
  | .op i _ => i = fd
  | .post i _ => i = fd
  | .user _ => False

/-- The two states differ at most in one slot. -/
structure World.SameElse (fd : Nat) (w w' : World) : Prop where
  tasks : ∀ t : TaskId, ¬ t.Of fd → w'.task t = w.task t
  conns : ∀ i, i ≠ fd → w'.conns i = w.conns i
  epolls : ∀ i, i ≠ fd → w'.epolls i = w.epolls i
  live : ∀ i, i ≠ fd → w'.live i = w.live i
  maxfd : w'.maxfd = w.maxfd

/-- Nothing differs. -/
theorem World.SameElse.refl (fd : Nat) (w : World) : World.SameElse fd w w :=
  ⟨fun _ _ => rfl, fun _ _ => rfl, fun _ _ => rfl, fun _ _ => rfl, rfl⟩

/-- Two changes in one slot. -/
theorem World.SameElse.trans {fd : Nat} {w w' w'' : World} (h : World.SameElse fd w w')
    (h' : World.SameElse fd w' w'') : World.SameElse fd w w'' :=
  ⟨fun t ht => (h'.tasks t ht).trans (h.tasks t ht),
    fun i hi => (h'.conns i hi).trans (h.conns i hi),
    fun i hi => (h'.epolls i hi).trans (h.epolls i hi),
    fun i hi => (h'.live i hi).trans (h.live i hi), h'.maxfd.trans h.maxfd⟩

/-- Two states that differ from a third in the same slot. -/
theorem World.SameElse.join {fd : Nat} {w v v' : World} (h : World.SameElse fd w v)
    (h' : World.SameElse fd w v') : World.SameElse fd v v' :=
  ⟨fun t ht => (h'.tasks t ht).trans (h.tasks t ht).symm,
    fun i hi => (h'.conns i hi).trans (h.conns i hi).symm,
    fun i hi => (h'.epolls i hi).trans (h.epolls i hi).symm,
    fun i hi => (h'.live i hi).trans (h.live i hi).symm, h'.maxfd.trans h.maxfd.symm⟩

/-- The scheduler changes one task of the slot. -/
theorem World.sameElse_task (w : World) {m : Machine TaskId Handler} {fd : Nat} {t : TaskId}
    {k : Task Handler} (ht : t.Of fd)
    (hm : m.sched.tasks = Function.update w.machine.sched.tasks t k) :
    World.SameElse fd w { w with machine := m } := by
  refine ⟨?_, fun _ _ => rfl, fun _ _ => rfl, fun _ _ => rfl, rfl⟩
  intro x hx
  have hne : x ≠ t := by
    intro heq
    subst heq
    exact hx ht
  change m.sched.tasks x = w.machine.sched.tasks x
  rw [hm, Function.update_of_ne hne]

/-- The scheduler changes no task. -/
theorem World.sameElse_sched (w : World) (fd : Nat) {m : Machine TaskId Handler}
    (hm : m.sched.tasks = w.machine.sched.tasks) :
    World.SameElse fd w { w with machine := m } :=
  ⟨fun t _ => congrFun hm t, fun _ _ => rfl, fun _ _ => rfl, fun _ _ => rfl, rfl⟩

/-- A call about a task of the slot. -/
theorem World.sameElse_call (w : World) {fd : Nat} {c : Call TaskId Handler}
    (hc : c.task.Of fd) : World.SameElse fd w (w.call c) :=
  w.sameElse_task hc (w.machine.call_tasks c)

/-- The handler of a task is called. -/
theorem World.sameElse_called (w : World) (fd : Nat) (t : TaskId) :
    World.SameElse fd w (w.called t) := by
  unfold World.called
  split
  · exact .refl fd w
  · split
    · exact ⟨fun _ _ => rfl, fun _ _ => rfl, fun _ _ => rfl, fun _ _ => rfl, rfl⟩
    · exact .refl fd w

/-- A task of the slot is scheduled. -/
theorem World.sameElse_schedule (w : World) {fd : Nat} {t : TaskId} (ht : t.Of fd) :
    World.SameElse fd w (w.schedule t) := by
  have hcall : World.SameElse fd w (w.call (.schedule t)) :=
    w.sameElse_call (c := .schedule t) ht
  unfold World.schedule
  split
  · exact hcall
  · exact hcall.trans (World.sameElse_called _ fd _)

/-- The connection of the slot changes. -/
theorem World.sameElse_setConn (w : World) (fd : Nat) (c : ConnState) :
    World.SameElse fd w (w.setConn fd c) :=
  ⟨fun _ _ => rfl, fun _ hi => Function.update_of_ne hi _ _, fun _ _ => rfl, fun _ _ => rfl, rfl⟩

/-- The entry of the slot in the epoll table changes. -/
theorem World.sameElse_setEpoll (w : World) (fd : Nat) (e : Epoll TaskId) :
    World.SameElse fd w (w.setEpoll fd e) :=
  ⟨fun _ _ => rfl, fun _ _ => rfl, fun _ hi => Function.update_of_ne hi _ _, fun _ _ => rfl, rfl⟩

/-- The slot gets or loses its connection. -/
theorem World.sameElse_setLive (w : World) (fd : Nat) (b : Bool) :
    World.SameElse fd w { w with live := Function.update w.live fd b } :=
  ⟨fun _ _ => rfl, fun _ _ => rfl, fun _ _ => rfl, fun _ hi => Function.update_of_ne hi _ _, rfl⟩

/-- Events of the slot are enabled. -/
theorem World.sameElse_epollEnable (w : World) (fd : Nat) (mask : Mask) (t : TaskId)
    (ctl : EpollCtl) : World.SameElse fd w (w.epollEnable fd mask t ctl) := by
  unfold World.epollEnable
  split
  · exact .refl fd w
  · exact w.sameElse_setEpoll fd _

/-- Events of the slot are disabled. -/
theorem World.sameElse_epollDisable (w : World) (fd : Nat) (mask : Mask) (ctl : EpollCtl) :
    World.SameElse fd w (w.epollDisable fd mask ctl) := by
  unfold World.epollDisable
  split
  · exact .refl fd w
  · exact w.sameElse_setEpoll fd _

/-- An operation of the slot begins. -/
theorem World.sameElse_beginOp (w : World) (fd : Nat) (side : Side) (h : Handler) (mask : Mask)
    (ms : Nat) (ctl : EpollCtl) :
    World.SameElse fd w (w.beginOp fd (.op fd side) h mask ms ctl) := by
  have hof : (TaskId.op fd side).Of fd := rfl
  have hset : World.SameElse fd w (w.call (.setHandler (.op fd side) (some h) false)) :=
    w.sameElse_call (c := .setHandler (.op fd side) (some h) false) hof
  have henable := hset.trans (World.sameElse_epollEnable _ fd mask (.op fd side) ctl)
  have htimed : ∀ (v : World) (timed : TaskId → Bool),
      World.SameElse fd v { v with timed := timed } := fun _ _ =>
    ⟨fun _ _ => rfl, fun _ _ => rfl, fun _ _ => rfl, fun _ _ => rfl, rfl⟩
  unfold World.beginOp
  dsimp only
  split
  · exact (henable.trans (htimed _ _)).trans
      (World.sameElse_call _ (c := .scheduleTimeout (.op fd side) ms) hof)
  · exact henable.trans (htimed _ _)

/-- An operation of the slot ends. -/
theorem World.sameElse_endOp (w : World) (fd : Nat) (side : Side) (mask : Mask) (ms : Nat)
    (ctl : EpollCtl) :
    World.SameElse fd w (w.endOp fd (.op fd side) (.post fd side) mask ms ctl) := by
  have hop : (TaskId.op fd side).Of fd := rfl
  have hpost : (TaskId.post fd side).Of fd := rfl
  have hdisable := w.sameElse_epollDisable fd mask ctl
  unfold World.endOp
  dsimp only
  split
  · exact (hdisable.trans (World.sameElse_call _ (c := .dequeue (.op fd side)) hop)).trans
      (World.sameElse_schedule _ hpost)
  · exact hdisable.trans (World.sameElse_schedule _ hpost)

/-- A task of the slot is initialised. -/
theorem World.sameElse_init (w : World) {fd : Nat} {t : TaskId} (ht : t.Of fd) :
    World.SameElse fd w (w.init t) :=
  w.sameElse_task ht rfl

/-- `spe_conn_create`. -/
theorem World.sameElse_create (w : World) (fd : Nat) : World.SameElse fd w (w.create fd) := by
  have htasks : World.SameElse fd w (w.initTasks fd) :=
    (((w.sameElse_init (t := .readTask fd) rfl).trans
      (World.sameElse_init _ (t := .writeTask fd) rfl)).trans
      (World.sameElse_init _ (t := .postReadTask fd) rfl)).trans
      (World.sameElse_init _ (t := .postWriteTask fd) rfl)
  unfold World.create
  dsimp only
  split
  · exact (htasks.trans (World.sameElse_setConn _ fd _)).trans (World.sameElse_setLive _ fd true)
  · exact (w.sameElse_setConn fd _).trans (World.sameElse_setLive _ fd true)

/-- `spe_conn_destroy`. -/
theorem World.sameElse_destroy (w : World) (fd : Nat) (ctl : EpollCtl) :
    World.SameElse fd w (w.destroy fd ctl) := by
  have htasks : World.SameElse fd w (w.dequeueTasks fd) :=
    (((w.sameElse_call (c := .dequeue (.readTask fd)) rfl).trans
      (World.sameElse_call _ (c := .dequeue (.writeTask fd)) rfl)).trans
      (World.sameElse_call _ (c := .dequeue (.postReadTask fd)) rfl)).trans
      (World.sameElse_call _ (c := .dequeue (.postWriteTask fd)) rfl)
  exact (htasks.trans (World.sameElse_epollDisable _ fd _ ctl)).trans
    (World.sameElse_setLive _ fd false)

/-- A call of the connection's user. -/
theorem World.sameElse_userCall {w w' : World} {fd : Nat} {cev : ConnEvent} {ctl : EpollCtl}
    (h : w.userCall fd cev ctl = some w') : World.SameElse fd w w' := by
  obtain ⟨c, out, _, _, hafter⟩ := World.userCall_cases h
  have hconn := w.sameElse_setConn fd c
  split at hafter
  · rw [hafter]
    exact hconn.trans (World.sameElse_schedule _ rfl)
  · rw [hafter]
    exact hconn.trans (World.sameElse_beginOp _ fd _ _ _ _ ctl)
  · rw [hafter]
    exact hconn

/-- All other slots are quiet: none is live, and no task outside this slot is in a
container. -/
structure World.Alone (fd : Nat) (w : World) : Prop where
  idle : ∀ t : TaskId, ¬ t.Of fd → (w.task t).status = .free
  dead : ∀ i, i ≠ fd → w.live i = false

/-- A change in the slot leaves the others quiet. -/
theorem World.Alone.keep {fd : Nat} {w w' : World} (h : World.Alone fd w)
    (helse : World.SameElse fd w w') : World.Alone fd w' := by
  refine ⟨?_, fun i hi => (helse.live i hi).trans (h.dead i hi)⟩
  intro t ht
  rw [helse.tasks t ht]
  exact h.idle t ht

/-- A task in a container belongs to the slot. -/
theorem World.Alone.of_busy {fd : Nat} {w : World} (h : World.Alone fd w) {t : TaskId}
    (hstatus : (w.task t).status ≠ .free) : t.Of fd := by
  by_contra hnot
  exact hstatus (h.idle t hnot)

/-- A round of a loop. -/
theorem World.Alone.loop {fd : Nat} {w w' : World} (h : World.Alone fd w)
    (hplaced : Placed w.machine.sched) (hloop : w.loop = some w') : World.SameElse fd w w' := by
  obtain ⟨m, _, hmove, rfl⟩ := World.loop_cases hplaced hloop
  cases hmove with
  | fire curr rest t others hstack htimers hstatus hdue =>
      have hof : t.Of fd := h.of_busy (by simp [World.task, hstatus])
      rw [World.looped_timer _ hstack]
      exact w.sameElse_task hof (fire_tasks w.machine.sched t)
  | drained curr rest hstack hlater =>
      rw [World.looped_timer _ hstack]
      exact w.sameElse_sched fd rfl
  | take rest t others hstack hqueue hstatus =>
      have hof : t.Of fd := h.of_busy (by simp [World.task, hstatus])
      rw [World.looped_take _ hstack hqueue]
      exact (w.sameElse_task hof (take_tasks w.machine.sched t)).trans
        (World.sameElse_called _ fd t)
  | idle rest hstack hqueue =>
      rw [World.looped_idle _ hstack hqueue]
      exact w.sameElse_sched fd rfl

/-- The execution of a handler. -/
theorem World.Alone.handle {fd : Nat} {w w' : World} (h : World.Alone fd w) (hw : w.Wired)
    {ans : World.Answer} {ctl : EpollCtl} (hhandle : w.handle ans ctl = some w') :
    World.SameElse fd w w' := by
  obtain ⟨i, k, cev, c, out, _, hlive, _, _, _, _, rfl⟩ := hw.handle_cases hhandle
  obtain rfl : i = fd := by
    by_contra hne
    cases hlive.symm.trans (h.dead i hne)
  have hleave : World.SameElse i w w.leave :=
    ⟨fun _ _ => rfl, fun _ _ => rfl, fun _ _ => rfl, fun _ _ => rfl, rfl⟩
  have hconn := hleave.trans (World.sameElse_setConn w.leave i c)
  split
  · exact hconn.trans (World.sameElse_endOp _ i _ _ _ ctl)
  · exact hconn

/-- The events that concern one slot, and those of the loops. -/
def WorldEvent.About (fd : Nat) : WorldEvent → Prop
  | .call c => c.task.Of fd
  | .init _ => False
  | .epollEnable i _ _ _ => i = fd
  | .epollDisable i _ _ => i = fd
  | .create i => i = fd
  | .destroy i _ => i = fd
  | .userCall i _ _ => i = fd
  | .ready _ _ => False
  | _ => True

/-- **Step lemma.**  A step that concerns one slot changes nothing else. -/
theorem World.Alone.step {fd : Nat} {w w' : World} (h : World.Alone fd w) (hw : w.Wired)
    {ev : WorldEvent} (habout : ev.About fd) (hstep : w.step ev = some w') :
    World.SameElse fd w w' := by
  unfold World.step at hstep
  obtain ⟨_, hstep⟩ := Option.ite_none_left_eq_some.mp hstep
  cases ev with
  | call c =>
      obtain ⟨_, hstep⟩ := Option.ite_none_right_eq_some.mp hstep
      split at hstep
      · obtain rfl := Option.some.inj hstep
        exact w.sameElse_schedule habout
      · obtain rfl := Option.some.inj hstep
        exact w.sameElse_call habout
  | init n => exact habout.elim
  | epollEnable i mask n ctl =>
      obtain ⟨_, ⟨⟩⟩ := Option.ite_none_right_eq_some.mp hstep
      obtain rfl : i = fd := habout
      exact w.sameElse_epollEnable i mask (.user n) ctl
  | epollDisable i mask ctl =>
      obtain ⟨_, ⟨⟩⟩ := Option.ite_none_right_eq_some.mp hstep
      obtain rfl : i = fd := habout
      exact w.sameElse_epollDisable i mask ctl
  | create i =>
      obtain ⟨_, ⟨⟩⟩ := Option.ite_none_right_eq_some.mp hstep
      obtain rfl : i = fd := habout
      exact w.sameElse_create i
  | destroy i ctl =>
      obtain ⟨_, ⟨⟩⟩ := Option.ite_none_right_eq_some.mp hstep
      obtain rfl : i = fd := habout
      exact w.sameElse_destroy i ctl
  | userCall i cev ctl =>
      obtain ⟨_, hcall⟩ := Option.ite_none_right_eq_some.mp hstep
      obtain rfl : i = fd := habout
      exact World.sameElse_userCall hcall
  | ready i side => exact habout.elim
  | process =>
      obtain ⟨_, ⟨⟩⟩ := Option.ite_none_right_eq_some.mp hstep
      apply w.sameElse_sched fd
      rw [w.machine.process_keeps.1]
  | loop =>
      obtain ⟨_, hloop⟩ := Option.ite_none_right_eq_some.mp hstep
      exact h.loop hw.placed hloop
  | ret =>
      obtain ⟨_, hret⟩ := Option.ite_none_right_eq_some.mp hstep
      obtain ⟨m, hm, rfl⟩ := Option.map_eq_some_iff.mp hret
      apply w.sameElse_sched fd
      rw [(Machine.ret_keeps hm).1]
  | handle ans ctl => exact h.handle hw hstep
  | tick now =>
      obtain ⟨_, ⟨⟩⟩ := Option.ite_none_right_eq_some.mp hstep
      exact w.sameElse_sched fd rfl

/-- **Frame.**  A run that concerns one slot changes nothing else. -/
theorem World.sameElse_of_run {maxfd fd : Nat} {w : World} {es : List WorldEvent}
    (h : Run World.step (fun _ ev => ev.About fd) (World.start maxfd) es w) :
    World.SameElse fd (World.start maxfd) w := by
  have halone : World.Alone fd (World.start maxfd) := ⟨fun _ _ => rfl, fun _ _ => rfl⟩
  refine (h.invariant (fun w => w.Wired ∧ World.SameElse fd (World.start maxfd) w)
    ⟨World.wired_start maxfd, .refl fd _⟩ ?_).2
  intro w ev w' hboth habout hstep
  obtain ⟨hw, helse⟩ := hboth
  exact ⟨(hw.step hstep).wired hw, helse.trans ((halone.keep helse).step hw habout hstep)⟩

end Spe
