import Spe.ConnCompletion
import Spe.WorldConn

/-!
# What the timeout flags tell

A handler infers that its operation has timed out from two fields: the time limit of
the connection, which `spe_conn_set_timeout` changes at any time, and the timeout bit
of the task, which nothing clears but the next timer.  A call that completes its
operation at once leaves the flag of an earlier one as it is.

`Traced` keeps beside a process which timers have expired: that of a task has when the
timer loop has moved the task to the run queue since its operation began.
`flag_iff_expired` says exactly when a flag tells the truth at a completion;
`flag_iff_expired_fails` is a run in which it does not.
-/

namespace Spe

open Transition

/-- The event is the round of the timer loop that moves the task to the run queue. -/
def World.fires (w : World) (ev : WorldEvent) (t : TaskId) : Bool :=
  match ev, w.machine.stack with
  | .loop, .timerLoop curr :: _ =>
      match timerRound curr w.machine.sched with
      | .next _ => RedBlack.first w.machine.sched.timerHead = some t
      | _ => false
  | _, _ => false

/-- The event is a call that leaves an operation of the kind pending. -/
def World.begins (w : World) (ev : WorldEvent) (fd : Nat) (k : OpKind) : Bool :=
  match ev with
  | .userCall fd' cev _ =>
      fd' = fd && cev.starts = some k && (connStep (w.conns fd) cev).any (·.2 = .pending)
  | _ => false

/-- The event begins an operation that waits with the task. -/
def World.renews (w : World) (ev : WorldEvent) (t : TaskId) : Bool :=
  match t with
  | .op fd .read => w.begins ev fd .read || w.begins ev fd .connect
  | .op fd .write => w.begins ev fd .flush
  | _ => false

/-- A process, and which timers have expired since the operations of their tasks
began. -/
structure Traced where
  world : World
  expired : TaskId → Bool

/-- The state after an event that leads to a process. -/
def Traced.after (s : Traced) (ev : WorldEvent) (w : World) : Traced where
  world := w
  expired t := !s.world.renews ev t && (s.expired t || s.world.fires ev t)

/-- The step of a process with its expired timers. -/
def Traced.step (s : Traced) (ev : WorldEvent) : Option Traced :=
  (s.world.step ev).map (s.after ev)

/-- No timer has expired at the start. -/
def Traced.start (maxfd : Nat) : Traced := ⟨.start maxfd, fun _ => false⟩

/-- An operation of the kind is pending on the connection. -/
def World.Performs (w : World) (fd : Nat) (k : OpKind) : Prop :=
  w.live fd = true ∧ (w.conns fd).Performs k

/-- The step completes an operation of the kind and schedules its post task: a call
completes it at once, or its handler ends it. -/
def World.Completed (w : World) (ev : WorldEvent) (w' : World) (fd : Nat) (k : OpKind) : Prop :=
  match ev with
  | .userCall fd' cev _ =>
      fd' = fd ∧ cev.starts = some k ∧ ∃ c, connStep (w.conns fd) cev = some (c, .done)
  | .handle _ _ =>
      w.entered = some (.op fd k.side) ∧ w.Performs fd k ∧ ¬ w'.Performs fd k
  | _ => False

/-- The timer armed for the operation that the event completes has expired; a call that
completes its operation at once arms none. -/
def Traced.Expired (s : Traced) (ev : WorldEvent) (fd : Nat) (k : OpKind) : Prop :=
  match ev with
  | .handle _ _ => s.expired (.op fd k.side) = true
  | _ => False

/-- Where the flag of a completed operation is going to tell the truth.  A call that
completes its operation at once finds the flag clear; a handler that finds the timeout
bit of its task set finds a time limit if and only if its operation began with one. -/
def World.Truthful (w : World) (ev : WorldEvent) (fd : Nat) (k : OpKind) : Prop :=
  match ev with
  | .userCall _ _ _ => k.flag (w.conns fd).conn = false
  | .handle _ _ =>
      (w.task (.op fd k.side)).timeout = true →
        (w.timed (.op fd k.side) = true ↔ k.expireTime (w.conns fd).conn ≠ 0)
  | _ => True

/-- The timer of a task and what is known of it are as before; it may have been
stopped. -/
structure World.SameTimer (w w' : World) (t : TaskId) : Prop where
  timed : w'.timed t = w.timed t
  timeout : (w'.task t).timeout = (w.task t).timeout
  disarmed : (w'.task t).status = .timer → (w.task t).status = .timer

/-- Nothing is changed by nothing. -/
theorem World.SameTimer.refl (w : World) (t : TaskId) : w.SameTimer w t := ⟨rfl, rfl, id⟩

/-- Two steps that leave a timer as it is. -/
theorem World.SameTimer.trans {w w' w'' : World} {t : TaskId} (h : w.SameTimer w' t)
    (h' : w'.SameTimer w'' t) : w.SameTimer w'' t :=
  ⟨h'.timed.trans h.timed, h'.timeout.trans h.timeout, fun ht => h.disarmed (h'.disarmed ht)⟩

/-- What does not touch the tasks leaves the timers as they are. -/
theorem World.SameTimer.of_machine {w w' : World} {t : TaskId} (hmachine : w'.machine = w.machine)
    (htimed : w'.timed t = w.timed t) : w.SameTimer w' t := by
  have htask : w'.task t = w.task t := by
    unfold World.task
    rw [hmachine]
  refine ⟨htimed, ?_, ?_⟩
  · rw [htask]
  · rw [htask]
    exact id

/-- What leaves the scheduler as it is leaves the timers. -/
theorem World.SameTimer.of_sched {w : World} {m : Machine TaskId Handler} (t : TaskId)
    (hm : m.sched = w.machine.sched) : w.SameTimer { w with machine := m } t := by
  refine ⟨rfl, ?_, ?_⟩
  · rw [World.task_of_sched hm]
  · rw [World.task_of_sched hm]
    exact id

/-- A call into the scheduler leaves the timer of a task as it is, unless it arms it. -/
theorem World.call_timer (w : World) {c : Call TaskId Handler} {t : TaskId}
    (hc : ∀ ms, c ≠ .scheduleTimeout t ms) : w.SameTimer (w.call c) t := by
  have htask := w.call_task c t
  by_cases ht : t = c.task
  · rw [if_pos ht] at htask
    refine ⟨rfl, ?_, ?_⟩
    · rw [htask]
      cases c with
      | setHandler t' handler fast => rfl
      | schedule t' =>
          unfold Call.effect Task.scheduled
          dsimp only
          split <;> rfl
      | scheduleTimeout t' ms => exact absurd (by rw [show t = t' from ht]) (hc ms)
      | dequeue t' => rfl
    · rw [htask]
      cases c with
      | setHandler t' handler fast => exact id
      | schedule t' =>
          unfold Call.effect Task.scheduled
          dsimp only
          split
          · exact id
          · dsimp only
            split <;> exact nofun
      | scheduleTimeout t' ms => exact absurd (by rw [show t = t' from ht]) (hc ms)
      | dequeue t' => exact nofun
  · rw [if_neg ht] at htask
    refine ⟨rfl, ?_, ?_⟩
    · rw [htask]
    · rw [htask]
      exact id

/-- A handler that is called. -/
theorem World.called_timer (w : World) (t t' : TaskId) : w.SameTimer (w.called t) t' := by
  unfold World.called
  split
  · exact .refl w t'
  · split
    · exact .of_machine rfl rfl
    · exact .refl w t'

/-- A task that is scheduled. -/
theorem World.schedule_timer (w : World) (t t' : TaskId) : w.SameTimer (w.schedule t) t' := by
  have hcall : w.SameTimer (w.call (.schedule t)) t' := w.call_timer (by intros; exact nofun)
  unfold World.schedule
  split
  · exact hcall
  · exact hcall.trans (World.called_timer _ _ _)

/-- An operation that ends. -/
theorem World.endOp_timer (w : World) (fd : Nat) (t post : TaskId) (mask : Mask) (ms : Nat)
    (ctl : EpollCtl) (t' : TaskId) : w.SameTimer (w.endOp fd t post mask ms ctl) t' := by
  have hdisable : w.SameTimer (w.epollDisable fd mask ctl) t' := by
    rw [World.epollDisable_eq]
    exact .of_machine rfl rfl
  unfold World.endOp
  dsimp only
  split
  · exact hdisable.trans ((World.call_timer _ (by intros; exact nofun)).trans
      (World.schedule_timer _ _ _))
  · exact hdisable.trans (World.schedule_timer _ _ _)

/-- An operation that begins touches the timer of its own task only. -/
theorem World.beginOp_timer (w : World) (fd : Nat) {t t' : TaskId} (x : Handler) (mask : Mask)
    (ms : Nat) (ctl : EpollCtl) (ht : t' ≠ t) :
    w.SameTimer (w.beginOp fd t x mask ms ctl) t' := by
  let w₁ := w.call (.setHandler t (some x) false)
  let w₂ := w₁.epollEnable fd mask t ctl
  let w₃ : World := { w₂ with timed := Function.update w₂.timed t (decide (ms ≠ 0)) }
  have hset : w.SameTimer w₁ t' := w.call_timer (by intros; exact nofun)
  have henable : w₁.SameTimer w₂ t' := by
    rw [show w₂ = _ from w₁.epollEnable_eq fd mask t ctl]
    exact .of_machine rfl rfl
  have htimed : w₂.SameTimer w₃ t' := .of_machine rfl (Function.update_of_ne ht _ _)
  have hbegin := (hset.trans henable).trans htimed
  have heq : w.beginOp fd t x mask ms ctl =
      if ms ≠ 0 then w₃.call (.scheduleTimeout t ms) else w₃ := rfl
  rw [heq]
  split
  · refine hbegin.trans (World.call_timer _ ?_)
    intro ms' hcall
    exact ht (Call.scheduleTimeout.inj hcall).1.symm
  · exact hbegin

/-- An event of `epoll_wait`. -/
theorem World.ready_timer (w : World) (fd : Nat) (side : Side) (t : TaskId) :
    w.SameTimer (w.ready fd side) t := by
  unfold World.ready
  split
  · split
    · exact .of_machine rfl rfl
    · exact w.schedule_timer _ _
  · exact .refl w t

/-- The run loop takes a task and leaves all timers as they are. -/
theorem World.take_timer {w : World} {m : Machine TaskId Handler} {t : TaskId}
    (hm : m.sched = w.machine.sched.take t) (t' : TaskId) :
    w.SameTimer { w with machine := m } t' := by
  have htask : ({ w with machine := m } : World).task t' =
      Function.update w.machine.sched.tasks t (w.task t).freed t' := by
    unfold World.task
    rw [← take_tasks, ← hm]
  by_cases ht : t' = t
  · subst ht
    rw [Function.update_self] at htask
    refine ⟨rfl, ?_, ?_⟩
    · rw [htask]
      rfl
    · rw [htask]
      exact nofun
  · rw [Function.update_of_ne ht] at htask
    refine ⟨rfl, ?_, ?_⟩
    · rw [htask]
      rfl
    · rw [htask]
      exact id

/-- The round of the timer loop that moves a task fires that task only. -/
theorem World.fires_first {w : World} (hplaced : Placed w.machine.sched) {curr : Nat}
    {rest : List (Frame TaskId)} {t : TaskId} {others : List TaskId}
    (hstack : w.machine.stack = .timerLoop curr :: rest)
    (htimers : w.machine.sched.timers = t :: others)
    (hdue : (w.task t).expire ≤ curr) (t' : TaskId) : w.fires .loop t' = decide (t = t') := by
  have hround : timerRound curr w.machine.sched = .next (w.machine.sched.fire t) := by
    rw [hplaced.timerRound_eq, htimers]
    exact if_pos hdue
  have hfirst : RedBlack.first w.machine.sched.timerHead = some t := by
    rw [RedBlack.first_eq_head]
    change w.machine.sched.timers.head? = some t
    rw [htimers]
    rfl
  unfold World.fires
  rw [hstack]
  dsimp only
  rw [hround, hfirst]
  simp

/-- The round that ends the timer loop fires nothing. -/
theorem World.fires_drained {w : World} (hplaced : Placed w.machine.sched) {curr : Nat}
    {rest : List (Frame TaskId)} (hstack : w.machine.stack = .timerLoop curr :: rest)
    (hlater : ∀ t others, w.machine.sched.timers = t :: others → ¬ (w.task t).expire ≤ curr)
    (t' : TaskId) : w.fires .loop t' = false := by
  have hround : timerRound curr w.machine.sched = .done := by
    rw [hplaced.timerRound_eq]
    cases htimers : w.machine.sched.timers with
    | nil => rfl
    | cons t others => exact if_neg (hlater t others htimers)
  unfold World.fires
  rw [hstack]
  dsimp only
  rw [hround]

/-- The run loop fires nothing. -/
theorem World.fires_run {w : World} {rest : List (Frame TaskId)}
    (hstack : w.machine.stack = .runLoop :: rest) (t : TaskId) : w.fires .loop t = false := by
  unfold World.fires
  rw [hstack]

/-- A round of a loop fires the timer of the task, or leaves it as it is. -/
theorem World.loop_timer {w w' : World} (hplaced : Placed w.machine.sched)
    (hloop : w.loop = some w') (t : TaskId) :
    (w.fires .loop t = false ∧ w.SameTimer w' t) ∨
    (w.fires .loop t = true ∧ (w.task t).status = .timer ∧ (w'.task t).timeout = true ∧
      w'.timed t = w.timed t) := by
  obtain ⟨m, _, hmove, rfl⟩ := World.loop_cases hplaced hloop
  cases hmove with
  | fire curr rest t' others hstack htimers hstatus hdue =>
      rw [World.looped_timer _ hstack, World.fires_first hplaced hstack htimers hdue]
      have htask : (w.machine.sched.fire t').tasks t =
          Function.update w.machine.sched.tasks t' (w.task t').fired t := by
        rw [fire_tasks]
        rfl
      by_cases ht : t = t'
      · subst ht
        rw [Function.update_self] at htask
        refine Or.inr ⟨by simp, hstatus, ?_, rfl⟩
        exact congrArg Task.timeout htask
      · rw [Function.update_of_ne ht] at htask
        refine Or.inl ⟨by simp [Ne.symm ht], rfl, congrArg Task.timeout htask, ?_⟩
        intro htimer
        rw [← htimer]
        exact (congrArg Task.status htask).symm
  | drained curr rest hstack hlater =>
      rw [World.looped_timer _ hstack]
      exact Or.inl ⟨World.fires_drained hplaced hstack hlater t, .of_sched _ rfl⟩
  | take rest t' others hstack hqueue hstatus =>
      rw [World.looped_take _ hstack hqueue]
      refine Or.inl ⟨World.fires_run hstack t, ?_⟩
      exact (World.take_timer rfl t).trans (World.called_timer _ _ _)
  | idle rest hstack hqueue =>
      rw [World.looped_idle _ hstack hqueue]
      exact Or.inl ⟨World.fires_run hstack t, .of_sched _ rfl⟩

/-- While an operation is pending that began with a time limit, the timeout bit of its
task tells whether its timer has expired; without one there is no timer. -/
structure Traced.Honest (s : Traced) (fd : Nat) (k : OpKind) : Prop where
  armed : s.world.Performs fd k → s.world.timed (.op fd k.side) = true →
    (s.world.task (.op fd k.side)).timeout = s.expired (.op fd k.side)
  unarmed : s.world.Performs fd k → s.world.timed (.op fd k.side) = false →
    s.expired (.op fd k.side) = false ∧ (s.world.task (.op fd k.side)).status ≠ .timer

/-- Nothing happens to the operation and to its timer. -/
theorem Traced.Honest.same {s s' : Traced} {fd : Nat} {k : OpKind} (h : s.Honest fd k)
    (hperforms : s'.world.Performs fd k → s.world.Performs fd k)
    (htimer : s.world.SameTimer s'.world (.op fd k.side))
    (hexpired : s'.expired (.op fd k.side) = s.expired (.op fd k.side)) : s'.Honest fd k := by
  constructor
  · intro hpending htimed
    rw [htimer.timed] at htimed
    rw [htimer.timeout, hexpired]
    exact h.armed (hperforms hpending) htimed
  · intro hpending htimed
    rw [htimer.timed] at htimed
    obtain ⟨hexpire, hstatus⟩ := h.unarmed (hperforms hpending) htimed
    exact ⟨hexpired.trans hexpire, fun ht => hstatus (htimer.disarmed ht)⟩

/-- The timer of the operation fires. -/
theorem Traced.Honest.fired {s s' : Traced} {fd : Nat} {k : OpKind} (h : s.Honest fd k)
    (hperforms : s'.world.Performs fd k → s.world.Performs fd k)
    (hstatus : (s.world.task (.op fd k.side)).status = .timer)
    (htimeout : (s'.world.task (.op fd k.side)).timeout = true)
    (htimed : s'.world.timed (.op fd k.side) = s.world.timed (.op fd k.side))
    (hexpired : s'.expired (.op fd k.side) = true) : s'.Honest fd k := by
  constructor
  · intro _ _
    rw [htimeout, hexpired]
  · intro hpending hlimit
    rw [htimed] at hlimit
    exact absurd hstatus (h.unarmed (hperforms hpending) hlimit).2

/-- No operation of the kind is pending. -/
theorem Traced.Honest.of_not {s : Traced} {fd : Nat} {k : OpKind}
    (h : ¬ s.world.Performs fd k) : s.Honest fd k :=
  ⟨fun hpending => absurd hpending h, fun hpending => absurd hpending h⟩

/-- What touches neither table leaves the same operations pending. -/
theorem World.SameTables.performs {w w' : World} (h : w.SameTables w') {fd : Nat} {k : OpKind} :
    w'.Performs fd k ↔ w.Performs fd k := by
  unfold World.Performs
  rw [h.live, h.conns]

/-- An event that renews and fires nothing of the task leaves its timer as it is. -/
theorem Traced.Honest.quiet {s : Traced} {w' : World} {ev : WorldEvent} {fd : Nat} {k : OpKind}
    (h : s.Honest fd k) (hrenews : s.world.renews ev (.op fd k.side) = false)
    (hfires : s.world.fires ev (.op fd k.side) = false)
    (hperforms : w'.Performs fd k → s.world.Performs fd k)
    (htimer : s.world.SameTimer w' (.op fd k.side)) : (s.after ev w').Honest fd k := by
  refine h.same hperforms htimer ?_
  change (!s.world.renews ev (.op fd k.side) &&
    (s.expired (.op fd k.side) || s.world.fires ev (.op fd k.side))) = s.expired (.op fd k.side)
  rw [hrenews, hfires, Bool.not_false, Bool.true_and, Bool.or_false]

/-- Only a call of the connection's user begins an operation. -/
theorem World.renews_false {w : World} {ev : WorldEvent}
    (h : ∀ fd cev ctl, ev ≠ .userCall fd cev ctl) (t : TaskId) : w.renews ev t = false := by
  have hbegins : ∀ fd k, w.begins ev fd k = false := by
    intro fd k
    unfold World.begins
    split
    · rename_i fd' cev ctl
      exact absurd rfl (h fd' cev ctl)
    · rfl
  unfold World.renews
  split
  · rw [hbegins, hbegins]
    rfl
  · exact hbegins _ _
  · rfl

/-- Only the loops fire timers. -/
theorem World.fires_false (w : World) {ev : WorldEvent} (h : ev ≠ .loop) (t : TaskId) :
    w.fires ev t = false := by
  unfold World.fires
  split
  · exact absurd rfl h
  · rfl

/-- A call begins an operation of the kind that it starts. -/
theorem World.begins_iff {w : World} {fd : Nat} {cev : ConnEvent} (ctl : EpollCtl)
    {c : ConnState} {out : Outcome} (hstep : connStep (w.conns fd) cev = some (c, out))
    (fd' : Nat) (k : OpKind) :
    w.begins (.userCall fd cev ctl) fd' k = true ↔
      fd = fd' ∧ cev.starts = some k ∧ out = .pending := by
  unfold World.begins
  by_cases hfd : fd = fd'
  · subst hfd
    simp [hstep]
  · simp [hfd]

/-- A call renews the timer of the side of the operation that it begins. -/
theorem World.renews_iff {w : World} {fd : Nat} {cev : ConnEvent} (ctl : EpollCtl)
    {c : ConnState} {out : Outcome} (hstep : connStep (w.conns fd) cev = some (c, out))
    (fd' : Nat) (side : Side) :
    w.renews (.userCall fd cev ctl) (.op fd' side) = true ↔
      fd = fd' ∧ out = .pending ∧ ∃ k, cev.starts = some k ∧ k.side = side := by
  have hbegins := World.begins_iff ctl hstep fd'
  constructor
  · intro h
    cases side with
    | read =>
        rcases Bool.or_eq_true_iff.mp h with h | h
        · obtain ⟨hfd, hstarts, hout⟩ := (hbegins .read).mp h
          exact ⟨hfd, hout, .read, hstarts, rfl⟩
        · obtain ⟨hfd, hstarts, hout⟩ := (hbegins .connect).mp h
          exact ⟨hfd, hout, .connect, hstarts, rfl⟩
    | write =>
        obtain ⟨hfd, hstarts, hout⟩ := (hbegins .flush).mp h
        exact ⟨hfd, hout, .flush, hstarts, rfl⟩
  · rintro ⟨hfd, hout, k, hstarts, rfl⟩
    have h := (hbegins k).mpr ⟨hfd, hstarts, hout⟩
    cases k with
    | read => exact Bool.or_eq_true_iff.mpr (Or.inl h)
    | connect => exact Bool.or_eq_true_iff.mpr (Or.inr h)
    | flush => exact h

/-- An operation begins on a side without one: with a time limit its task is armed and
its bit cleared, and without one it stays out of the timer tree. -/
theorem Traced.Honest.begun {s : Traced} {w' : World} {ev : WorldEvent} {fd : Nat}
    {k : OpKind} (hrenews : s.world.renews ev (.op fd k.side) = true)
    (hfree : (s.world.task (.op fd k.side)).status = .free)
    {x : Handler} {now ms : Nat}
    (htask : w'.task (.op fd k.side) = (s.world.task (.op fd k.side)).started x now ms)
    (htimed : w'.timed (.op fd k.side) = decide (ms ≠ 0)) : (s.after ev w').Honest fd k := by
  have hexpired : (s.after ev w').expired (.op fd k.side) = false := by
    change (!s.world.renews ev (.op fd k.side) && _) = false
    rw [hrenews]
    rfl
  constructor
  · intro _ hlimit
    have hms : ms ≠ 0 := of_decide_eq_true (htimed.symm.trans hlimit)
    change (w'.task (.op fd k.side)).timeout = _
    rw [hexpired, htask, Task.started, if_pos hms, Task.armed, if_neg (by simp [hfree])]
  · intro _ hlimit
    have hms : ¬ ms ≠ 0 := of_decide_eq_false (htimed.symm.trans hlimit)
    refine ⟨hexpired, ?_⟩
    change (w'.task (.op fd k.side)).status ≠ .timer
    rw [htask, Task.started, if_neg hms, hfree]
    decide

/-- A side whose task waits for no operation is idle. -/
theorem World.Wired.free {w : World} (hw : w.Wired) {fd : Nat} {side : Side}
    (h : ∀ k : OpKind, k.side = side → ¬ (w.conns fd).Performs k) :
    (w.task (.op fd side)).status = .free := by
  refine (hw.slots fd).idle side ?_
  intro hbusy
  obtain ⟨x, hawaits⟩ := Option.ne_none_iff_exists'.mp hbusy
  rw [Slot.awaits_live hbusy.live] at hawaits
  obtain ⟨k, hside, _, hpending⟩ := Phase.awaits_handler hawaits
  refine h k hside ?_
  rw [ConnState.performs_phase]
  cases k with
  | read => exact hpending
  | connect => exact ⟨((hw.slots fd).coherent hbusy.live hpending).1, hpending⟩
  | flush => exact hpending

/-- The pending operations after the state of a connection has been set. -/
theorem World.performs_setConn {w : World} {fd fd' : Nat} {c : ConnState} {k : OpKind}
    (h : (w.setConn fd' c).Performs fd k) :
    w.Performs fd k ∨ (fd' = fd ∧ w.live fd = true ∧ c.Performs k) := by
  obtain ⟨hlive, hperforms⟩ := h
  by_cases hfd : fd = fd'
  · subst hfd
    rw [w.setConn_self] at hperforms
    exact Or.inr ⟨rfl, hlive, hperforms⟩
  · rw [w.setConn_of_ne c hfd] at hperforms
    exact Or.inl ⟨hlive, hperforms⟩

/-- A call of a connection's user. -/
theorem Traced.Honest.userCall {s : Traced} {w' : World} {fd fd' : Nat} {k : OpKind}
    {cev : ConnEvent} {ctl : EpollCtl} (h : s.Honest fd k) (hw : s.world.Wired)
    (hlive : s.world.live fd' = true) (hcall : s.world.userCall fd' cev ctl = some w') :
    (s.after (.userCall fd' cev ctl) w').Honest fd k := by
  have hcoherent : (s.world.conns fd').phase.Coherent := (hw.slots fd').coherent hlive
  obtain ⟨c, out, hstep, hhandles, hafter⟩ := World.userCall_cases hcall
  have hrenews := World.renews_iff ctl hstep fd k.side
  by_cases hrenewed : s.world.renews (.userCall fd' cev ctl) (.op fd k.side) = true
  · obtain ⟨rfl, rfl, k', hstarts, hside⟩ := hrenews.mp hrenewed
    obtain ⟨hidle, _⟩ := connStep_starts hcoherent hstarts hstep
    rw [hstarts] at hafter
    dsimp only at hafter
    obtain ⟨hself, _⟩ := (s.world.setConn fd' c).slot_beginOp k'.side (k'.handler fd') k'.mask
      (k'.expireTime c.conn) ctl (hw.bound fd' hlive)
    rw [← hafter, hside] at hself
    have hop := congrFun (congrArg Slot.op hself) k.side
    have htimed := congrFun (congrArg Slot.timed hself) k.side
    have hfree : (s.world.task (.op fd' k.side)).status = .free :=
      hw.free (fun x hx => hidle x (hx.trans hside.symm))
    exact Traced.Honest.begun hrenewed hfree (hop.trans (Function.update_self _ _ _))
      (htimed.trans (Function.update_self _ _ _))
  · have hclear := Bool.eq_false_iff.mpr hrenewed
    have hset : s.world.SameTimer (s.world.setConn fd' c) (.op fd k.side) := .of_machine rfl rfl
    have hbefore : (s.world.setConn fd' c).Performs fd k → s.world.Performs fd k := by
      intro hperforms
      rcases World.performs_setConn hperforms with hsame | ⟨rfl, _, hnew⟩
      · exact hsame
      · rcases connStep_performs hcoherent hstep hnew with hold | ⟨hstarts, hpending⟩
        · exact ⟨hlive, hold⟩
        · exact absurd (hrenews.mpr ⟨rfl, hpending, k, hstarts, rfl⟩) hrenewed
    have hfires : s.world.fires (.userCall fd' cev ctl) (.op fd k.side) = false :=
      s.world.fires_false (by nofun) _
    split at hafter
    · rw [hafter]
      have hsame := World.schedule_same (s.world.setConn fd' c)
      exact h.quiet hclear hfires (fun hp => hbefore ((hsame _).performs.mp hp))
        (hset.trans (World.schedule_timer _ _ _))
    · rename_i k' hstarts
      rw [hafter]
      have hsame := World.beginOp_tables (s.world.setConn fd' c) fd' (.op fd' k'.side)
        (k'.handler fd') k'.mask (k'.expireTime c.conn) ctl
      have htables : ∀ {fd k}, ((s.world.setConn fd' c).epollEnable fd' k'.mask (.op fd' k'.side)
          ctl).Performs fd k ↔ (s.world.setConn fd' c).Performs fd k := by
        intro fd k
        rw [World.epollEnable_eq]
        rfl
      refine h.quiet hclear hfires (fun hp => hbefore (htables.mp (hsame.performs.mp hp)))
        (hset.trans (World.beginOp_timer _ _ _ _ _ _ ?_))
      intro heq
      obtain ⟨rfl, hside⟩ := TaskId.op.inj heq
      exact hrenewed (hrenews.mpr ⟨rfl, rfl, k', hstarts, hside.symm⟩)
    · rw [hafter]
      exact h.quiet hclear hfires hbefore hset

/-- An execution of a handler. -/
theorem Traced.Honest.handle {s : Traced} {w' : World} {fd : Nat} {k : OpKind}
    {ans : World.Answer} {ctl : EpollCtl} (h : s.Honest fd k) (hw : s.world.Wired)
    (hhandle : s.world.handle ans ctl = some w') :
    (s.after (.handle ans ctl) w').Honest fd k := by
  obtain ⟨fd', k', cev, c, out, _, hlive, _, hhandles, hstep, _, rfl⟩ :=
    hw.handle_cases hhandle
  have hcoherent : (s.world.conns fd').phase.Coherent := (hw.slots fd').coherent hlive
  have hset : s.world.SameTimer (s.world.leave.setConn fd' c) (.op fd k.side) :=
    .of_machine rfl rfl
  have hbefore : (s.world.leave.setConn fd' c).Performs fd k → s.world.Performs fd k := by
    intro hperforms
    rcases World.performs_setConn hperforms with hsame | ⟨rfl, _, hnew⟩
    · exact hsame
    · rcases connStep_performs hcoherent hstep hnew with hold | ⟨hstarts, _⟩
      · exact ⟨hlive, hold⟩
      · cases hstarts.symm.trans (ConnEvent.starts_of_handles hhandles)
  refine h.quiet (World.renews_false (by nofun) _) (s.world.fires_false (by nofun) _) ?_ ?_
  · intro hperforms
    split at hperforms
    · have hsame := (World.endOp_tables _ _ _ _ _ _ _).performs.mp hperforms
      rw [World.epollDisable_eq] at hsame
      exact hbefore hsame
    · exact hbefore hperforms
  · split
    · exact hset.trans (World.endOp_timer _ _ _ _ _ _ _ _)
    · exact hset

/-- `spe_conn_create`: nothing is pending on the new connection. -/
theorem Traced.Honest.create {s : Traced} {fd fd' : Nat} {k : OpKind} (h : s.Honest fd k) :
    (s.after (.create fd') (s.world.create fd')).Honest fd k := by
  have hinit : s.world.SameTables
      (if (s.world.conns fd').conn.fd = 0 then s.world.initTasks fd' else s.world) := by
    split
    · exact s.world.initTasks_same fd'
    · exact .refl s.world
  have hconns : (s.world.create fd').conns =
      Function.update s.world.conns fd' (.created (s.world.conns fd').conn fd') :=
    congrArg (fun conns : Nat → ConnState =>
      Function.update conns fd' (.created (s.world.conns fd').conn fd')) hinit.conns
  by_cases hfd : fd = fd'
  · subst hfd
    apply Traced.Honest.of_not
    intro hperforms
    have hperforms : ((s.world.create fd).conns fd).Performs k := hperforms.2
    rw [hconns, Function.update_self] at hperforms
    cases k <;> exact hperforms.1 rfl
  · have hlives : (s.world.create fd').live = Function.update s.world.live fd' true :=
      congrArg (fun live : Nat → Bool => Function.update live fd' true) hinit.live
    have htask : ∀ side, (s.world.create fd').task (.op fd side) =
        s.world.task (.op fd side) := by
      intro side
      change (ite ((s.world.conns fd').conn.fd = 0) (s.world.initTasks fd') s.world).task _ = _
      split
      · simp [World.initTasks, World.init_task, hfd]
      · rfl
    have htimed : (s.world.create fd').timed = s.world.timed := by
      change (ite ((s.world.conns fd').conn.fd = 0) (s.world.initTasks fd') s.world).timed = _
      split <;> rfl
    refine h.quiet (World.renews_false (by nofun) _) (s.world.fires_false (by nofun) _) ?_ ⟨?_, ?_, ?_⟩
    · intro hperforms
      unfold World.Performs at hperforms ⊢
      rw [hconns, hlives, Function.update_of_ne hfd, Function.update_of_ne hfd] at hperforms
      exact hperforms
    · rw [htimed]
    · rw [htask]
    · rw [htask]
      exact id

/-- `spe_conn_destroy`. -/
theorem Traced.Honest.destroy {s : Traced} {fd fd' : Nat} {k : OpKind} {ctl : EpollCtl}
    (h : s.Honest fd k) : (s.after (.destroy fd' ctl) (s.world.destroy fd' ctl)).Honest fd k := by
  let w₁ := s.world.dequeueTasks fd'
  let w₂ := w₁.epollDisable fd' (SPE_EPOLL_READ ||| SPE_EPOLL_WRITE) ctl
  have hcalls : ∀ (w : World) (t t' : TaskId), w.SameTimer (w.call (.dequeue t)) t' :=
    fun w t t' => w.call_timer (by intros; exact nofun)
  have hdequeue : s.world.SameTimer w₁ (.op fd k.side) :=
    (((hcalls _ _ _).trans (hcalls _ _ _)).trans (hcalls _ _ _)).trans (hcalls _ _ _)
  have hdisable : w₁.SameTimer w₂ (.op fd k.side) := by
    rw [show w₂ = _ from w₁.epollDisable_eq fd' _ ctl]
    exact .of_machine rfl rfl
  refine h.quiet (World.renews_false (by nofun) _) (s.world.fires_false (by nofun) _) ?_
    ((hdequeue.trans hdisable).trans (.of_machine rfl rfl))
  intro hperforms
  obtain ⟨hlive, hpending⟩ := hperforms
  have hconns : w₂.conns = s.world.conns := by
    rw [show w₂ = _ from w₁.epollDisable_eq fd' _ ctl]
    rfl
  have hlives : w₂.live = s.world.live := by
    rw [show w₂ = _ from w₁.epollDisable_eq fd' _ ctl]
    rfl
  have hlive : Function.update w₂.live fd' false fd = true := hlive
  have hpending : (w₂.conns fd).Performs k := hpending
  rw [hconns] at hpending
  rw [hlives] at hlive
  by_cases hfd : fd = fd'
  · rw [hfd, Function.update_self] at hlive
    cases hlive
  · rw [Function.update_of_ne hfd] at hlive
    exact ⟨hlive, hpending⟩

/-- A round of a loop. -/
theorem Traced.Honest.loop {s : Traced} {w' : World} {fd : Nat} {k : OpKind}
    (h : s.Honest fd k) (hw : s.world.Wired) (hloop : s.world.loop = some w') :
    (s.after .loop w').Honest fd k := by
  have hperforms : w'.Performs fd k → s.world.Performs fd k :=
    (World.loop_same hloop).performs.mp
  have hrenews : s.world.renews .loop (.op fd k.side) = false := World.renews_false (by nofun) _
  rcases World.loop_timer hw.placed hloop (.op fd k.side) with
    ⟨hfires, htimer⟩ | ⟨hfires, hstatus, htimeout, htimed⟩
  · exact h.quiet hrenews hfires hperforms htimer
  · refine h.fired hperforms hstatus htimeout htimed ?_
    change (!s.world.renews .loop (.op fd k.side) &&
      (s.expired (.op fd k.side) || s.world.fires .loop (.op fd k.side))) = true
    rw [hrenews, hfires, Bool.or_true]
    rfl

/-- What touches neither the tables nor the timer of the operation. -/
theorem Traced.Honest.apart {s : Traced} {w' : World} {ev : WorldEvent} {fd : Nat} {k : OpKind}
    (h : s.Honest fd k) (hev : ∀ fd cev ctl, ev ≠ .userCall fd cev ctl) (hloop : ev ≠ .loop)
    (htables : s.world.SameTables w') (htimer : s.world.SameTimer w' (.op fd k.side)) :
    (s.after ev w').Honest fd k :=
  h.quiet (World.renews_false hev _) (s.world.fires_false hloop _) htables.performs.mp htimer

/-- **Step lemma.**  The timeout bits stay honest. -/
theorem Traced.Honest.step {s s' : Traced} {ev : WorldEvent} {fd : Nat} {k : OpKind}
    (h : s.Honest fd k) (hw : s.world.Wired) (hstep : s.step ev = some s') :
    s'.Honest fd k := by
  obtain ⟨w', hworld, rfl⟩ := Option.map_eq_some_iff.mp hstep
  have hgoes := (Option.ite_none_left_eq_some.mp hworld).2
  cases ev with
  | call c =>
      obtain ⟨⟨_, hmay⟩, hcall⟩ := Option.ite_none_right_eq_some.mp hgoes
      have htimer : s.world.SameTimer (s.world.call c) (.op fd k.side) := by
        apply World.call_timer
        rintro ms rfl
        cases hmay
      cases c with
      | schedule t =>
          obtain rfl := Option.some.inj hcall
          exact h.apart (by nofun) (by nofun) (s.world.schedule_same t) (s.world.schedule_timer t _)
      | _ =>
          obtain rfl := Option.some.inj hcall
          exact h.apart (by nofun) (by nofun) (s.world.call_same _) htimer
  | init n =>
      obtain ⟨_, ⟨⟩⟩ := Option.ite_none_right_eq_some.mp hgoes
      have htask : (s.world.init (.user n)).task (.op fd k.side) =
          s.world.task (.op fd k.side) := by
        rw [World.init_task, if_neg nofun]
      refine h.apart (by nofun) (by nofun) ⟨rfl, rfl, rfl⟩ ⟨rfl, ?_, ?_⟩
      · rw [htask]
      · rw [htask]
        exact id
  | epollEnable fd' mask n ctl =>
      obtain ⟨_, ⟨⟩⟩ := Option.ite_none_right_eq_some.mp hgoes
      refine h.quiet (World.renews_false (by nofun) _) (s.world.fires_false (by nofun) _) ?_ ?_
      · rw [World.epollEnable_eq]
        exact id
      · rw [World.epollEnable_eq]
        exact .of_machine rfl rfl
  | epollDisable fd' mask ctl =>
      obtain ⟨_, ⟨⟩⟩ := Option.ite_none_right_eq_some.mp hgoes
      refine h.quiet (World.renews_false (by nofun) _) (s.world.fires_false (by nofun) _) ?_ ?_
      · rw [World.epollDisable_eq]
        exact id
      · rw [World.epollDisable_eq]
        exact .of_machine rfl rfl
  | create fd' =>
      obtain ⟨_, ⟨⟩⟩ := Option.ite_none_right_eq_some.mp hgoes
      exact h.create
  | destroy fd' ctl =>
      obtain ⟨_, ⟨⟩⟩ := Option.ite_none_right_eq_some.mp hgoes
      exact h.destroy
  | userCall fd' cev ctl =>
      obtain ⟨⟨_, hlive⟩, hcall⟩ := Option.ite_none_right_eq_some.mp hgoes
      exact h.userCall hw hlive hcall
  | ready fd' side =>
      obtain ⟨_, ⟨⟩⟩ := Option.ite_none_right_eq_some.mp hgoes
      exact h.apart (by nofun) (by nofun) (s.world.ready_same fd' side) (s.world.ready_timer fd' side _)
  | process =>
      obtain ⟨_, ⟨⟩⟩ := Option.ite_none_right_eq_some.mp hgoes
      exact h.apart (by nofun) (by nofun) ⟨rfl, rfl, rfl⟩
        (.of_sched _ s.world.machine.process_keeps.1)
  | loop =>
      obtain ⟨_, hloop⟩ := Option.ite_none_right_eq_some.mp hgoes
      exact h.loop hw hloop
  | ret =>
      obtain ⟨_, hret⟩ := Option.ite_none_right_eq_some.mp hgoes
      obtain ⟨m, hm, rfl⟩ := Option.map_eq_some_iff.mp hret
      exact h.apart (by nofun) (by nofun) ⟨rfl, rfl, rfl⟩
        (.of_sched _ (Machine.ret_keeps hm).1.symm)
  | handle ans ctl => exact h.handle hw hgoes
  | tick now =>
      obtain ⟨_, ⟨⟩⟩ := Option.ite_none_right_eq_some.mp hgoes
      exact h.apart (by nofun) (by nofun) ⟨rfl, rfl, rfl⟩ ⟨rfl, rfl, id⟩

/-- A process with its expired timers makes the runs of the process. -/
theorem Traced.world_run {maxfd : Nat} {s : Traced} {es : List WorldEvent}
    (h : Run Traced.step anyStep (Traced.start maxfd) es s) :
    ∃ fs, Run World.step anyStep (World.start maxfd) fs s.world := by
  have hsim : ∀ (s : Traced) ev s', anyStep s ev → s.step ev = some s' →
      ∃ fs, Run World.step anyStep s.world fs s'.world := by
    intro s ev s' _ hstep
    obtain ⟨w', hworld, rfl⟩ := Option.map_eq_some_iff.mp hstep
    exact ⟨[ev], Run.single hworld trivial⟩
  exact h.simulate hsim

/-- **Run lemma.**  In every state of a run the timeout bits of pending operations are
honest. -/
theorem Traced.honest_of_run {maxfd : Nat} {s : Traced} {es : List WorldEvent}
    (h : Run Traced.step anyStep (Traced.start maxfd) es s) :
    s.world.Wired ∧ ∀ fd k, s.Honest fd k := by
  refine h.invariant (fun s => s.world.Wired ∧ ∀ fd k, s.Honest fd k)
    ⟨World.wired_start maxfd, ?_⟩ ?_
  · intro fd k
    apply Traced.Honest.of_not
    intro hperforms
    cases hperforms.1
  · intro s ev s' hboth _ hstep
    obtain ⟨hw, hhonest⟩ := hboth
    obtain ⟨w', hworld, rfl⟩ := Option.map_eq_some_iff.mp hstep
    exact ⟨(hw.step hworld).wired hw, fun fd k => (hhonest fd k).step hw hstep⟩

/-- Two operations that wait with one task are of one kind. -/
theorem ConnState.performs_unique {s : ConnState} {k k' : OpKind} (h : s.Performs k)
    (h' : s.Performs k') (hside : k.side = k'.side) : k = k' := by
  cases k with
  | read =>
      cases k' with
      | read => rfl
      | connect => exact absurd (h.2.symm.trans h'.2) nofun
      | flush => cases hside
  | connect =>
      cases k' with
      | read => exact absurd (h.2.symm.trans h'.2) nofun
      | connect => rfl
      | flush => cases hside
  | flush =>
      cases k' with
      | read => cases hside
      | connect => cases hside
      | flush => rfl

/-- A call that completes its operation at once leaves the flag as it is. -/
theorem World.userCall_flag {w w' : World} {fd : Nat} {cev : ConnEvent} {ctl : EpollCtl}
    {c : ConnState} {k : OpKind} (hcoherent : (w.conns fd).phase.Coherent)
    (hstarts : cev.starts = some k) (hstep : connStep (w.conns fd) cev = some (c, .done))
    (hcall : w.userCall fd cev ctl = some w') :
    k.flag (w'.conns fd).conn = k.flag (w.conns fd).conn := by
  obtain ⟨c', out, hstep', _, hafter⟩ := World.userCall_cases hcall
  obtain ⟨rfl, rfl⟩ := Prod.mk.inj (Option.some.inj (hstep.symm.trans hstep'))
  rw [hstarts] at hafter
  obtain ⟨_, _, _, hflags⟩ := connStep_starts hcoherent hstarts hstep
  have hconns : w'.conns fd = c := by
    rw [hafter, (World.schedule_same _ _).conns]
    exact Function.update_self _ _ _
  rw [hconns, hflags k, if_neg nofun]

/-- A handler that ends its operation sets the flag if there is a time limit and the
timeout bit of the task is set. -/
theorem World.Wired.handle_flag {w w' : World} (hw : w.Wired) {fd : Nat} {k : OpKind}
    {ans : World.Answer} {ctl : EpollCtl} (hclear : (w.conns fd).Clear)
    (hentered : w.entered = some (.op fd k.side)) (hperforms : w.Performs fd k)
    (hends : ¬ w'.Performs fd k) (hhandle : w.handle ans ctl = some w') :
    k.flag (w'.conns fd).conn = true ↔
      k.expireTime (w.conns fd).conn ≠ 0 ∧ (w.task (.op fd k.side)).timeout = true := by
  obtain ⟨fd', k', cev, c, out, hentered', hlive, hperforms', hhandles, hstep, _, rfl⟩ :=
    hw.handle_cases hhandle
  obtain ⟨rfl, hside⟩ := TaskId.op.inj (Option.some.inj (hentered.symm.trans hentered'))
  obtain rfl := ConnState.performs_unique hperforms.2 hperforms' hside
  have hcoherent : (w.conns fd).phase.Coherent := (hw.slots fd).coherent hlive
  obtain ⟨_, hphase, _, hflags⟩ := connStep_handles hcoherent hhandles hstep
  have hout : out = .done := by
    by_contra hout
    rw [if_neg hout] at hphase hends
    refine hends ⟨hlive, ?_⟩
    rw [World.setConn_self]
    exact (ConnState.performs_congr hphase k).mpr hperforms.2
  rw [if_pos hout, (World.endOp_tables _ _ _ _ _ _ _).conns, World.epollDisable_eq]
  change k.flag ((w.leave.setConn fd c).conns fd).conn = true ↔ _
  rw [World.setConn_self, hflags k, hclear k hperforms.2]
  simp

/-- **When the timeout flags tell the truth.**  At every completion of every run, the
flag of the operation says whether its timer has expired exactly if a call found the
flag clear, or a handler that found the timeout bit found a time limit if and only if
the operation began with one. -/
theorem flag_iff_expired {maxfd : Nat} {s s' : Traced} {es : List WorldEvent}
    {ev : WorldEvent} {fd : Nat} {k : OpKind}
    (h : Run Traced.step anyStep (Traced.start maxfd) es s) (hstep : s.step ev = some s')
    (hdone : s.world.Completed ev s'.world fd k) :
    (k.flag (s'.world.conns fd).conn = true ↔ s.Expired ev fd k) ↔
      s.world.Truthful ev fd k := by
  obtain ⟨hw, hhonest⟩ := Traced.honest_of_run h
  obtain ⟨w', hworld, rfl⟩ := Option.map_eq_some_iff.mp hstep
  have hgoes := (Option.ite_none_left_eq_some.mp hworld).2
  cases ev with
  | userCall fd' cev ctl =>
      obtain ⟨rfl, hstarts, c, hcstep⟩ := hdone
      obtain ⟨⟨_, hlive⟩, hcall⟩ := Option.ite_none_right_eq_some.mp hgoes
      have hflag : k.flag (w'.conns fd').conn = k.flag (s.world.conns fd').conn :=
        World.userCall_flag ((hw.slots fd').coherent hlive) hstarts hcstep hcall
      change (k.flag (w'.conns fd').conn = true ↔ False) ↔
        k.flag (s.world.conns fd').conn = false
      rw [hflag]
      simp
  | handle ans ctl =>
      obtain ⟨hentered, hperforms, hends⟩ := hdone
      obtain ⟨fs, hfs⟩ := Traced.world_run h
      obtain ⟨c₀, cs, hrun⟩ := World.conn_run hfs hperforms.1
      have hflag : k.flag (w'.conns fd).conn = true ↔
          k.expireTime (s.world.conns fd).conn ≠ 0 ∧
            (s.world.task (.op fd k.side)).timeout = true :=
        hw.handle_flag (ConnState.clear_of_run hrun) hentered hperforms hends hgoes
      have hhonest := hhonest fd k
      change (k.flag (w'.conns fd).conn = true ↔ s.expired (.op fd k.side) = true) ↔
        ((s.world.task (.op fd k.side)).timeout = true →
          (s.world.timed (.op fd k.side) = true ↔
            k.expireTime (s.world.conns fd).conn ≠ 0))
      rw [hflag]
      cases htimed : s.world.timed (.op fd k.side) with
      | true =>
          rw [← hhonest.armed hperforms htimed]
          tauto
      | false =>
          rw [(hhonest.unarmed hperforms htimed).1]
          simp only [Bool.false_eq_true, iff_false, not_and, false_iff]
          tauto
  | _ => exact hdone.elim

/-- A read with a limit of a second is pending when its timer expires, and its handler
is called. -/
def expiryEvents : List WorldEvent :=
  [.create 5, .userCall 5 (.setTimeout 1000 0) ctlGood,
    .userCall 5 (.issue (.readbytes 1) zeroAllocs (.err .eagain)) ctlGood, .tick 1000, .process,
    .loop, .loop, .loop]

/-- The handler executes. -/
def expiredEvent : WorldEvent := .handle (.read zeroAllocs []) ctlGood

/-- The handler of a read that has timed out sets the flag. -/
theorem flag_iff_expired_handler : ∃ s s',
    Run Traced.step anyStep (Traced.start 8) expiryEvents s ∧ s.step expiredEvent = some s' ∧
    s.world.Completed expiredEvent s'.world 5 .read ∧ s.world.Truthful expiredEvent 5 .read ∧
    ((OpKind.read.flag (s'.world.conns 5).conn = true ↔ s.Expired expiredEvent 5 .read) ↔
      s.world.Truthful expiredEvent 5 .read) := by
  have hlast : (exec Traced.step (Traced.start 8) expiryEvents).map (fun s =>
      (decide (s.world.entered = some (.readTask 5) ∧ s.world.live 5 = true ∧
          (s.world.conns 5).conn.readType ≠ .readNone ∧
          (s.world.conns 5).hist.connecting = false ∧ s.world.timed (.readTask 5) = true ∧
          (s.world.conns 5).conn.readExpireTime = 1000),
        (s.step expiredEvent).map (fun s' => (s'.world.conns 5).conn.readType))) =
      some (true, some .readNone) := by
    decide +kernel
  obtain ⟨s, hexec, hboth⟩ := Option.map_eq_some_iff.mp hlast
  obtain ⟨hfields, hnext⟩ := Prod.mk.inj hboth
  obtain ⟨hentered, hlive, htype, hconnecting, htimed, hlimit⟩ := of_decide_eq_true hfields
  obtain ⟨s', hstep, hidle⟩ := Option.map_eq_some_iff.mp hnext
  have hperforms : s.world.Performs 5 .read := ⟨hlive, htype, hconnecting⟩
  have hdone : s.world.Completed expiredEvent s'.world 5 .read :=
    ⟨hentered, hperforms, fun hpending => hpending.2.1 hidle⟩
  have htruthful : s.world.Truthful expiredEvent 5 .read := by
    intro _
    have hexpire : OpKind.read.expireTime (s.world.conns 5).conn = 1000 := hlimit
    have hside : s.world.timed (.op 5 OpKind.read.side) = true := htimed
    rw [hexpire, hside]
    simp
  have hrun := run_iff_exec.mpr hexec
  exact ⟨s, s', hrun, hstep, hdone, htruthful, flag_iff_expired hrun hstep hdone⟩

/-- The read has timed out, and its post task is called. -/
def staleEvents : List WorldEvent := expiryEvents ++ [expiredEvent, .ret, .loop]

/-- A read that is completed at once. -/
def syncEvent : WorldEvent :=
  .userCall 5 (.issue (.readbytes 1) zeroAllocs (.data [97])) ctlGood

/-- **A stale flag.**  After a read that has timed out, the next one finds its byte
and is completed at once, with `read_timeout` set. -/
theorem flag_iff_expired_fails : ∃ s s',
    Run Traced.step anyStep (Traced.start 8) staleEvents s ∧ s.step syncEvent = some s' ∧
    s.world.Completed syncEvent s'.world 5 .read ∧
    OpKind.read.flag (s'.world.conns 5).conn = true ∧ ¬ s.Expired syncEvent 5 .read := by
  have hlast : (exec Traced.step (Traced.start 8) staleEvents).map (fun s =>
      ((connStep (s.world.conns 5) (.issue (.readbytes 1) zeroAllocs (.data [97]))).map Prod.snd,
        (s.step syncEvent).map (fun s' => (s'.world.conns 5).conn.readTimeout))) =
      some (some .done, some true) := by
    decide +kernel
  obtain ⟨s, hexec, hfields⟩ := Option.map_eq_some_iff.mp hlast
  obtain ⟨hout, hnext⟩ := Prod.mk.inj hfields
  obtain ⟨⟨c, out⟩, hcstep, rfl⟩ := Option.map_eq_some_iff.mp hout
  obtain ⟨s', hstep, hflag⟩ := Option.map_eq_some_iff.mp hnext
  exact ⟨s, s', run_iff_exec.mpr hexec, hstep, ⟨rfl, rfl, c, hcstep⟩, hflag, id⟩

end Spe
