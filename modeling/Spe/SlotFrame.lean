import Spe.Slot

/-!
# What the calls of the process do to each connection

A call into the scheduler or into the epoll table concerns one task or one entry,
which belongs to one slot or to none.  The functions of `spe_conn.c` are sequences
of such calls (`World.Acts`).

User code cannot make a private task fast, nor give a post task or one of its own
a handler of `spe_conn.c` (`World.Calls`), so that no call makes such a handler
execute at once.
-/

namespace Spe

open Transition

/-- What holds of every task that may be scheduled: a private task is not fast, and
another one has no handler of `spe_conn.c`. -/
def TaskOk (t : TaskId) (k : Task Handler) : Prop :=
  match t with
  | .op _ _ => k.fast = false
  | _ => ∀ h, k.handler = some h → h.internal = false

/-- It holds of all tasks. -/
def World.Calls (w : World) : Prop := ∀ t, TaskOk t (w.task t)

/-- A call changes its task only. -/
theorem World.call_task (w : World) (c : Call TaskId Handler) (t : TaskId) :
    (w.call c).task t =
      if t = c.task then c.effect w.machine.now (w.task t) else w.task t := by
  have htasks := congrFun (w.machine.call_tasks c) t
  by_cases ht : t = c.task
  · rw [if_pos ht]
    apply htasks.trans
    rw [ht, Function.update_self]
    rfl
  · rw [if_neg ht]
    exact htasks.trans (Function.update_of_ne ht _ _)

/-- A task of user code belongs to no slot. -/
theorem World.slot_user (w : World) {m : Machine TaskId Handler} {n : Nat} {k : Task Handler}
    (hm : m.sched.tasks = Function.update w.machine.sched.tasks (.user n) k) (fd : Nat) :
    ({ w with machine := m } : World).slot fd = w.slot fd := by
  have htask : ∀ t, t ≠ .user n → m.sched.tasks t = w.task t := by
    intro t ht
    rw [hm, Function.update_of_ne ht]
    rfl
  have hop : ∀ side, m.sched.tasks (.op fd side) = w.task (.op fd side) :=
    fun side => htask _ nofun
  have hpost : ∀ side, m.sched.tasks (.post fd side) = w.task (.post fd side) :=
    fun side => htask _ nofun
  unfold World.slot World.task at *
  simp only [hop, hpost]

/-- A post task belongs to one slot. -/
theorem World.slot_post (w : World) {m : Machine TaskId Handler} {fd : Nat} {side : Side}
    {k : Task Handler}
    (hm : m.sched.tasks = Function.update w.machine.sched.tasks (.post fd side) k) :
    ({ w with machine := m } : World).slot fd =
      { w.slot fd with post := fun sd => m.sched.tasks (.post fd sd) } ∧
    ∀ fd', fd' ≠ fd → ({ w with machine := m } : World).slot fd' = w.slot fd' := by
  have htask : ∀ t, t ≠ .post fd side → m.sched.tasks t = w.task t := by
    intro t ht
    rw [hm, Function.update_of_ne ht]
    rfl
  have hop : ∀ fd' sd, m.sched.tasks (.op fd' sd) = w.task (.op fd' sd) :=
    fun fd' sd => htask _ nofun
  constructor
  · unfold World.slot World.task at *
    simp only [hop]
  · intro fd' hfd
    have hpost : ∀ sd, m.sched.tasks (.post fd' sd) = w.task (.post fd' sd) :=
      fun sd => htask _ (fun heq => hfd (TaskId.post.inj heq).1)
    unfold World.slot World.task at *
    simp only [hop, hpost]

/-- A private task belongs to one slot. -/
theorem World.slot_op (w : World) {m : Machine TaskId Handler} {fd : Nat} {side : Side}
    {k : Task Handler}
    (hm : m.sched.tasks = Function.update w.machine.sched.tasks (.op fd side) k) :
    ({ w with machine := m } : World).slot fd =
      { w.slot fd with op := Function.update (w.slot fd).op side k } ∧
    ∀ fd', fd' ≠ fd → ({ w with machine := m } : World).slot fd' = w.slot fd' := by
  have htask : ∀ t, t ≠ .op fd side → m.sched.tasks t = w.task t := by
    intro t ht
    rw [hm, Function.update_of_ne ht]
    rfl
  have hpost : ∀ fd' sd, m.sched.tasks (.post fd' sd) = w.task (.post fd' sd) :=
    fun fd' sd => htask _ nofun
  constructor
  · have hop : (fun sd => m.sched.tasks (.op fd sd)) =
        Function.update (w.slot fd).op side k := by
      funext sd
      by_cases hsd : sd = side
      · subst hsd
        rw [hm, Function.update_self, Function.update_self]
      · rw [Function.update_of_ne hsd]
        exact htask _ (fun heq => hsd (TaskId.op.inj heq).2)
    rw [← hop]
    unfold World.slot World.task at *
    simp only [hpost]
  · intro fd' hfd
    have hop : ∀ sd, m.sched.tasks (.op fd' sd) = w.task (.op fd' sd) :=
      fun sd => htask _ (fun heq => hfd (TaskId.op.inj heq).1)
    unfold World.slot World.task at *
    simp only [hop, hpost]

/-- A call about a private task changes that task of its slot. -/
theorem World.slot_call_op (w : World) {c : Call TaskId Handler} {fd : Nat} {side : Side}
    (hc : c.task = .op fd side) :
    (w.call c).slot fd =
      { w.slot fd with
        op := Function.update (w.slot fd).op side
          (c.effect w.machine.now ((w.slot fd).op side)) } ∧
    ∀ fd', fd' ≠ fd → (w.call c).slot fd' = w.slot fd' := by
  have htasks := w.machine.call_tasks c
  rw [hc] at htasks
  exact w.slot_op htasks

/-- A call about a post task changes that task of its slot. -/
theorem World.slot_call_post (w : World) {c : Call TaskId Handler} {fd : Nat} {side : Side}
    (hc : c.task = .post fd side) :
    (w.call c).slot fd = { w.slot fd with post := fun sd => (w.call c).task (.post fd sd) } ∧
    ∀ fd', fd' ≠ fd → (w.call c).slot fd' = w.slot fd' := by
  have htasks := w.machine.call_tasks c
  rw [hc] at htasks
  exact w.slot_post htasks

/-- A call about a task of user code touches no slot. -/
theorem World.slot_call_user (w : World) {c : Call TaskId Handler} {n : Nat}
    (hc : c.task = .user n) (fd : Nat) : (w.call c).slot fd = w.slot fd := by
  have htasks := w.machine.call_tasks c
  rw [hc] at htasks
  exact w.slot_user htasks fd

/-- It depends on the handler and on whether the task is fast. -/
theorem TaskOk.congr {t : TaskId} {k k' : Task Handler} (h : TaskOk t k)
    (hhandler : k'.handler = k.handler) (hfast : k'.fast = k.fast) : TaskOk t k' := by
  unfold TaskOk at *
  cases t with
  | op fd side => exact hfast.trans h
  | post fd side =>
      rw [hhandler]
      exact h
  | user n =>
      rw [hhandler]
      exact h

/-- A call that sets no handler keeps the handlers. -/
theorem World.Calls.call {w : World} (h : w.Calls) (c : Call TaskId Handler)
    (hc : ∀ t handler fast, c = .setHandler t handler fast →
      TaskOk t { w.task t with handler := handler, fast := fast }) : (w.call c).Calls := by
  intro t
  rw [w.call_task]
  by_cases ht : t = c.task
  · rw [if_pos ht]
    cases c with
    | setHandler t' handler fast =>
        obtain rfl : t = t' := ht
        exact hc t handler fast rfl
    | schedule t' =>
        obtain ⟨hhandler, hfast⟩ := (w.task t).scheduled_keeps
        exact (h t).congr hhandler hfast
    | scheduleTimeout t' ms =>
        obtain ⟨hhandler, hfast, _⟩ := (w.task t).armed_keeps w.machine.now ms
        exact (h t).congr hhandler hfast
    | dequeue t' => exact (h t).congr rfl rfl
  · rw [if_neg ht]
    exact h t

/-- Scheduling a task calls no handler of `spe_conn.c` at once. -/
theorem World.Calls.schedule_eq {w : World} (h : w.Calls) (t : TaskId) :
    w.schedule t = w.call (.schedule t) := by
  unfold World.schedule
  cases hfast : (taskSchedule w.machine.sched t).2 with
  | none => rfl
  | some t' =>
      have hsame : t' = t ∧ (w.task t).fast = true := by
        unfold taskSchedule at hfast
        by_cases hqueue : (w.machine.sched.tasks t).status = .queue
        · simp [hqueue] at hfast
        · by_cases hf : (w.machine.sched.tasks t).fast = true
          · simp [hqueue, hf] at hfast
            exact ⟨hfast.symm, hf⟩
          · simp [hqueue, hf] at hfast
      obtain ⟨rfl, hf⟩ := hsame
      have hok := h.call (.schedule t') (by intros; contradiction) t'
      dsimp only
      unfold World.called
      cases hhandler : ((w.call (.schedule t')).task t').handler with
      | none => rfl
      | some x =>
          have hinternal : x.internal = false := by
            cases t' with
            | op fd side =>
                have hslow : (w.task (.op fd side)).fast = false := h (.op fd side)
                cases hf.symm.trans hslow
            | post fd side => exact hok x hhandler
            | user n => exact hok x hhandler
          dsimp only
          rw [if_neg (by simp [hinternal])]

/-- An entry of the epoll table belongs to one slot. -/
theorem World.slot_setEpoll (w : World) (fd : Nat) (e : Epoll TaskId) :
    (w.setEpoll fd e).slot fd = { w.slot fd with epoll := e } ∧
    ∀ fd', fd' ≠ fd → (w.setEpoll fd e).slot fd' = w.slot fd' := by
  have hself : (w.setEpoll fd e).epolls fd = e := by simp [World.setEpoll]
  constructor
  · unfold World.slot
    rw [hself]
    rfl
  · intro fd' hfd
    have hother : (w.setEpoll fd e).epolls fd' = w.epolls fd' := by
      simp [World.setEpoll, hfd]
    unfold World.slot
    rw [hother]
    rfl

/-- The connection that has been set. -/
@[simp] theorem World.setConn_self (w : World) (fd : Nat) (c : ConnState) :
    (w.setConn fd c).conns fd = c := Function.update_self _ _ _

/-- The other connections are as before. -/
theorem World.setConn_of_ne (w : World) {fd fd' : Nat} (c : ConnState) (hfd : fd' ≠ fd) :
    (w.setConn fd c).conns fd' = w.conns fd' := Function.update_of_ne hfd _ _

/-- The state of a connection belongs to one slot. -/
theorem World.slot_setConn (w : World) (fd : Nat) (c : ConnState) :
    (w.setConn fd c).slot fd = { w.slot fd with conn := c } ∧
    ∀ fd', fd' ≠ fd → (w.setConn fd c).slot fd' = w.slot fd' := by
  constructor
  · unfold World.slot
    rw [w.setConn_self]
    rfl
  · intro fd' hfd
    unfold World.slot
    rw [w.setConn_of_ne c hfd]
    rfl

/-- Enabling changes the epoll table only. -/
theorem World.epollEnable_eq (w : World) (fd : Nat) (mask : Mask) (t : TaskId)
    (ctl : EpollCtl) :
    w.epollEnable fd mask t ctl = { w with epolls := (w.epollEnable fd mask t ctl).epolls } := by
  unfold World.epollEnable
  split <;> rfl

/-- Disabling changes the epoll table only. -/
theorem World.epollDisable_eq (w : World) (fd : Nat) (mask : Mask) (ctl : EpollCtl) :
    w.epollDisable fd mask ctl = { w with epolls := (w.epollDisable fd mask ctl).epolls } := by
  unfold World.epollDisable
  split <;> rfl

/-- Enabling changes one entry. -/
theorem World.slot_epollEnable (w : World) {fd : Nat} (mask : Mask) (t : TaskId)
    (ctl : EpollCtl) (hbound : fd < w.maxfd) :
    (w.epollEnable fd mask t ctl).slot fd =
      { w.slot fd with epoll := ((w.slot fd).epoll.enable mask t ctl).1 } ∧
    ∀ fd', fd' ≠ fd → (w.epollEnable fd mask t ctl).slot fd' = w.slot fd' := by
  have hgoes : ¬ w.maxfd ≤ fd := by omega
  unfold World.epollEnable
  rw [if_neg hgoes]
  exact w.slot_setEpoll fd _

/-- Disabling changes one entry. -/
theorem World.slot_epollDisable (w : World) {fd : Nat} (mask : Mask) (ctl : EpollCtl)
    (hbound : fd < w.maxfd) :
    (w.epollDisable fd mask ctl).slot fd =
      { w.slot fd with epoll := ((w.slot fd).epoll.disable mask ctl).1 } ∧
    ∀ fd', fd' ≠ fd → (w.epollDisable fd mask ctl).slot fd' = w.slot fd' := by
  have hgoes : ¬ w.maxfd ≤ fd := by omega
  unfold World.epollDisable
  rw [if_neg hgoes]
  exact w.slot_setEpoll fd _

/-- Whether a task is timed belongs to one slot. -/
theorem World.slot_setTimed (w : World) (fd : Nat) (side : Side) (b : Bool) :
    ({ w with timed := Function.update w.timed (.op fd side) b } : World).slot fd =
      { w.slot fd with timed := Function.update (w.slot fd).timed side b } ∧
    ∀ fd', fd' ≠ fd →
      ({ w with timed := Function.update w.timed (.op fd side) b } : World).slot fd' =
        w.slot fd' := by
  constructor
  · have htimed : (fun sd => Function.update w.timed (.op fd side) b (.op fd sd)) =
        Function.update (w.slot fd).timed side b := by
      funext sd
      by_cases hsd : sd = side
      · subst hsd
        rw [Function.update_self, Function.update_self]
      · rw [Function.update_of_ne hsd, Function.update_of_ne]
        · rfl
        · intro heq
          exact hsd (TaskId.op.inj heq).2
    unfold World.slot at htimed ⊢
    rw [← htimed]
    rfl
  · intro fd' hfd
    have htimed : ∀ sd, Function.update w.timed (.op fd side) b (.op fd' sd) =
        w.timed (.op fd' sd) := by
      intro sd
      refine Function.update_of_ne ?_ _ _
      intro heq
      exact hfd (TaskId.op.inj heq).1
    unfold World.slot
    simp only [htimed]
    rfl

/-- **An operation begins**: what it does to the slots. -/
theorem World.slot_beginOp (w : World) {fd : Nat} (side : Side) (h : Handler) (mask : Mask)
    (ms : Nat) (ctl : EpollCtl) (hbound : fd < w.maxfd) :
    (w.beginOp fd (.op fd side) h mask ms ctl).slot fd =
      (w.slot fd).begun fd side h (w.conns fd) mask w.machine.now ms ctl ∧
    ∀ fd', fd' ≠ fd → (w.beginOp fd (.op fd side) h mask ms ctl).slot fd' = w.slot fd' := by
  let w₁ := w.call (.setHandler (.op fd side) (some h) false)
  let w₂ := w₁.epollEnable fd mask (.op fd side) ctl
  let w₃ : World := { w₂ with timed := Function.update w₂.timed (.op fd side) (decide (ms ≠ 0)) }
  obtain ⟨hself₁, hother₁⟩ := w.slot_call_op (c := .setHandler (.op fd side) (some h) false) rfl
  obtain ⟨hself₂, hother₂⟩ := w₁.slot_epollEnable mask (.op fd side) ctl hbound
  obtain ⟨hself₃, hother₃⟩ := w₂.slot_setTimed fd side (decide (ms ≠ 0))
  obtain ⟨hself₄, hother₄⟩ := w₃.slot_call_op (c := .scheduleTimeout (.op fd side) ms) rfl
  have hnow : w₃.machine.now = w.machine.now := by
    have hmachine : w₂.machine = w₁.machine := by
      rw [show w₂ = _ from w₁.epollEnable_eq fd mask (.op fd side) ctl]
    change w₂.machine.now = w.machine.now
    rw [hmachine]
    rfl
  have hbegin : w.beginOp fd (.op fd side) h mask ms ctl =
      if ms ≠ 0 then w₃.call (.scheduleTimeout (.op fd side) ms) else w₃ := rfl
  rw [hbegin]
  have hstarted : w₃.slot fd =
      { w.slot fd with
        epoll := ((w.slot fd).epoll.enable mask (.op fd side) ctl).1
        op := Function.update (w.slot fd).op side
          { (w.slot fd).op side with handler := some h, fast := false }
        timed := Function.update (w.slot fd).timed side (decide (ms ≠ 0)) } := by
    rw [hself₃, hself₂, hself₁]
    rfl
  constructor
  · by_cases hms : ms ≠ 0
    · rw [if_pos hms, hself₄, hstarted, hnow]
      simp only [Slot.begun, Task.started, if_pos hms, Function.update_self, Function.update_idem]
      rfl
    · rw [if_neg hms, hstarted]
      simp only [Slot.begun, Task.started, if_neg hms]
      rfl
  · intro fd' hfd
    have hsame : w₃.slot fd' = w.slot fd' := by
      rw [hother₃ fd' hfd, hother₂ fd' hfd, hother₁ fd' hfd]
    split
    · rw [hother₄ fd' hfd, hsame]
    · exact hsame

/-- Scheduling a post task changes that task of its slot. -/
theorem World.Calls.slot_schedule {w : World} (h : w.Calls) (fd : Nat) (side : Side) :
    (∃ post, (w.schedule (.post fd side)).slot fd = { w.slot fd with post := post }) ∧
    ∀ fd', fd' ≠ fd → (w.schedule (.post fd side)).slot fd' = w.slot fd' := by
  rw [h.schedule_eq]
  obtain ⟨hself, hother⟩ := w.slot_call_post (c := .schedule (.post fd side)) rfl
  exact ⟨⟨_, hself⟩, hother⟩

/-- **An operation ends**: what it does to the slots. -/
theorem World.Calls.slot_endOp {w : World} (h : w.Calls) {fd : Nat} (side side' : Side)
    (mask : Mask) (ms : Nat) (ctl : EpollCtl) (hbound : fd < w.maxfd) :
    (∃ post, (w.endOp fd (.op fd side) (.post fd side') mask ms ctl).slot fd =
      { w.slot fd with
        epoll := ((w.slot fd).epoll.disable mask ctl).1
        op := if ms ≠ 0 then Function.update (w.slot fd).op side ((w.slot fd).op side).freed
          else (w.slot fd).op
        post := post }) ∧
    ∀ fd', fd' ≠ fd →
      (w.endOp fd (.op fd side) (.post fd side') mask ms ctl).slot fd' = w.slot fd' := by
  let w₁ := w.epollDisable fd mask ctl
  let w₂ := if ms ≠ 0 then w₁.call (.dequeue (.op fd side)) else w₁
  have hend : w.endOp fd (.op fd side) (.post fd side') mask ms ctl =
      w₂.schedule (.post fd side') := rfl
  obtain ⟨hself₁, hother₁⟩ := w.slot_epollDisable mask ctl hbound
  obtain ⟨hself₂, hother₂⟩ := w₁.slot_call_op (c := .dequeue (.op fd side)) rfl
  have hcalls₁ : w₁.Calls := by
    have hmachine : w₁.machine = w.machine := by
      rw [show w₁ = _ from w.epollDisable_eq fd mask ctl]
    intro t
    unfold World.task
    rw [hmachine]
    exact h t
  have hcalls₂ : w₂.Calls := by
    by_cases hms : ms ≠ 0
    · rw [show w₂ = _ from if_pos hms]
      exact hcalls₁.call _ (by intros; contradiction)
    · rw [show w₂ = _ from if_neg hms]
      exact hcalls₁
  obtain ⟨⟨post, hself₃⟩, hother₃⟩ := hcalls₂.slot_schedule fd side'
  rw [hend]
  constructor
  · refine ⟨post, ?_⟩
    rw [hself₃]
    by_cases hms : ms ≠ 0
    · rw [show w₂ = _ from if_pos hms, hself₂, hself₁, if_pos hms]
      rfl
    · rw [show w₂ = _ from if_neg hms, hself₁, if_neg hms]
  · intro fd' hfd
    rw [hother₃ fd' hfd]
    by_cases hms : ms ≠ 0
    · rw [show w₂ = _ from if_pos hms, hother₂ fd' hfd, hother₁ fd' hfd]
    · rw [show w₂ = _ from if_neg hms, hother₁ fd' hfd]

/-- From `w` to `w'` the process acts through calls only: they are a run of the
machine, no handler of `spe_conn.c` is called, and no connection comes or goes. -/
structure World.Acts (w w' : World) : Prop where
  run : w.machine.canCall = true → w.machine.aborted = false →
    (∃ es, Run Machine.step anyStep w.machine es w'.machine) ∧
      w'.machine.canCall = true ∧ w'.machine.aborted = false
  calls : w.Calls → w'.Calls
  live : w'.live = w.live
  maxfd : w'.maxfd = w.maxfd
  entered : w'.entered = w.entered

/-- What does not touch the machine acts. -/
theorem World.Acts.of_machine {w w' : World} (hmachine : w'.machine = w.machine)
    (hlive : w'.live = w.live) (hmaxfd : w'.maxfd = w.maxfd) (hentered : w'.entered = w.entered) :
    w.Acts w' := by
  refine ⟨?_, ?_, hlive, hmaxfd, hentered⟩
  · intro hcan habort
    rw [hmachine]
    exact ⟨⟨[], Run.nil _⟩, hcan, habort⟩
  · intro hcalls t
    unfold World.task
    rw [hmachine]
    exact hcalls t

/-- Acts compose. -/
theorem World.Acts.trans {w w' w'' : World} (h : w.Acts w') (h' : w'.Acts w'') :
    w.Acts w'' := by
  refine ⟨?_, fun hcalls => h'.calls (h.calls hcalls), h'.live.trans h.live,
    h'.maxfd.trans h.maxfd, h'.entered.trans h.entered⟩
  intro hcan habort
  obtain ⟨⟨es, hes⟩, hcan', habort'⟩ := h.run hcan habort
  obtain ⟨⟨fs, hfs⟩, hcan'', habort''⟩ := h'.run hcan' habort'
  exact ⟨⟨es ++ fs, hes.append hfs⟩, hcan'', habort''⟩

/-- After a call calls can be made. -/
theorem Machine.call_canCall {T H : Type} [DecidableEq T] (m : Machine T H) (c : Call T H)
    (h : m.canCall = true) : (m.call c).canCall = true := by
  cases c with
  | schedule t =>
      unfold Machine.call
      dsimp only
      split
      · exact h
      · rfl
  | _ => exact h

/-- A call acts. -/
theorem World.acts_call (w : World) (c : Call TaskId Handler)
    (hc : ∀ t handler fast, c = .setHandler t handler fast →
      TaskOk t { w.task t with handler := handler, fast := fast }) : w.Acts (w.call c) := by
  refine ⟨?_, fun hcalls => hcalls.call c hc, rfl, rfl, rfl⟩
  intro hcan habort
  have hstep : w.machine.step (.call c) = some (w.machine.call c) := by
    simp [Machine.step, hcan, habort]
  exact ⟨⟨_, Run.single hstep trivial⟩, w.machine.call_canCall c hcan,
    (w.machine.call_keeps c).2.trans habort⟩

/-- Scheduling acts. -/
theorem World.Calls.acts_schedule {w : World} (h : w.Calls) (t : TaskId) :
    w.Acts (w.schedule t) := by
  rw [h.schedule_eq]
  exact w.acts_call _ (by intros; contradiction)

/-- Enabling acts. -/
theorem World.acts_epollEnable (w : World) (fd : Nat) (mask : Mask) (t : TaskId)
    (ctl : EpollCtl) : w.Acts (w.epollEnable fd mask t ctl) := by
  rw [w.epollEnable_eq]
  exact World.Acts.of_machine rfl rfl rfl rfl

/-- Disabling acts. -/
theorem World.acts_epollDisable (w : World) (fd : Nat) (mask : Mask) (ctl : EpollCtl) :
    w.Acts (w.epollDisable fd mask ctl) := by
  rw [w.epollDisable_eq]
  exact World.Acts.of_machine rfl rfl rfl rfl

/-- Beginning an operation acts. -/
theorem World.acts_beginOp (w : World) (fd : Nat) (side : Side) (h : Handler) (mask : Mask)
    (ms : Nat) (ctl : EpollCtl) : w.Acts (w.beginOp fd (.op fd side) h mask ms ctl) := by
  have hset : ∀ t handler fast,
      Call.setHandler (TaskId.op fd side) (some h) false = .setHandler t handler fast →
        TaskOk t { w.task t with handler := handler, fast := fast } := by
    intro t handler fast heq
    cases heq
    rfl
  let w₁ := w.call (.setHandler (.op fd side) (some h) false)
  let w₂ := w₁.epollEnable fd mask (.op fd side) ctl
  let w₃ : World := { w₂ with timed := Function.update w₂.timed (.op fd side) (decide (ms ≠ 0)) }
  have htimed : w₂.Acts w₃ := World.Acts.of_machine rfl rfl rfl rfl
  have hbegin : w.Acts w₃ :=
    (w.acts_call _ hset).trans ((w₁.acts_epollEnable fd mask (.op fd side) ctl).trans htimed)
  have heq : w.beginOp fd (.op fd side) h mask ms ctl =
      if ms ≠ 0 then w₃.call (.scheduleTimeout (.op fd side) ms) else w₃ := rfl
  rw [heq]
  split
  · exact hbegin.trans (w₃.acts_call _ (by intros; contradiction))
  · exact hbegin

/-- Ending an operation acts. -/
theorem World.Calls.acts_endOp {w : World} (h : w.Calls) (fd : Nat) (t post : TaskId)
    (mask : Mask) (ms : Nat) (ctl : EpollCtl) : w.Acts (w.endOp fd t post mask ms ctl) := by
  have hdisable := w.acts_epollDisable fd mask ctl
  unfold World.endOp
  dsimp only
  split
  · have hdequeue := hdisable.trans (World.acts_call _ (.dequeue t) (by intros; contradiction))
    exact hdequeue.trans ((hdequeue.calls h).acts_schedule post)
  · exact hdisable.trans ((hdisable.calls h).acts_schedule post)

/-- `spe_task_init` changes its task only. -/
theorem World.init_task (w : World) (t x : TaskId) :
    (w.init t).task x =
      if x = t then
        { handler := none, expire := 0, status := .free, fast := false, timeout := false }
      else w.task x := by
  by_cases hx : x = t
  · subst hx
    rw [if_pos rfl]
    exact Function.update_self _ _ _
  · rw [if_neg hx]
    exact Function.update_of_ne hx _ _

/-- A task that is idle stays idle when any task is initialised. -/
theorem World.init_free {w : World} (t : TaskId) {x : TaskId}
    (h : (w.task x).status = .free) : ((w.init t).task x).status = .free := by
  rw [w.init_task]
  split
  · rfl
  · exact h

/-- Initialising an idle task acts. -/
theorem World.acts_init {w : World} {t : TaskId} (hfree : (w.task t).status = .free) :
    w.Acts (w.init t) := by
  refine ⟨?_, ?_, rfl, rfl, rfl⟩
  · intro hcan habort
    have hfree : (w.machine.sched.tasks t).status = .free := hfree
    have hstep : w.machine.step (.init t) = some (w.init t).machine := by
      simp [Machine.step, habort, hcan, hfree, World.init]
    exact ⟨⟨_, Run.single hstep trivial⟩, hcan, habort⟩
  · intro hcalls x
    rw [w.init_task]
    split
    · cases x with
      | op fd side => rfl
      | post fd side => exact nofun
      | user n => exact nofun
    · exact hcalls x

end Spe
