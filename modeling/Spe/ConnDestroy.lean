import Spe.ConnCompletion
import Spe.SchedAlike
import Spe.WorldFrame
import Spe.WorldOps

/-!
# After a connection was destroyed

`spe_conn_destroy` dequeues the four tasks of the connection and clears the pointers of its
entry in `epolls`.  A process is wired (`World.Wired`): nothing but these refers to the tasks
of a connection.  So nothing refers to them afterwards, and as long as the descriptor is not
created again no step starts one of their handlers, whichever handler called
`spe_conn_destroy`, whatever `epoll_ctl` answered, and whatever happens to other
connections (`destroy_forgets`).
-/

namespace Spe

open Transition

instance (fd : Nat) (t : TaskId) : Decidable (t.Of fd) :=
  match t with
  | .op i _ => inferInstanceAs (Decidable (i = fd))
  | .post i _ => inferInstanceAs (Decidable (i = fd))
  | .user _ => inferInstanceAs (Decidable False)

namespace World

/-- Nothing refers to a task of the connection. -/
structure Unreferenced (w : World) (fd : Nat) : Prop where
  status : ∀ t : TaskId, t.Of fd → (w.task t).status = .free
  queue : ∀ t : TaskId, t.Of fd → t ∉ w.machine.sched.taskHead
  timers : ∀ t : TaskId, t.Of fd → t ∉ w.machine.sched.timers
  pointers : ∀ t : TaskId, t.Of fd → ∀ i side, (w.epolls i).taskOf side ≠ some t
  entered : ∀ t : TaskId, t.Of fd → w.entered ≠ some t

/-- The step starts the handler of a task. -/
def Starts (w w' : World) (t : TaskId) : Prop :=
  w'.machine.stack = .handler t :: w.machine.stack

/-- **Nothing refers to a connection that is not in use.** -/
theorem Wired.unreferenced {w : World} (hw : w.Wired) {fd : Nat} (hdead : w.live fd = false) :
    w.Unreferenced fd := by
  have hidle : ∀ side, ¬ (w.slot fd).Busy fd side := Slot.not_busy_of_dead hdead
  have hstatus : ∀ t : TaskId, t.Of fd → (w.task t).status = .free := by
    intro t ht
    cases t with
    | op i side =>
        obtain rfl : i = fd := ht
        exact (hw.slots i).idle side (hidle side)
    | post i side =>
        obtain rfl : i = fd := ht
        exact (hw.slots i).dead hdead side
    | user n => exact ht.elim
  refine ⟨hstatus, ?_, ?_, ?_, ?_⟩
  · intro t ht hmem
    have hqueue := (hw.placed.queued t).mpr hmem
    cases hqueue.symm.trans (hstatus t ht)
  · intro t ht hmem
    have htimer := (hw.placed.timed t).mpr hmem
    cases htimer.symm.trans (hstatus t ht)
  · intro t ht i side hpointer
    rcases (hw.slots i).pointer side t hpointer with ⟨n, rfl⟩ | ⟨sd, rfl, hbusy, _⟩
    · exact ht
    · obtain rfl : i = fd := ht
      exact hidle sd hbusy
  · intro t ht hentered
    obtain ⟨⟨i, side, rfl⟩, _⟩ := hw.entered t hentered
    obtain rfl : i = fd := ht
    exact hidle side ((hw.slots i).entered side (World.slot_entered hentered)).1

/-- The task may be started: it is one of user code or of a connection in use. -/
def InUse (w : World) (t : TaskId) : Prop :=
  ∀ fd, t.Of fd → w.live fd = true

/-- The step starts no handler, or one of a task in use. -/
def Calm (w w' : World) : Prop :=
  w'.machine.stack = w.machine.stack ∨ ∃ t, w.InUse t ∧ w.Starts w' t

/-- A step that starts a handler starts that of a task in use. -/
theorem Calm.inUse {w w' : World} (h : w.Calm w') {t : TaskId} (hstarts : w.Starts w' t) :
    w.InUse t := by
  rcases h with hsame | ⟨t', huse, hstarts'⟩
  · exact absurd (hsame.symm.trans hstarts) List.ne_cons_self
  · have heq := hstarts'.symm.trans hstarts
    rw [List.cons.injEq, Frame.handler.injEq] at heq
    rw [← heq.1]
    exact huse

/-- Scheduling a task in use. -/
theorem Calls.schedule_calm {w : World} (h : w.Calls) {t : TaskId} (huse : w.InUse t) :
    w.Calm (w.schedule t) := by
  rw [h.schedule_eq]
  rcases w.machine.call_stack (.schedule t) with hsame | ⟨_, _, hpush⟩
  · exact Or.inl hsame
  · exact Or.inr ⟨t, huse, hpush⟩

/-- A step behind one that leaves the stack and the connections alone. -/
theorem Calm.after {w w₁ w' : World} (hstack : w₁.machine.stack = w.machine.stack)
    (hlive : w₁.live = w.live) (h : w₁.Calm w') : w.Calm w' := by
  unfold Calm Starts InUse at h ⊢
  rwa [hstack, hlive] at h

/-- The start of an operation leaves the stack alone. -/
theorem beginOp_stack (w : World) (fd : Nat) (t : TaskId) (h : Handler) (mask : Mask) (ms : Nat)
    (ctl : EpollCtl) : (w.beginOp fd t h mask ms ctl).machine.stack = w.machine.stack := by
  have henable : ((w.call (.setHandler t (some h) false)).epollEnable fd mask t ctl).machine =
      (w.call (.setHandler t (some h) false)).machine := by rw [World.epollEnable_eq]
  unfold beginOp
  dsimp only
  split
  · change (World.machine _).stack = _
    rw [henable]
    rfl
  · rw [henable]
    rfl

/-- The end of an operation schedules its post task. -/
theorem Calls.endOp_calm {w : World} (h : w.Calls) (fd : Nat) (t post : TaskId) (mask : Mask)
    (ms : Nat) (ctl : EpollCtl) (huse : w.InUse post) :
    w.Calm (w.endOp fd t post mask ms ctl) := by
  let w₁ := w.epollDisable fd mask ctl
  let w₂ := if ms ≠ 0 then w₁.call (.dequeue t) else w₁
  have hacts₁ : w.Acts w₁ := w.acts_epollDisable fd mask ctl
  have hmachine₁ : w₁.machine = w.machine := by
    rw [show w₁ = _ from w.epollDisable_eq fd mask ctl]
  have hstack₂ : w₂.machine.stack = w.machine.stack := by
    by_cases hms : ms ≠ 0
    · rw [show w₂ = _ from if_pos hms, ← hmachine₁]
      rfl
    · rw [show w₂ = _ from if_neg hms, hmachine₁]
  have hacts₂ : w₁.Acts w₂ := by
    by_cases hms : ms ≠ 0
    · rw [show w₂ = _ from if_pos hms]
      exact w₁.acts_call _ (by intros; contradiction)
    · rw [show w₂ = _ from if_neg hms]
      exact World.Acts.of_machine rfl rfl rfl rfl
  have hlive₂ : w₂.live = w.live := hacts₂.live.trans hacts₁.live
  have huse₂ : w₂.InUse post := by
    unfold InUse
    rw [hlive₂]
    exact huse
  exact Calm.after hstack₂ hlive₂ ((hacts₂.calls (hacts₁.calls h)).schedule_calm huse₂)

/-- A task of user code is in use. -/
theorem inUse_user (w : World) (n : Nat) : w.InUse (.user n) := fun _ h => h.elim

/-- So is that of a connection in use. -/
theorem inUse_of {w : World} {t : TaskId} {fd : Nat} (ht : t.Of fd) (hlive : w.live fd = true) :
    w.InUse t := by
  intro i hi
  have heq : i = fd := by
    cases t with
    | op j side => exact (hi : j = i).symm.trans ht
    | post j side => exact (hi : j = i).symm.trans ht
    | user n => exact ht.elim
  rw [heq]
  exact hlive

/-- A task that is in a container is in use. -/
theorem Wired.inUse_of_status {w : World} (hw : w.Wired) {t : TaskId}
    (hstatus : (w.task t).status ≠ .free) : w.InUse t := by
  intro fd ht
  by_contra hdead
  exact hstatus ((hw.unreferenced (by simpa using hdead)).status t ht)

/-- So is one that `epolls` points to. -/
theorem Wired.inUse_of_pointer {w : World} (hw : w.Wired) {t : TaskId} {i : Nat} {side : Side}
    (hpointer : (w.epolls i).taskOf side = some t) : w.InUse t := by
  intro fd ht
  by_contra hdead
  exact (hw.unreferenced (by simpa using hdead)).pointers t ht i side hpointer

/-- A round of a loop starts the handler of a task that was queued. -/
theorem Wired.loop_starts {w w' : World} (hw : w.Wired) {t : TaskId} (hloop : w.loop = some w')
    (hstarts : w.Starts w' t) : w.InUse t := by
  obtain ⟨m, _, hmove, rfl⟩ := World.loop_cases hw.placed hloop
  unfold Starts at hstarts
  cases hmove with
  | fire curr rest x others hstack =>
      rw [World.looped_timer _ hstack] at hstarts
      exact absurd hstarts List.ne_cons_self
  | drained curr rest hstack =>
      rw [World.looped_timer _ hstack, hstack] at hstarts
      cases hstarts
  | take rest x others hstack hqueue hstatus =>
      have hcalled : ∀ v : World, (v.called x).machine = v.machine := by
        intro v
        unfold World.called
        split
        · rfl
        · split <;> rfl
      rw [World.looped_take _ hstack hqueue, hcalled, hstack] at hstarts
      cases hstarts
      exact hw.inUse_of_status (by simp [World.task, hstatus])
  | idle rest hstack hqueue =>
      rw [World.looped_idle _ hstack hqueue] at hstarts
      have hshort := congrArg List.length hstarts
      simp only [hstack, List.length_cons] at hshort
      omega

/-- A call of the connection's user schedules its post task at most. -/
theorem Wired.userCall_calm {w w' : World} (hw : w.Wired) {fd : Nat} {cev : ConnEvent}
    {ctl : EpollCtl} (hlive : w.live fd = true) (hcall : w.userCall fd cev ctl = some w') :
    w.Calm w' := by
  obtain ⟨c, out, _, _, hcases⟩ := World.userCall_cases hcall
  have hconn : (w.setConn fd c).Calls := hw.calls
  split at hcases
  · rename_i k _ _
    rw [hcases]
    have huse : (w.setConn fd c).InUse (.post fd k.side) := inUse_of rfl hlive
    exact Calm.after rfl rfl (hconn.schedule_calm huse)
  · rw [hcases]
    exact Or.inl (beginOp_stack _ _ _ _ _ _ _)
  · rw [hcases]
    exact Or.inl rfl

/-- The execution of a handler schedules the post task of its connection at most. -/
theorem Wired.handle_calm {w w' : World} (hw : w.Wired) {ans : World.Answer} {ctl : EpollCtl}
    (hhandle : w.handle ans ctl = some w') : w.Calm w' := by
  obtain ⟨fd, k, cev, c, out, _, hlive, _, _, _, _, rfl⟩ := hw.handle_cases hhandle
  have hconn : (w.leave.setConn fd c).Calls := hw.calls
  split
  · have huse : (w.leave.setConn fd c).InUse (.post fd k.side) := inUse_of rfl hlive
    exact Calm.after rfl rfl (hconn.endOp_calm fd _ _ k.mask _ ctl huse)
  · exact Or.inl rfl

/-- A call of user code schedules a task that it may use. -/
theorem mayCall_calm {w : World} {c : Call TaskId Handler}
    (hmay : w.mayCall c = true) : w.Calm (w.call c) := by
  rcases w.machine.call_stack c with hsame | ⟨heq, _, hpush⟩
  · exact Or.inl hsame
  · refine Or.inr ⟨c.task, ?_, hpush⟩
    have huse : w.mayUse c.task = true := by
      rw [heq] at hmay
      exact hmay
    cases ht : c.task with
    | op fd side =>
        rw [ht] at huse
        cases huse
    | post fd side =>
        rw [ht] at huse
        exact inUse_of (t := .post fd side) rfl huse
    | user n => exact w.inUse_user n

/-- **What a step can start.**  It is the handler of a task of user code, or of a
connection in use. -/
theorem Wired.step_starts {w w' : World} (hw : w.Wired) {ev : WorldEvent} {t : TaskId}
    (hstep : w.step ev = some w') (hstarts : w.Starts w' t) : w.InUse t := by
  have hnone : ∀ x : Frame TaskId, w.machine.stack ≠ x :: w.machine.stack :=
    fun x => List.ne_cons_self
  unfold World.step at hstep
  obtain ⟨_, hstep⟩ := Option.ite_none_left_eq_some.mp hstep
  cases ev with
  | call c =>
      obtain ⟨⟨_, hmay⟩, hstep⟩ := Option.ite_none_right_eq_some.mp hstep
      have hcalm := mayCall_calm hmay
      split at hstep
      · rw [hw.calls.schedule_eq] at hstep
        obtain rfl := Option.some.inj hstep
        exact hcalm.inUse hstarts
      · obtain rfl := Option.some.inj hstep
        exact hcalm.inUse hstarts
  | init n =>
      obtain ⟨_, ⟨⟩⟩ := Option.ite_none_right_eq_some.mp hstep
      exact absurd hstarts (hnone _)
  | epollEnable i mask n ctl =>
      obtain ⟨_, ⟨⟩⟩ := Option.ite_none_right_eq_some.mp hstep
      unfold Starts at hstarts
      rw [World.epollEnable_eq] at hstarts
      exact absurd hstarts (hnone _)
  | epollDisable i mask ctl =>
      obtain ⟨_, ⟨⟩⟩ := Option.ite_none_right_eq_some.mp hstep
      unfold Starts at hstarts
      rw [World.epollDisable_eq] at hstarts
      exact absurd hstarts (hnone _)
  | create i =>
      obtain ⟨_, ⟨⟩⟩ := Option.ite_none_right_eq_some.mp hstep
      have hsame : (w.create i).machine.stack = w.machine.stack := by
        unfold World.create
        dsimp only
        split <;> rfl
      exact absurd (hsame.symm.trans hstarts) (hnone _)
  | destroy i ctl =>
      obtain ⟨_, ⟨⟩⟩ := Option.ite_none_right_eq_some.mp hstep
      have hsame : (w.destroy i ctl).machine.stack = w.machine.stack := by
        unfold World.destroy
        dsimp only
        rw [World.epollDisable_eq]
        rfl
      exact absurd (hsame.symm.trans hstarts) (hnone _)
  | userCall i cev ctl =>
      obtain ⟨⟨_, hlive⟩, hcall⟩ := Option.ite_none_right_eq_some.mp hstep
      exact (hw.userCall_calm hlive hcall).inUse hstarts
  | ready i side =>
      obtain ⟨_, ⟨⟩⟩ := Option.ite_none_right_eq_some.mp hstep
      unfold World.ready at hstarts
      split at hstarts
      · cases hpointer : (w.epolls i).taskOf side with
        | none =>
            rw [hpointer] at hstarts
            exact absurd hstarts (hnone _)
        | some x =>
            rw [hpointer] at hstarts
            exact (hw.calls.schedule_calm (hw.inUse_of_pointer hpointer)).inUse hstarts
      · exact absurd hstarts (hnone _)
  | process =>
      obtain ⟨_, ⟨⟩⟩ := Option.ite_none_right_eq_some.mp hstep
      unfold Starts Machine.process at hstarts
      dsimp only at hstarts
      split at hstarts <;> cases hstarts
  | loop =>
      obtain ⟨_, hloop⟩ := Option.ite_none_right_eq_some.mp hstep
      exact hw.loop_starts hloop hstarts
  | ret =>
      obtain ⟨_, hret⟩ := Option.ite_none_right_eq_some.mp hstep
      obtain ⟨m, hm, rfl⟩ := Option.map_eq_some_iff.mp hret
      unfold Machine.ret at hm
      split at hm
      · rename_i rest hstack
        obtain rfl := Option.some.inj hm
        have hshort := congrArg List.length hstarts
        simp only [hstack, List.length_cons] at hshort
        omega
      · cases hm
  | handle ans ctl => exact (hw.handle_calm hstep).inUse hstarts
  | tick now =>
      obtain ⟨_, ⟨⟩⟩ := Option.ite_none_right_eq_some.mp hstep
      exact absurd hstarts (hnone _)

/-- The call of a handler brings no connection into use. -/
theorem called_live (w : World) (t : TaskId) : (w.called t).live = w.live := by
  unfold World.called
  split
  · rfl
  · split <;> rfl

/-- **Only `spe_conn_create` brings a connection into use.** -/
theorem Wired.step_dead {w w' : World} (hw : w.Wired) {ev : WorldEvent} {fd : Nat}
    (hstep : w.step ev = some w') (hnew : ev ≠ .create fd) (hdead : w.live fd = false) :
    w'.live fd = false := by
  unfold World.step at hstep
  obtain ⟨_, hstep⟩ := Option.ite_none_left_eq_some.mp hstep
  have hsame : w'.live = w.live → w'.live fd = false := fun h => (congrFun h fd).trans hdead
  cases ev with
  | call c =>
      obtain ⟨_, hstep⟩ := Option.ite_none_right_eq_some.mp hstep
      split at hstep
      · rw [hw.calls.schedule_eq] at hstep
        obtain rfl := Option.some.inj hstep
        exact hdead
      · obtain rfl := Option.some.inj hstep
        exact hdead
  | init n =>
      obtain ⟨_, ⟨⟩⟩ := Option.ite_none_right_eq_some.mp hstep
      exact hdead
  | epollEnable i mask n ctl =>
      obtain ⟨_, ⟨⟩⟩ := Option.ite_none_right_eq_some.mp hstep
      exact hsame (w.acts_epollEnable i mask (.user n) ctl).live
  | epollDisable i mask ctl =>
      obtain ⟨_, ⟨⟩⟩ := Option.ite_none_right_eq_some.mp hstep
      exact hsame (w.acts_epollDisable i mask ctl).live
  | create i =>
      obtain ⟨_, ⟨⟩⟩ := Option.ite_none_right_eq_some.mp hstep
      have hne : fd ≠ i := by
        rintro rfl
        exact hnew rfl
      rw [(w.sameElse_create i).live fd hne]
      exact hdead
  | destroy i ctl =>
      obtain ⟨_, ⟨⟩⟩ := Option.ite_none_right_eq_some.mp hstep
      by_cases hi : fd = i
      · subst hi
        exact Function.update_self _ _ _
      · rw [(w.sameElse_destroy i ctl).live fd hi]
        exact hdead
  | userCall i cev ctl =>
      obtain ⟨_, hcall⟩ := Option.ite_none_right_eq_some.mp hstep
      obtain ⟨c, out, _, _, hcases⟩ := World.userCall_cases hcall
      have hconn : (w.setConn i c).Calls := hw.calls
      split at hcases
      · rw [hcases]
        exact (congrFun (hconn.acts_schedule _).live fd).trans hdead
      · rw [hcases]
        exact (congrFun (World.acts_beginOp _ i _ _ _ _ ctl).live fd).trans hdead
      · rw [hcases]
        exact hdead
  | ready i side =>
      obtain ⟨_, ⟨⟩⟩ := Option.ite_none_right_eq_some.mp hstep
      unfold World.ready
      split
      · cases (w.epolls i).taskOf side with
        | none => exact hdead
        | some x => exact (congrFun (hw.calls.acts_schedule x).live fd).trans hdead
      · exact hdead
  | process =>
      obtain ⟨_, ⟨⟩⟩ := Option.ite_none_right_eq_some.mp hstep
      exact hdead
  | loop =>
      obtain ⟨_, hloop⟩ := Option.ite_none_right_eq_some.mp hstep
      obtain ⟨m, _, _, rfl⟩ := World.loop_cases hw.placed hloop
      unfold World.looped
      split
      · rw [called_live]
        exact hdead
      · exact hdead
  | ret =>
      obtain ⟨_, hret⟩ := Option.ite_none_right_eq_some.mp hstep
      obtain ⟨m, _, rfl⟩ := Option.map_eq_some_iff.mp hret
      exact hdead
  | handle ans ctl =>
      obtain ⟨i, k, cev, c, out, _, _, _, _, _, _, rfl⟩ := hw.handle_cases hstep
      have hconn : (w.leave.setConn i c).Calls := hw.calls
      split
      · exact (congrFun (hconn.acts_endOp i _ _ _ _ ctl).live fd).trans hdead
      · exact hdead
  | tick now =>
      obtain ⟨_, ⟨⟩⟩ := Option.ite_none_right_eq_some.mp hstep
      exact hdead

/-- A dequeue takes one task out of both containers. -/
theorem dequeue_containers {w : World} (hw : Placed w.machine.sched) (t : TaskId) :
    Placed (w.call (.dequeue t)).machine.sched ∧
    (w.call (.dequeue t)).machine.sched.taskHead =
      w.machine.sched.taskHead.filter (fun x => x ≠ t) ∧
    (w.call (.dequeue t)).machine.sched.timers =
      w.machine.sched.timers.filter (fun x => x ≠ t) := by
  obtain ⟨hhead, htimers⟩ := taskDequeue_containers hw t
  have hfilter : ∀ l : List TaskId, l.filter (· != t) = l.filter (fun x => x ≠ t) :=
    fun l => List.filter_congr (fun x _ => by by_cases hx : x = t <;> simp [hx])
  refine ⟨hw.step (Machine.call_sched w.machine (.dequeue t)), ?_, ?_⟩
  · refine hhead.trans ?_
    rw [hw.queueOnce.erase_eq_filter, hfilter]
  · refine htimers.trans ?_
    rw [hw.timersOnce.erase_eq_filter, hfilter]

/-- The four tasks of a connection are all of its tasks. -/
theorem filter_tasks (l : List TaskId) (fd : Nat) :
    (((l.filter (fun t => t ≠ .readTask fd)).filter (fun t => t ≠ .writeTask fd)).filter
      (fun t => t ≠ .postReadTask fd)).filter (fun t => t ≠ .postWriteTask fd) =
      l.filter (fun t => ¬ t.Of fd) := by
  simp only [List.filter_filter]
  apply List.filter_congr
  intro t _
  cases t with
  | op i side => cases side <;> by_cases hi : i = fd <;> simp [TaskId.Of, hi]
  | post i side => cases side <;> by_cases hi : i = fd <;> simp [TaskId.Of, hi]
  | user n => simp [TaskId.Of]

/-- **The containers after `spe_conn_destroy`**: the tasks of the connection are gone, and
the others are in the same order. -/
theorem destroy_containers {w : World} (hw : Placed w.machine.sched) (fd : Nat) (ctl : EpollCtl) :
    (w.destroy fd ctl).machine.sched.taskHead =
      w.machine.sched.taskHead.filter (fun t => ¬ t.Of fd) ∧
    (w.destroy fd ctl).machine.sched.timers =
      w.machine.sched.timers.filter (fun t => ¬ t.Of fd) := by
  have hmachine : (w.destroy fd ctl).machine = (w.dequeueTasks fd).machine := by
    unfold World.destroy
    dsimp only
    rw [World.epollDisable_eq]
  rw [hmachine]
  obtain ⟨hw₁, hhead₁, htimers₁⟩ := dequeue_containers hw (.readTask fd)
  obtain ⟨hw₂, hhead₂, htimers₂⟩ := dequeue_containers hw₁ (.writeTask fd)
  obtain ⟨hw₃, hhead₃, htimers₃⟩ := dequeue_containers hw₂ (.postReadTask fd)
  obtain ⟨_, hhead₄, htimers₄⟩ := dequeue_containers hw₃ (.postWriteTask fd)
  constructor
  · refine hhead₄.trans ?_
    rw [hhead₃, hhead₂, hhead₁]
    exact filter_tasks w.machine.sched.taskHead fd
  · refine htimers₄.trans ?_
    rw [htimers₃, htimers₂, htimers₁]
    exact filter_tasks w.machine.sched.timers fd

end World

/-- **Destroying a connection** leaves nothing that refers to it.  No task of it is in a
container, and no entry of `epolls` points to one, whatever `epoll_ctl` answered.  However the
process goes on, this stays so and no handler of one is started, until the descriptor is
created again.  The tasks, the connections and the entries of all others are as they were,
and so is the order of their tasks in both containers. -/
theorem destroy_forgets {maxfd fd : Nat} {w w' : World} {es : List WorldEvent} {ctl : EpollCtl}
    (hrun : Run World.step anyStep (World.start maxfd) es w)
    (hstep : w.step (.destroy fd ctl) = some w') :
    w'.Unreferenced fd ∧ (∀ side, (w'.epolls fd).taskOf side = none) ∧
    (∀ fs v, Run World.step (fun _ ev => ev ≠ .create fd) w' fs v →
      v.Unreferenced fd ∧
      ∀ ev v' t, v.step ev = some v' → t.Of fd → ¬ v.Starts v' t) ∧
    World.SameElse fd w w' ∧
    w'.machine.sched.taskHead = w.machine.sched.taskHead.filter (fun t => ¬ t.Of fd) ∧
    w'.machine.sched.timers = w.machine.sched.timers.filter (fun t => ¬ t.Of fd) := by
  have hw := World.wired_of_run hrun
  have hw' := (hw.step hstep).wired hw
  unfold World.step at hstep
  obtain ⟨_, hstep⟩ := Option.ite_none_left_eq_some.mp hstep
  obtain ⟨⟨_, hlive⟩, ⟨⟩⟩ := Option.ite_none_right_eq_some.mp hstep
  have hdead : (w.destroy fd ctl).live fd = false := Function.update_self _ _ _
  refine ⟨hw'.unreferenced hdead, ?_, ?_, w.sameElse_destroy fd ctl,
    w.destroy_containers hw.placed fd ctl⟩
  · intro side
    have hmaxfd : (w.dequeueTasks fd).maxfd = w.maxfd := (w.dequeueTasks_spec fd).1.maxfd
    have hbound : ¬ (w.dequeueTasks fd).maxfd ≤ fd := by
      rw [hmaxfd]
      exact Nat.not_le.mpr (hw.bound fd hlive)
    unfold World.destroy World.epollDisable
    dsimp only
    rw [if_neg hbound]
    unfold World.setEpoll
    dsimp only
    rw [Function.update_self, Epoll.disable_taskOf, if_pos (has_both side)]
  · intro fs v hlater
    obtain ⟨hv, hdead'⟩ := hlater.invariant (fun v => v.Wired ∧ v.live fd = false) ⟨hw', hdead⟩
      (fun _ _ _ hinv hnew hstep =>
        ⟨(hinv.1.step hstep).wired hinv.1, hinv.1.step_dead hstep hnew hinv.2⟩)
    refine ⟨hv.unreferenced hdead', ?_⟩
    intro ev v' t hstep ht hstarts
    have huse := hv.step_starts hstep hstarts fd ht
    cases hdead'.symm.trans huse

/-- A read with a time limit is pending on the connection 5, and `post_write_task` of it is
queued, when the handler of `post_read_task` of the connection 6 runs. -/
def busyEvents : List WorldEvent :=
  [.create 5, .create 6, .userCall 5 (.setTimeout 1000 0) ctlGood,
    .userCall 5 (.issue .read zeroAllocs (.err .eagain)) ctlGood,
    .userCall 6 (.issue .read zeroAllocs (.data [97])) ctlGood,
    .call (.schedule (.postWriteTask 5)), .process, .loop, .loop]

/-- That handler destroys the connection 5, and `epoll_ctl` fails. -/
theorem destroy_forgets_busy : ∃ w w',
    Run World.step anyStep (World.start 8) busyEvents w ∧
    w.machine.sched.taskHead = [.postWriteTask 5] ∧ w.machine.sched.timers = [.readTask 5] ∧
    w.step (.destroy 5 (fun _ _ => false)) = some w' ∧ w'.Unreferenced 5 := by
  have hlast : (exec World.step (World.start 8) busyEvents).map (fun w =>
      decide (w.machine.sched.taskHead = [.postWriteTask 5] ∧
        w.machine.sched.timers = [.readTask 5] ∧
        (w.step (.destroy 5 (fun _ _ => false))).isSome)) = some true := by decide +kernel
  obtain ⟨w, hexec, hfields⟩ := Option.map_eq_some_iff.mp hlast
  obtain ⟨hhead, htimers, hsome⟩ := of_decide_eq_true hfields
  obtain ⟨w', hstep⟩ := Option.isSome_iff_exists.mp hsome
  have hrun := run_iff_exec.mpr hexec
  exact ⟨w, w', hrun, hhead, htimers, hstep, (destroy_forgets hrun hstep).1⟩

end Spe
