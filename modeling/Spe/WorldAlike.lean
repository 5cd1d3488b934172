import Spe.ConnAlike
import Spe.SchedAlike
import Spe.WorldFrame

/-!
# Processes that nobody can tell apart

Two processes are alike when their schedulers are, their epoll tables are the same,
and so are their connections but for that of one descriptor, where the two are alike
only.  The private tasks of connections are the tasks whose handlers do not count:
while such a task is in a container its handler is that of the pending operation,
which both have.

Every event leads alike processes to alike processes, or is possible in neither
(`World.Alike.step`), as long as the environment answers the same to the connection of
the descriptor.
-/

namespace Spe

open Transition

/-- The private tasks of connections. -/
def TaskId.IsOp : TaskId → Prop
  | .op _ _ => True
  | _ => False

/-- Two processes that nobody can tell apart. -/
structure World.Alike (fd : Nat) (w v : World) : Prop where
  maxfd : w.maxfd = v.maxfd
  machine : MachineAlike TaskId.IsOp w.machine v.machine
  left : InOrder w.machine.sched
  right : InOrder v.machine.sched
  epolls : w.epolls = v.epolls
  conns : ∀ i, i ≠ fd → w.conns i = v.conns i
  conn : (w.conns fd).Alike (v.conns fd)
  entered : w.entered = v.entered
  crashed : w.crashed = v.crashed
  live : w.live = v.live

namespace World.Alike

variable {fd : Nat} {w v : World} (h : World.Alike fd w v)
include h

/-- The tasks of both. -/
theorem task (t : TaskId) : TaskAlike t.IsOp (w.task t) (v.task t) := h.machine.sched.tasks t

/-- The connections of both. -/
theorem connAt (i : Nat) : (w.conns i).Alike (v.conns i) := by
  by_cases hi : i = fd
  · subst hi
    exact h.conn
  · rw [h.conns i hi]
    exact .refl _

/-- Both schedulers change. -/
theorem withMachine {m n : Machine TaskId Handler} (hmn : MachineAlike TaskId.IsOp m n)
    (hm : InOrder m.sched) (hn : InOrder n.sched) :
    World.Alike fd { w with machine := m } { v with machine := n } :=
  ⟨h.maxfd, hmn, hm, hn, h.epolls, h.conns, h.conn, h.entered, h.crashed, h.live⟩

/-- Both connections of a descriptor change. -/
theorem setConn (i : Nat) {c d : ConnState} (hcd : c.Alike d) (heq : i ≠ fd → c = d) :
    World.Alike fd (w.setConn i c) (v.setConn i d) := by
  refine ⟨h.maxfd, h.machine, h.left, h.right, h.epolls, ?_, ?_, h.entered, h.crashed, h.live⟩
  · intro j hj
    change Function.update w.conns i c j = Function.update v.conns i d j
    by_cases hji : j = i
    · subst hji
      rw [Function.update_self, Function.update_self, heq hj]
    · rw [Function.update_of_ne hji, Function.update_of_ne hji, h.conns j hj]
  · change (Function.update w.conns i c fd).Alike (Function.update v.conns i d fd)
    by_cases hi : fd = i
    · subst hi
      rw [Function.update_self, Function.update_self]
      exact hcd
    · rw [Function.update_of_ne hi, Function.update_of_ne hi]
      exact h.conn

/-- The same entry of both epoll tables changes. -/
theorem setEpoll (i : Nat) (e : Epoll TaskId) :
    World.Alike fd (w.setEpoll i e) (v.setEpoll i e) := by
  refine ⟨h.maxfd, h.machine, h.left, h.right, ?_, h.conns, h.conn, h.entered, h.crashed, h.live⟩
  change Function.update w.epolls i e = Function.update v.epolls i e
  rw [h.epolls]

/-- The same connection of both is created or destroyed. -/
theorem setLive (i : Nat) (b : Bool) :
    World.Alike fd { w with live := Function.update w.live i b }
      { v with live := Function.update v.live i b } := by
  refine ⟨h.maxfd, h.machine, h.left, h.right, h.epolls, h.conns, h.conn, h.entered, h.crashed, ?_⟩
  dsimp only
  rw [h.live]

/-- The same handler is called in both, or returns. -/
theorem setEntered (e : Option TaskId) :
    World.Alike fd { w with entered := e } { v with entered := e } :=
  ⟨h.maxfd, h.machine, h.left, h.right, h.epolls, h.conns, h.conn, rfl, h.crashed, h.live⟩

/-- Which operations have a time limit is history. -/
theorem setTimed (a b : TaskId → Bool) :
    World.Alike fd { w with timed := a } { v with timed := b } :=
  ⟨h.maxfd, h.machine, h.left, h.right, h.epolls, h.conns, h.conn, h.entered, h.crashed, h.live⟩

/-- A call into the scheduler. -/
theorem call (c : Call TaskId Handler) : World.Alike fd (w.call c) (v.call c) :=
  h.withMachine (h.machine.call h.left h.right c) (h.left.step (w.machine.call_sched c))
    (h.right.step (v.machine.call_sched c))

/-- A task with the same handler in both is called. -/
theorem called {t : TaskId} (hhandler : (w.task t).handler = (v.task t).handler) :
    World.Alike fd (w.called t) (v.called t) := by
  unfold World.called
  rw [hhandler]
  split
  · exact h
  · split
    · exact h.setEntered (some t)
    · exact h

/-- A task is scheduled; a private one is not fast. -/
theorem schedule {t : TaskId} (hslow : t.IsOp → (w.task t).fast = false) :
    World.Alike fd (w.schedule t) (v.schedule t) := by
  obtain ⟨_, _, hcalls⟩ := taskSchedule_containers h.left.placed t
  obtain ⟨_, _, hcalls'⟩ := taskSchedule_containers h.right.placed t
  have htask := h.task t
  have hstatus : (w.machine.sched.tasks t).status = (v.machine.sched.tasks t).status := htask.status
  have hfast : (w.machine.sched.tasks t).fast = (v.machine.sched.tasks t).fast := htask.fast
  unfold World.schedule
  rw [hcalls, hcalls', ← hstatus, ← hfast]
  by_cases hruns : (w.machine.sched.tasks t).status ≠ .queue ∧ (w.machine.sched.tasks t).fast
  · rw [if_pos hruns]
    have hnot : ¬ t.IsOp := by
      intro hop
      cases (hslow hop).symm.trans hruns.2
    exact (h.call (.schedule t)).called (((h.call (.schedule t)).task t).handler hnot)
  · rw [if_neg hruns]
    exact h.call (.schedule t)

/-- Events of a descriptor are enabled. -/
theorem epollEnable (i : Nat) (mask : Mask) (t : TaskId) (ctl : EpollCtl) :
    World.Alike fd (w.epollEnable i mask t ctl) (v.epollEnable i mask t ctl) := by
  unfold World.epollEnable
  rw [h.maxfd, h.epolls]
  split
  · exact h
  · exact h.setEpoll i _

/-- Events of a descriptor are disabled. -/
theorem epollDisable (i : Nat) (mask : Mask) (ctl : EpollCtl) :
    World.Alike fd (w.epollDisable i mask ctl) (v.epollDisable i mask ctl) := by
  unfold World.epollDisable
  rw [h.maxfd, h.epolls]
  split
  · exact h
  · exact h.setEpoll i _

/-- An operation begins. -/
theorem beginOp (i : Nat) (t : TaskId) (x : Handler) (mask : Mask) (ms : Nat) (ctl : EpollCtl) :
    World.Alike fd (w.beginOp i t x mask ms ctl) (v.beginOp i t x mask ms ctl) := by
  have henabled := ((h.call (.setHandler t (some x) false)).epollEnable i mask t ctl)
  unfold World.beginOp
  dsimp only
  split
  · exact (henabled.setTimed _ _).call (.scheduleTimeout t ms)
  · exact henabled.setTimed _ _

/-- An operation ends. -/
theorem endOp (i : Nat) (t : TaskId) (side : Side) (mask : Mask) (ms : Nat) (ctl : EpollCtl) :
    World.Alike fd (w.endOp i t (.post i side) mask ms ctl)
      (v.endOp i t (.post i side) mask ms ctl) := by
  have hdisabled := h.epollDisable i mask ctl
  unfold World.endOp
  dsimp only
  split
  · exact (hdisabled.call (.dequeue t)).schedule False.elim
  · exact hdisabled.schedule False.elim

/-- A task that is in no container is initialised. -/
theorem init {t : TaskId} (hfree : (w.task t).status = .free) :
    World.Alike fd (w.init t) (v.init t) := by
  have hfree' : (v.task t).status = .free := (h.task t).status.symm.trans hfree
  have hmachine : MachineAlike TaskId.IsOp { w.machine with sched := taskInit w.machine.sched t }
      { v.machine with sched := taskInit v.machine.sched t } :=
    ⟨h.machine.sched.init t, h.machine.now, h.machine.stack, h.machine.aborted⟩
  have hinit : ∀ s : Sched TaskId Handler, (s.tasks t).status = .free →
      SchedStep 0 (fun _ _ => True) s (taskInit s t) := fun s hs => .init s t hs
  exact h.withMachine hmachine (h.left.step (hinit _ hfree)) (h.right.step (hinit _ hfree'))

/-- User code runs in both or in none. -/
theorem userRuns : w.userRuns = v.userRuns := by
  unfold World.userRuns
  rw [h.entered, h.machine.stack]

/-- The same tasks are there for user code. -/
theorem mayCall (c : Call TaskId Handler) : w.mayCall c = v.mayCall c := by
  have huse : ∀ t, w.mayUse t = v.mayUse t := by
    intro t
    unfold World.mayUse
    rw [h.live]
  unfold World.mayCall
  cases c with
  | setHandler t handler fast => dsimp only; rw [huse]
  | schedule t => exact huse t
  | scheduleTimeout t ms => exact huse t
  | dequeue t => exact huse t

/-- While a private task is in a container or its handler executes, the handler is
that of the pending operation, which both processes have. -/
theorem handler (hw : w.Wired) (hv : v.Wired) {t : TaskId}
    (hbusy : (w.task t).status ≠ .free ∨ w.entered = some t) :
    (w.task t).handler = (v.task t).handler := by
  cases t with
  | op i side =>
      have hslot : (w.slot i).Busy i side := by
        rcases hbusy with hstatus | hentered
        · exact (hw.slots i).busy hstatus
        · exact ((hw.slots i).entered side (World.slot_entered hentered)).1
      have hawaits : (w.slot i).awaits i side = (v.slot i).awaits i side := by
        have hlive : (w.slot i).live = (v.slot i).live := congrFun h.live i
        have hphase : (w.slot i).conn.phase = (v.slot i).conn.phase := (h.connAt i).phase
        unfold Slot.awaits
        rw [hlive, hphase]
      obtain ⟨x, hx⟩ := Option.ne_none_iff_exists'.mp hslot
      have hleft : (w.task (.op i side)).handler = some x := (hw.slots i).handler side x hx
      have hright : (v.task (.op i side)).handler = some x :=
        (hv.slots i).handler side x (hawaits.symm.trans hx)
      rw [hleft, hright]
  | post i side => exact (h.task (.post i side)).handler False.elim
  | user n => exact (h.task (.user n)).handler False.elim

/-- A round of a loop. -/
theorem loop (hw : w.Wired) (hv : v.Wired) : Option.Rel (World.Alike fd) w.loop v.loop := by
  rw [World.loop_eq h.left.placed, World.loop_eq h.right.placed]
  rcases rel_cases (h.machine.loop h.left.placed h.right.placed) with
    ⟨hm, hn⟩ | ⟨m, n, hm, hn, hmn⟩
  · rw [hm, hn]
    exact .none
  · have hleft : SchedStep w.machine.now (fun _ _ => True) w.machine.sched m.sched :=
      Machine.loop_sched hm
    have hright : SchedStep v.machine.now (fun _ _ => True) v.machine.sched n.sched :=
      Machine.loop_sched hn
    have hafter := h.withMachine hmn (h.left.step hleft) (h.right.step hright)
    rw [hm, hn]
    refine .some ?_
    unfold World.looped
    rw [← h.machine.stack, ← h.machine.sched.taskHead]
    split
    · rename_i _ t others _ hqueue
      have hqueued : (w.task t).status = .queue :=
        (h.left.placed.queued t).mpr (by simp [hqueue])
      have hsame : (w.task t).handler = (v.task t).handler :=
        h.handler hw hv (Or.inl (by simp [hqueued]))
      exact hafter.called ((h.left.placed.loop_cases hm).handler t |>.trans
        (hsame.trans ((h.right.placed.loop_cases hn).handler t).symm))
    · exact hafter

/-- `spe_conn_create`, on a descriptor whose connection is not live. -/
theorem create (hw : w.Wired) {i : Nat} (hdead : w.live i = false) :
    World.Alike fd (w.create i) (v.create i) := by
  have hop : ∀ side, (w.task (.op i side)).status = .free := (hw.slots i).idle_of_dead hdead
  have hpost : ∀ side, (w.task (.post i side)).status = .free := (hw.slots i).dead hdead
  have hfd : (w.conns i).conn.fd = (v.conns i).conn.fd :=
    congrArg OffRead.fd (h.connAt i).conn.offRead
  have hcreated : (ConnState.created (w.conns i).conn i).Alike (.created (v.conns i).conn i) := by
    apply created_alike
    · rw [create_fd, create_fd, hfd]
    · exact fun k => (h.connAt i).conn.flags k
  have hconns : i ≠ fd → ConnState.created (w.conns i).conn i = .created (v.conns i).conn i := by
    intro hi
    rw [h.conns i hi]
  unfold World.create
  dsimp only
  rw [← hfd]
  by_cases hzero : (w.conns i).conn.fd = 0
  · rw [if_pos hzero, if_pos hzero]
    have hinits : World.Alike fd (w.initTasks i) (v.initTasks i) :=
      (((h.init (hop .read)).init (World.init_free _ (hop .write))).init
        (World.init_free _ (World.init_free _ (hpost .read)))).init
        (World.init_free _ (World.init_free _ (World.init_free _ (hpost .write))))
    exact (hinits.setConn i hcreated hconns).setLive i true
  · rw [if_neg hzero, if_neg hzero]
    exact (h.setConn i hcreated hconns).setLive i true

/-- `spe_conn_destroy`. -/
theorem destroy (i : Nat) (ctl : EpollCtl) :
    World.Alike fd (w.destroy i ctl) (v.destroy i ctl) := by
  have htasks : World.Alike fd (w.dequeueTasks i) (v.dequeueTasks i) :=
    (((h.call (.dequeue (.readTask i))).call (.dequeue (.writeTask i))).call
      (.dequeue (.postReadTask i))).call (.dequeue (.postWriteTask i))
  exact (htasks.epollDisable i _ ctl).setLive i false

/-- An event of `epoll_wait`. -/
theorem ready (hw : w.Wired) (i : Nat) (side : Side) :
    World.Alike fd (w.ready i side) (v.ready i side) := by
  have hslow : ∀ t : TaskId, t.IsOp → (w.task t).fast = false := by
    intro t ht
    cases t with
    | op j sd => exact hw.calls (.op j sd)
    | post j sd => exact ht.elim
    | user n => exact ht.elim
  have hepoll : w.epolls i = v.epolls i := congrFun h.epolls i
  unfold World.ready
  rw [hepoll]
  split
  · split
    · exact ⟨h.maxfd, h.machine, h.left, h.right, h.epolls, h.conns, h.conn, h.entered, rfl,
        h.live⟩
    · rename_i t _
      exact h.schedule (hslow t)
  · exact h

/-- An operation of the connection begins, with the time limit that both have. -/
theorem begins (k : OpKind) (i : Nat) (ctl : EpollCtl) :
    World.Alike fd
      (w.beginOp i (.op i k.side) (k.handler i) k.mask (k.expireTime (w.conns i).conn) ctl)
      (v.beginOp i (.op i k.side) (k.handler i) k.mask (k.expireTime (v.conns i).conn) ctl) := by
  rw [(h.connAt i).conn.limits k]
  exact h.beginOp i _ _ _ _ ctl

/-- An operation of the connection ends. -/
theorem ends (k : OpKind) (i : Nat) (ctl : EpollCtl) :
    World.Alike fd
      (w.endOp i (.op i k.side) (.post i k.side) k.mask (k.expireTime (w.conns i).conn) ctl)
      (v.endOp i (.op i k.side) (.post i k.side) k.mask (k.expireTime (v.conns i).conn) ctl) := by
  rw [(h.connAt i).conn.limits k]
  exact h.endOp i _ _ _ _ ctl

/-- The same event of both connections of a descriptor. -/
theorem connStep {i : Nat} {cev : ConnEvent}
    (hsuits : i = fd → cev.Suits (w.conns fd).conn (v.conns fd).conn) :
    Option.Rel (fun a b => World.Alike fd (w.setConn i a.1) (v.setConn i b.1) ∧ a.2 = b.2)
      (Spe.connStep (w.conns i) cev) (Spe.connStep (v.conns i) cev) := by
  by_cases hi : i = fd
  · subst hi
    rcases rel_cases (h.conn.step (hsuits rfl)) with ⟨hc, hd⟩ | ⟨x, y, hc, hd, halike, hout⟩
    · rw [hc, hd]
      exact .none
    · rw [hc, hd]
      exact .some ⟨h.setConn i halike (fun hne => absurd rfl hne), hout⟩
  · rw [h.conns i hi]
    cases Spe.connStep (v.conns i) cev with
    | none => exact .none
    | some res => exact .some ⟨h.setConn i (.refl _) (fun _ => rfl), rfl⟩

/-- A call of a connection's user. -/
theorem userCall {i : Nat} {cev : ConnEvent} (ctl : EpollCtl)
    (hsuits : i = fd → cev.Suits (w.conns fd).conn (v.conns fd).conn) :
    Option.Rel (World.Alike fd) (w.userCall i cev ctl) (v.userCall i cev ctl) := by
  unfold World.userCall
  rcases rel_cases (h.connStep hsuits) with ⟨hc, hd⟩ | ⟨⟨c, out⟩, ⟨d, out'⟩, hc, hd, hset, hout⟩
  · rw [hc, hd]
    exact .none
  · obtain rfl : out = out' := hout
    rw [hc, hd]
    cases cev with
    | issue req al r =>
        cases out with
        | refused => exact .some hset
        | done => exact .some (hset.schedule False.elim)
        | pending => exact .some (hset.begins .read i ctl)
    | flush r =>
        cases out with
        | refused => exact .some hset
        | done => exact .some (hset.schedule False.elim)
        | pending => exact .some (hset.begins .flush i ctl)
    | connect res =>
        cases out with
        | refused => exact .some hset
        | done => exact .some (hset.schedule False.elim)
        | pending => exact .some (hset.begins .connect i ctl)
    | write bs al => exact .some hset
    | setTimeout r x => exact .some hset
    | useBuffer b => exact .some hset
    | readNormal timedOut al rs => exact .none
    | writeNormal timedOut r => exact .none
    | connectNormal timedOut soError => exact .none

end World.Alike

/-- The environment answers the same to the handlers of two connections. -/
def World.Answer.Suits (c d : Conn) : World.Answer → Prop
  | .read al rs =>
      SameReads al.read c.readBuffer d.readBuffer rs ∧
        ∀ src, SameAppend c.buffer d.buffer src al.append
  | _ => True

/-- What suits the handlers suits the event that the handler makes. -/
theorem OpKind.event_suits {k : OpKind} {timedOut : Bool} {ans : World.Answer} {cev : ConnEvent}
    (h : k.event timedOut ans = some cev) {c d : Conn} (hsuits : ans.Suits c d) :
    cev.Suits c d := by
  unfold OpKind.event at h
  split at h
  · exact Option.some.inj h ▸ hsuits
  · exact Option.some.inj h ▸ trivial
  · exact Option.some.inj h ▸ trivial
  · cases h

/-- The execution of a handler. -/
theorem World.Alike.handle {fd : Nat} {w v : World} (h : World.Alike fd w v) (hw : w.Wired)
    (hv : v.Wired) {ans : World.Answer} (ctl : EpollCtl)
    (hsuits : ∀ side, w.entered = some (.op fd side) →
      ans.Suits (w.conns fd).conn (v.conns fd).conn) :
    Option.Rel (World.Alike fd) (w.handle ans ctl) (v.handle ans ctl) := by
  cases hentered : w.entered with
  | none =>
      have hentered' : v.entered = none := h.entered.symm.trans hentered
      rw [World.handle, hentered, World.handle, hentered']
      exact .none
  | some t =>
      obtain ⟨i, k, rfl, _, hperforms, hhandler⟩ := hw.executes hentered
      have hentered' : v.entered = some (.op i k.side) := h.entered.symm.trans hentered
      have hhandler' : (v.task (.op i k.side)).handler = some (k.handler i) :=
        (h.handler hw hv (Or.inr hentered)).symm.trans hhandler
      have hperforms' : (v.conns i).Performs k :=
        (ConnState.performs_congr (h.connAt i).phase k).mp hperforms
      have hbit : (w.task (.op i k.side)).timeout = (v.task (.op i k.side)).timeout :=
        (h.task (.op i k.side)).timeout trivial
      have hleave : World.Alike fd w.leave v.leave := h.setEntered none
      rw [World.handle_eq ans ctl hentered hhandler hperforms,
        World.handle_eq ans ctl hentered' hhandler' hperforms', ← hbit]
      cases hevent : k.event (w.task (.op i k.side)).timeout ans with
      | none => exact .none
      | some cev =>
          refine rel_map (hleave.connStep ?_) ?_
          · intro hi
            subst hi
            exact OpKind.event_suits hevent (hsuits k.side hentered)
          · rintro ⟨c, out⟩ ⟨d, out'⟩ ⟨hset, hout⟩
            obtain rfl : out = out' := hout
            have hends := hset.ends k i ctl
            rw [World.setConn_self, World.setConn_self] at hends
            unfold World.handled
            dsimp only
            split
            · exact hends
            · exact hset

/-- The environment answers the same to one descriptor's connection in two
processes. -/
def WorldEvent.Suits (fd : Nat) (p : World × World) : WorldEvent → Prop
  | .userCall i cev _ => i = fd → cev.Suits (p.1.conns fd).conn (p.2.conns fd).conn
  | .handle ans _ =>
      ∀ side, p.1.entered = some (.op fd side) →
        ans.Suits (p.1.conns fd).conn (p.2.conns fd).conn
  | _ => True

/-- **Step lemma.**  The same event does the same to two processes that are alike. -/
theorem World.Alike.step {fd : Nat} {w v : World} (h : World.Alike fd w v) (hw : w.Wired)
    (hv : v.Wired) {ev : WorldEvent} (hsuits : ev.Suits fd (w, v)) :
    Option.Rel (World.Alike fd) (w.step ev) (v.step ev) := by
  have hstops : (w.crashed = true ∨ w.machine.aborted = true) ↔
      (v.crashed = true ∨ v.machine.aborted = true) := by
    rw [h.crashed, h.machine.aborted]
  unfold World.step
  by_cases hstopped : w.crashed = true ∨ w.machine.aborted = true
  · rw [if_pos hstopped, if_pos (hstops.mp hstopped)]
    exact .none
  rw [if_neg hstopped, if_neg (fun hd => hstopped (hstops.mpr hd))]
  cases ev with
  | call c =>
      refine rel_ite (by rw [h.userRuns, h.mayCall]) ?_
      rintro ⟨_, hmay⟩
      cases c with
      | schedule t =>
          refine .some (h.schedule ?_)
          intro hop
          cases t with
          | op i side => cases hmay
          | post i side => exact hop.elim
          | user n => exact hop.elim
      | setHandler t handler fast => exact .some (h.call _)
      | scheduleTimeout t ms => exact .some (h.call _)
      | dequeue t => exact .some (h.call _)
  | init n =>
      refine rel_ite (by rw [h.userRuns, (h.task (.user n)).status]) ?_
      rintro ⟨_, hfree⟩
      exact .some (h.init hfree)
  | epollEnable i mask n ctl =>
      refine rel_ite (by rw [h.userRuns]) ?_
      exact fun _ => .some (h.epollEnable i mask (.user n) ctl)
  | epollDisable i mask ctl =>
      refine rel_ite (by rw [h.userRuns]) ?_
      exact fun _ => .some (h.epollDisable i mask ctl)
  | create i =>
      refine rel_ite (by rw [h.userRuns, h.maxfd, h.live]) ?_
      rintro ⟨_, _, hdead⟩
      exact .some (h.create hw hdead)
  | destroy i ctl =>
      refine rel_ite (by rw [h.userRuns, h.live]) ?_
      exact fun _ => .some (h.destroy i ctl)
  | userCall i cev ctl =>
      refine rel_ite (by rw [h.userRuns, h.live]) ?_
      exact fun _ => h.userCall ctl hsuits
  | ready i side =>
      refine rel_ite (by rw [h.userRuns]) ?_
      exact fun _ => .some (h.ready hw i side)
  | process =>
      refine rel_ite (by rw [h.userRuns]) ?_
      intro _
      apply Option.Rel.some
      apply h.withMachine h.machine.process
      · rw [w.machine.process_keeps.1]
        exact h.left
      · rw [v.machine.process_keeps.1]
        exact h.right
  | loop =>
      refine rel_ite (by rw [h.entered]) ?_
      exact fun _ => h.loop hw hv
  | ret =>
      refine rel_ite (by rw [h.entered]) ?_
      intro _
      rcases rel_cases h.machine.ret with ⟨hm, hn⟩ | ⟨m, n, hm, hn, hmn⟩
      · rw [hm, hn]
        exact .none
      · have hleft := h.left
        have hright := h.right
        rw [(Machine.ret_keeps hm).1] at hleft
        rw [(Machine.ret_keeps hn).1] at hright
        rw [hm, hn]
        exact .some (h.withMachine hmn hleft hright)
  | handle ans ctl => exact h.handle hw hv ctl hsuits
  | tick now =>
      refine rel_ite (by rw [h.machine.now]) ?_
      intro _
      exact .some (h.withMachine ⟨h.machine.sched, rfl, h.machine.stack, h.machine.aborted⟩
        h.left h.right)

end Spe
