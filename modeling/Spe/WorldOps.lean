import Spe.ConnFlags
import Spe.WorldStep

/-!
# Operations in the event loop

What a call of a connection's user does to the process, and what an execution of a
handler does, said once for the three kinds of operations (`World.userCall_cases`,
`World.Wired.handle_cases`): a call completes its operation and schedules its post
task, or begins it; a handler ends its operation or leaves it pending.

`World.SameTables` says which steps touch neither the connections nor the epoll
table.
-/

namespace Spe

open Transition

/-- The handler of the operation. -/
def OpKind.handler (fd : Nat) : OpKind → Handler
  | .read => .readNormal fd
  | .connect => .connectNormal fd
  | .flush => .writeNormal fd

/-- The events that the operation enables. -/
def OpKind.mask : OpKind → Mask
  | .read => SPE_EPOLL_READ
  | .connect => SPE_EPOLL_READ ||| SPE_EPOLL_WRITE
  | .flush => SPE_EPOLL_WRITE

/-- The sides of the mask: that of the operation, and both for a connect. -/
theorem OpKind.mask_has (k : OpKind) {sd : Side} :
    k.mask.has sd = true ↔ sd = k.side ∨ k = .connect := by
  cases k with
  | read => simp [OpKind.mask, OpKind.side, has_READ]
  | connect => simp [OpKind.mask, has_both]
  | flush => simp [OpKind.mask, OpKind.side, has_WRITE]

/-- A connect is pending exactly if the pending operation is one. -/
theorem ConnState.Performs.connecting_iff {s : ConnState} {k : OpKind} (h : s.Performs k) :
    s.phase.connecting = true ↔ k = .connect := by
  rw [ConnState.performs_phase] at h
  cases k with
  | read => simp [h.2]
  | connect => simp [h.2]
  | flush => simp [h.2]

/-- Before a call starts an operation nothing waits on the sides of its mask. -/
theorem connStep_free {s s' : ConnState} {ev : ConnEvent} {k : OpKind} {out : Outcome}
    (hcoherent : s.phase.Coherent) (hstarts : ev.starts = some k)
    (hstep : connStep s ev = some (s', out)) (fd : Nat) (side : Side)
    (hside : k.mask.has side = true) : s.phase.awaits fd side = none := by
  obtain ⟨_, hquiet, _⟩ := connStep_starts hcoherent hstarts hstep
  cases ev with
  | issue req al r =>
      obtain rfl : .read = k := Option.some.inj hstarts
      obtain rfl := (has_READ side).mp hside
      obtain ⟨htype, _⟩ := Option.ite_none_right_eq_some.mp hstep
      have hreading : s.phase.reading = false := by simp [ConnState.phase, htype]
      simp [Phase.awaits, hquiet, hreading]
  | flush w =>
      obtain rfl : .flush = k := Option.some.inj hstarts
      obtain rfl := (has_WRITE side).mp hside
      obtain ⟨htype, _⟩ := Option.ite_none_right_eq_some.mp hstep
      have hwriting : s.phase.writing = false := by simp [ConnState.phase, htype]
      simp [Phase.awaits, hwriting]
  | connect res =>
      obtain ⟨⟨hread, hwrite⟩, _⟩ := Option.ite_none_right_eq_some.mp hstep
      have hreading : s.phase.reading = false := by simp [ConnState.phase, hread]
      have hwriting : s.phase.writing = false := by simp [ConnState.phase, hwrite]
      cases side <;> simp [Phase.awaits, hquiet, hreading, hwriting]
  | _ => cases hstarts

/-- An operation that starts waits with the task of its side. -/
theorem Phase.awaits_started {p : Phase} (h : p.connecting = false) {k : OpKind} {fd : Nat}
    (hfree : ∀ side, k.mask.has side = true → p.awaits fd side = none) :
    (p.started k).awaits fd =
      Function.update (p.awaits fd) k.side (some (k.handler fd)) := by
  funext side
  cases k with
  | read => cases side <;> simp [Phase.awaits, Phase.started, OpKind.side, OpKind.handler, h]
  | connect =>
      cases side with
      | read => rfl
      | write => exact (hfree .write (has_both _)).symm
  | flush => cases side <;> simp [Phase.awaits, Phase.started, OpKind.side, OpKind.handler, h]

/-- An operation that ends leaves the task of its side without one. -/
theorem ConnState.Performs.awaits_finished {s : ConnState} {k : OpKind} (h : s.Performs k)
    (fd : Nat) :
    (s.phase.finished k).awaits fd = Function.update (s.phase.awaits fd) k.side none := by
  rw [ConnState.performs_phase] at h
  funext side
  cases k with
  | read => cases side <;> simp [Phase.awaits, Phase.finished, OpKind.side, h.2]
  | connect => cases side <;> simp [Phase.awaits, Phase.finished, Phase.idle, OpKind.side, h.2]
  | flush => cases side <;> simp [Phase.awaits, Phase.finished, OpKind.side, h.2]

/-- The connections and the epoll table are as before. -/
structure World.SameTables (w w' : World) : Prop where
  epolls : w'.epolls = w.epolls
  conns : w'.conns = w.conns
  live : w'.live = w.live

/-- Nothing is changed by nothing. -/
theorem World.SameTables.refl (w : World) : w.SameTables w := ⟨rfl, rfl, rfl⟩

/-- Two steps that change nothing there. -/
theorem World.SameTables.trans {w w' w'' : World} (h : w.SameTables w')
    (h' : w'.SameTables w'') : w.SameTables w'' :=
  ⟨h'.epolls.trans h.epolls, h'.conns.trans h.conns, h'.live.trans h.live⟩

/-- A handler that is called. -/
theorem World.called_same (w : World) (t : TaskId) : w.SameTables (w.called t) := by
  unfold World.called
  split
  · exact .refl w
  · split
    · exact ⟨rfl, rfl, rfl⟩
    · exact .refl w

/-- A call into the scheduler. -/
theorem World.call_same (w : World) (c : Call TaskId Handler) : w.SameTables (w.call c) :=
  ⟨rfl, rfl, rfl⟩

/-- A task that is scheduled. -/
theorem World.schedule_same (w : World) (t : TaskId) : w.SameTables (w.schedule t) := by
  unfold World.schedule
  split
  · exact w.call_same _
  · exact (w.call_same _).trans (World.called_same _ _)

/-- An event of `epoll_wait`. -/
theorem World.ready_same (w : World) (fd : Nat) (side : Side) :
    w.SameTables (w.ready fd side) := by
  unfold World.ready
  split
  · split
    · exact ⟨rfl, rfl, rfl⟩
    · exact w.schedule_same _
  · exact .refl w

/-- A round of a loop of `spe_task_process`. -/
theorem World.loop_same {w w' : World} (h : w.loop = some w') : w.SameTables w' := by
  unfold World.loop at h
  split at h
  · cases h
  · rename_i m _
    have hmachine : w.SameTables { w with machine := m } := ⟨rfl, rfl, rfl⟩
    dsimp only at h
    split at h
    · rw [← Option.some.inj h]
      exact hmachine.trans (World.called_same _ _)
    · rw [← Option.some.inj h]
      exact hmachine

/-- The tasks of a connection are initialised. -/
theorem World.initTasks_same (w : World) (fd : Nat) : w.SameTables (w.initTasks fd) :=
  ⟨rfl, rfl, rfl⟩

/-- The tables after an operation has begun. -/
theorem World.beginOp_tables (w : World) (fd : Nat) (t : TaskId) (h : Handler) (mask : Mask)
    (ms : Nat) (ctl : EpollCtl) :
    (w.epollEnable fd mask t ctl).SameTables (w.beginOp fd t h mask ms ctl) := by
  have hset : (w.epollEnable fd mask t ctl).SameTables
      ((w.call (.setHandler t (some h) false)).epollEnable fd mask t ctl) := by
    unfold World.epollEnable World.call
    dsimp only
    split
    · exact ⟨rfl, rfl, rfl⟩
    · exact ⟨rfl, rfl, rfl⟩
  unfold World.beginOp
  dsimp only
  split
  · exact hset.trans ⟨rfl, rfl, rfl⟩
  · exact hset.trans ⟨rfl, rfl, rfl⟩

/-- The tables after an operation has ended. -/
theorem World.endOp_tables (w : World) (fd : Nat) (t post : TaskId) (mask : Mask) (ms : Nat)
    (ctl : EpollCtl) :
    (w.epollDisable fd mask ctl).SameTables (w.endOp fd t post mask ms ctl) := by
  unfold World.endOp
  dsimp only
  split
  · exact (World.call_same _ _).trans (World.schedule_same _ _)
  · exact World.schedule_same _ _

/-- **What a call of the connection's user does**: it changes the connection only,
completes its operation and schedules the post task, or leaves the operation pending
and begins it. -/
theorem World.userCall_cases {w w' : World} {fd : Nat} {cev : ConnEvent} {ctl : EpollCtl}
    (h : w.userCall fd cev ctl = some w') :
    ∃ c out, connStep (w.conns fd) cev = some (c, out) ∧ cev.handles = none ∧
      match cev.starts, out with
      | some k, .done => w' = (w.setConn fd c).schedule (.post fd k.side)
      | some k, .pending =>
          w' = (w.setConn fd c).beginOp fd (.op fd k.side) (k.handler fd) k.mask
            (k.expireTime c.conn) ctl
      | _, _ => w' = w.setConn fd c := by
  unfold World.userCall at h
  cases hstep : connStep (w.conns fd) cev with
  | none =>
      rw [hstep] at h
      cases h
  | some res =>
      obtain ⟨c, out⟩ := res
      rw [hstep] at h
      refine ⟨c, out, rfl, ?_⟩
      cases cev with
      | issue req al r =>
          refine ⟨rfl, ?_⟩
          cases out with
          | refused => exact (Option.some.inj h).symm
          | done => exact (Option.some.inj h).symm
          | pending =>
              have h := (Option.some.inj h).symm
              unfold World.beginRead at h
              rw [w.setConn_self] at h
              exact h
      | flush r =>
          refine ⟨rfl, ?_⟩
          cases out with
          | refused => exact (Option.some.inj h).symm
          | done => exact (Option.some.inj h).symm
          | pending =>
              have h := (Option.some.inj h).symm
              unfold World.beginWrite at h
              rw [w.setConn_self] at h
              exact h
      | connect res =>
          refine ⟨rfl, ?_⟩
          cases out with
          | refused => exact (Option.some.inj h).symm
          | done => exact (Option.some.inj h).symm
          | pending =>
              have h := (Option.some.inj h).symm
              unfold World.beginConnect at h
              rw [w.setConn_self] at h
              exact h
      | write bs al => exact ⟨rfl, (Option.some.inj h).symm⟩
      | setTimeout r x => exact ⟨rfl, (Option.some.inj h).symm⟩
      | useBuffer b => exact ⟨rfl, (Option.some.inj h).symm⟩
      | readNormal timedOut al rs => cases h
      | writeNormal timedOut r => cases h
      | connectNormal timedOut soError => cases h

/-- The task of a kind waits for its handler exactly while an operation of the kind is
pending. -/
theorem Phase.awaits_handler {p : Phase} {fd : Nat} {side : Side} {x : Handler}
    (h : p.awaits fd side = some x) :
    ∃ k : OpKind, k.side = side ∧ k.handler fd = x ∧
      match k with
      | .read => p.reading = true ∧ p.connecting = false
      | .connect => p.connecting = true
      | .flush => p.writing = true ∧ p.connecting = false := by
  cases side with
  | read =>
      unfold Phase.awaits at h
      dsimp only at h
      split at h
      · rename_i hconnecting
        exact ⟨.connect, rfl, Option.some.inj h, hconnecting⟩
      · rename_i hconnecting
        obtain ⟨hreading, hx⟩ := Option.ite_none_right_eq_some.mp h
        exact ⟨.read, rfl, Option.some.inj hx, hreading, Bool.eq_false_iff.mpr hconnecting⟩
  | write =>
      obtain ⟨hconnecting, h⟩ := Option.ite_none_left_eq_some.mp h
      obtain ⟨hwriting, hx⟩ := Option.ite_none_right_eq_some.mp h
      exact ⟨.flush, rfl, Option.some.inj hx, hwriting, Bool.eq_false_iff.mpr hconnecting⟩

/-- The handler that was called executes: one slot has none executing any more. -/
theorem World.slot_leave {w : World} {fd : Nat} {side : Side}
    (hentered : w.entered = some (.op fd side)) :
    w.leave.slot fd = { w.slot fd with entered := none } ∧
    ∀ fd', fd' ≠ fd → w.leave.slot fd' = w.slot fd' := by
  refine ⟨rfl, ?_⟩
  intro fd' hfd
  have hsame : enteredSide w.entered fd' = none := by
    rw [hentered]
    exact if_neg (Ne.symm hfd)
  unfold World.slot
  rw [hsame]
  rfl

/-- The executing handler belongs to its slot. -/
theorem World.slot_entered {w : World} {fd : Nat} {side : Side}
    (hentered : w.entered = some (.op fd side)) : (w.slot fd).entered = some side := by
  change enteredSide w.entered fd = some side
  rw [hentered]
  exact if_pos rfl

/-- A slot with an executing handler is that of the executing handler. -/
theorem World.entered_of_slot {w : World} {fd : Nat} {side : Side}
    (h : (w.slot fd).entered = some side) : w.entered = some (.op fd side) := by
  change enteredSide w.entered fd = some side at h
  unfold enteredSide at h
  split at h
  · rename_i fd' sd hop
    obtain ⟨rfl, hside⟩ := Option.ite_none_right_eq_some.mp h
    rw [hop, Option.some.inj hside]
  · cases h

/-- The event of the connection when the handler of an operation executes; the kernel
answers what that handler asks. -/
def OpKind.event (k : OpKind) (timedOut : Bool) (ans : World.Answer) : Option ConnEvent :=
  match k, ans with
  | .read, .read al rs => some (.readNormal timedOut al rs)
  | .flush, .write r => some (.writeNormal timedOut r)
  | .connect, .connect soError => some (.connectNormal timedOut soError)
  | _, _ => none

/-- The state after the handler of an operation. -/
def World.handled (w : World) (fd : Nat) (k : OpKind) (ctl : EpollCtl)
    (res : ConnState × Outcome) : World :=
  let w := w.leave.setConn fd res.1
  if res.2 = .done then
    w.endOp fd (.op fd k.side) (.post fd k.side) k.mask (k.expireTime res.1.conn) ctl
  else w

/-- **What a handler does**: the step of its connection, and then it ends the operation
or leaves it pending. -/
theorem World.handle_eq {w : World} {fd : Nat} {k : OpKind} (ans : World.Answer) (ctl : EpollCtl)
    (hentered : w.entered = some (.op fd k.side))
    (hhandler : (w.task (.op fd k.side)).handler = some (k.handler fd))
    (hperforms : (w.conns fd).Performs k) :
    w.handle ans ctl = (k.event (w.task (.op fd k.side)).timeout ans).bind fun cev =>
      (connStep (w.conns fd) cev).map (w.handled fd k ctl) := by
  have hleave : (w.leave.task (.op fd k.side)).handler = some (k.handler fd) := hhandler
  rw [World.handle, hentered]
  dsimp only
  rw [hleave]
  cases k with
  | read =>
      cases ans with
      | read al rs =>
          have hstep : connStep (w.conns fd) (.readNormal (w.task (.readTask fd)).timeout al rs) =
              (w.leave.conns fd).readNormal (w.leave.task (.readTask fd)).timeout al rs :=
            if_pos hperforms
          dsimp only [OpKind.event, OpKind.handler, OpKind.side, Option.bind_some]
          rw [hstep]
          cases (w.leave.conns fd).readNormal (w.leave.task (.readTask fd)).timeout al rs with
          | none => rfl
          | some res =>
              dsimp only [Option.map_some, World.handled]
              unfold World.endRead
              rw [World.setConn_self, apply_ite some]
              rfl
      | write r => rfl
      | connect soError => rfl
  | connect =>
      cases ans with
      | connect soError =>
          have hstep : connStep (w.conns fd)
              (.connectNormal (w.task (.readTask fd)).timeout soError) =
              some ((w.leave.conns fd).connectNormal (w.leave.task (.readTask fd)).timeout soError,
                .done) := if_pos hperforms.2
          dsimp only [OpKind.event, OpKind.handler, OpKind.side, Option.bind_some]
          rw [hstep]
          dsimp only [Option.map_some, World.handled]
          unfold World.endConnect
          rw [World.setConn_self, if_pos rfl]
          rfl
      | read al rs => rfl
      | write r => rfl
  | flush =>
      cases ans with
      | write r =>
          have hstep : connStep (w.conns fd) (.writeNormal (w.task (.writeTask fd)).timeout r) =
              some ((w.leave.conns fd).writeNormal (w.leave.task (.writeTask fd)).timeout r) :=
            if_pos hperforms
          dsimp only [OpKind.event, OpKind.handler, OpKind.side, Option.bind_some]
          rw [hstep]
          dsimp only [Option.map_some, World.handled]
          unfold World.endWrite
          rw [World.setConn_self, apply_ite some]
          rfl
      | read al rs => rfl
      | connect soError => rfl

/-- It is the event of the handler that executes. -/
theorem OpKind.event_handles {k : OpKind} {timedOut : Bool} {ans : World.Answer} {cev : ConnEvent}
    (h : k.event timedOut ans = some cev) : cev.handles = some (k, timedOut) := by
  unfold OpKind.event at h
  split at h
  · exact Option.some.inj h ▸ rfl
  · exact Option.some.inj h ▸ rfl
  · exact Option.some.inj h ▸ rfl
  · cases h

/-- The handler ends its operation exactly under its condition. -/
theorem World.completes_iff {w : World} {fd : Nat} {k : OpKind} {ans : World.Answer}
    {cev : ConnEvent} {c : ConnState} {out : Outcome}
    (hevent : k.event (w.task (.op fd k.side)).timeout ans = some cev)
    (hstep : connStep (w.conns fd) cev = some (c, out)) :
    out = .done ↔ w.Completes fd k.side ans := by
  unfold OpKind.event at hevent
  split at hevent
  · obtain rfl := Option.some.inj hevent
    obtain ⟨_, hread⟩ := Option.ite_none_right_eq_some.mp hstep
    obtain ⟨hnormal, _⟩ := ConnState.readNormal_conn hread
    exact readNormal_done_iff hnormal
  · obtain rfl := Option.some.inj hevent
    obtain ⟨_, hwrite⟩ := Option.ite_none_right_eq_some.mp hstep
    obtain ⟨_, rfl⟩ := Prod.mk.inj (Option.some.inj hwrite)
    exact writeNormal_done_iff _ _ _
  · obtain rfl := Option.some.inj hevent
    obtain ⟨_, hconnect⟩ := Option.ite_none_right_eq_some.mp hstep
    obtain ⟨_, rfl⟩ := Prod.mk.inj (Option.some.inj hconnect)
    exact iff_of_true rfl trivial
  · cases hevent

/-- The handler that executes is that of a pending operation. -/
theorem World.Wired.executes {w : World} (hw : w.Wired) {t : TaskId} (hentered : w.entered = some t) :
    ∃ fd k, t = .op fd (OpKind.side k) ∧ w.live fd = true ∧ (w.conns fd).Performs k ∧
      (w.task (.op fd k.side)).handler = some (k.handler fd) := by
  obtain ⟨⟨fd, side, rfl⟩, _⟩ := hw.entered t hentered
  obtain ⟨hbusy, _⟩ := (hw.slots fd).entered side (World.slot_entered hentered)
  obtain ⟨x, hawaits⟩ := Option.ne_none_iff_exists'.mp hbusy
  have hhandler : (w.task (.op fd side)).handler = some x :=
    (hw.slots fd).handler side x hawaits
  rw [Slot.awaits_live hbusy.live] at hawaits
  obtain ⟨k, rfl, rfl, hpending⟩ := Phase.awaits_handler hawaits
  refine ⟨fd, k, rfl, hbusy.live, ?_, hhandler⟩
  rw [ConnState.performs_phase]
  cases k with
  | read => exact hpending
  | connect => exact ⟨((hw.slots fd).coherent hbusy.live hpending).1, hpending⟩
  | flush => exact hpending

/-- **What a handler does**: it is that of a pending operation, whose step it makes with
the timeout bit of its task; it ends the operation, or leaves it pending. -/
theorem World.Wired.handle_cases {w w' : World} (hw : w.Wired) {ans : World.Answer}
    {ctl : EpollCtl} (hhandle : w.handle ans ctl = some w') :
    ∃ (fd : Nat) (k : OpKind) (cev : ConnEvent) (c : ConnState) (out : Outcome),
      w.entered = some (.op fd k.side) ∧ w.live fd = true ∧ (w.conns fd).Performs k ∧
      cev.handles = some (k, (w.task (.op fd k.side)).timeout) ∧
      connStep (w.conns fd) cev = some (c, out) ∧
      (out = .done ↔ w.Completes fd k.side ans) ∧
      w' = if out = .done then
          (w.leave.setConn fd c).endOp fd (.op fd k.side) (.post fd k.side) k.mask
            (k.expireTime c.conn) ctl
        else w.leave.setConn fd c := by
  cases hentered : w.entered with
  | none =>
      unfold World.handle at hhandle
      rw [hentered] at hhandle
      cases hhandle
  | some t =>
      obtain ⟨fd, k, rfl, hlive, hperforms, hhandler⟩ := hw.executes hentered
      rw [World.handle_eq ans ctl hentered hhandler hperforms] at hhandle
      obtain ⟨cev, hevent, hstepped⟩ := Option.bind_eq_some_iff.mp hhandle
      obtain ⟨⟨c, out⟩, hstep, rfl⟩ := Option.map_eq_some_iff.mp hstepped
      exact ⟨fd, k, cev, c, out, rfl, hlive, hperforms, OpKind.event_handles hevent, hstep,
        World.completes_iff hevent hstep, rfl⟩

end Spe
