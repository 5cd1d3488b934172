import Spe.ConnCompletion
import Spe.WorldConn

/-!
# The timers of pending operations

A pending operation that was started with a time limit has its private task in the
timer tree or in the run queue, as long as every execution of its handler completes
it (`stays_timed`).  An event of `epoll_wait` takes the task out of the timer tree;
when the handler then leaves the operation pending, nothing puts it back, and the
task is in neither (`stays_timed_fails`).

`Slot.Timed` is the invariant.  A step keeps it if and only if it does not execute
the handler of an operation with a time limit without completing it
(`World.Wired.timed_step_iff`).
-/

namespace Spe

open Transition

/-- The task of a side with a pending operation that has a time limit is not idle,
unless its handler is executing. -/
def Slot.Timed (s : Slot) (fd : Nat) : Prop :=
  ∀ side, s.Busy fd side → s.timed side = true → s.entered ≠ some side →
    (s.op side).status ≠ .free

/-- A task that is not fast is queued after `spe_task_schedule`. -/
theorem Task.scheduled_slow {k : Task Handler} (h : k.fast = false) :
    k.scheduled.status = .queue := by
  unfold Task.scheduled
  by_cases hqueue : k.status = .queue
  · rw [if_pos hqueue]
    exact hqueue
  · rw [if_neg hqueue, h]
    rfl

/-- One task of a slot changes and is not idle afterwards, or its handler executes. -/
theorem Slot.Timed.retask {s : Slot} {fd : Nat} (h : s.Timed fd) (hquiet : s.entered = none)
    (side : Side) {k : Task Handler} {entered : Option Side}
    (hside : entered = some side ∨ k.status ≠ .free) :
    { s with op := Function.update s.op side k, entered := entered }.Timed fd := by
  intro sd hbusy htimed hentered
  by_cases hsd : sd = side
  · subst hsd
    rcases hside with hexecutes | hstatus
    · exact absurd hexecutes hentered
    · change (Function.update s.op sd k sd).status ≠ .free
      rw [Function.update_self]
      exact hstatus
  · change (Function.update s.op side k sd).status ≠ .free
    rw [Function.update_of_ne hsd]
    have hbefore : s.entered ≠ some sd := by
      rw [hquiet]
      exact nofun
    exact h sd hbusy htimed hbefore

/-- An operation begins: with a time limit its task is armed. -/
theorem Slot.Timed.begun {s : Slot} {fd : Nat} (h : s.Timed fd) {side : Side} {x : Handler}
    {c : ConnState} {mask : Mask} {now ms : Nat} {ctl : EpollCtl} (hlive : s.live = true)
    (hquiet : s.entered = none)
    (hawaits : c.phase.awaits fd = Function.update (s.conn.phase.awaits fd) side (some x)) :
    (s.begun fd side x c mask now ms ctl).Timed fd := by
  obtain ⟨_, _, hstatus⟩ := Task.started_spec x now ms (s.op side)
  intro sd hbusy htimed _
  change Function.update s.timed side (decide (ms ≠ 0)) sd = true at htimed
  change (Function.update s.op side ((s.op side).started x now ms) sd).status ≠ .free
  by_cases hsd : sd = side
  · subst hsd
    rw [Function.update_self] at htimed ⊢
    exact hstatus (of_decide_eq_true htimed)
  · rw [Function.update_of_ne hsd] at htimed ⊢
    have hbefore : s.Busy fd sd := by
      unfold Slot.Busy at hbusy ⊢
      rw [s.awaits_begun mask now ms ctl hlive hawaits, Function.update_of_ne hsd] at hbusy
      exact hbusy
    apply h sd hbefore htimed
    rw [hquiet]
    exact nofun

/-- An operation ends in its handler: the other side is as before. -/
theorem Slot.Timed.ended {s : Slot} {fd : Nat} (h : s.Timed fd) {side : Side} {c : ConnState}
    {post : Side → Task Handler} {mask : Mask} {ms : Nat} {ctl : EpollCtl}
    (hlive : s.live = true) (hentered : s.entered = some side)
    (hawaits : c.phase.awaits fd = Function.update (s.conn.phase.awaits fd) side none) :
    (s.ended side c post mask ms ctl).Timed fd := by
  intro sd hbusy htimed _
  unfold Slot.Busy at hbusy
  rw [s.awaits_ended post mask ms ctl hlive hawaits] at hbusy
  by_cases hsd : sd = side
  · subst hsd
    rw [Function.update_self] at hbusy
    exact absurd rfl hbusy
  · rw [Function.update_of_ne hsd] at hbusy
    have hother : s.entered ≠ some sd := by
      rw [hentered]
      intro heq
      cases heq
      exact hsd rfl
    have hstatus := h sd hbusy htimed hother
    change (ite (ms ≠ 0) (Function.update s.op side (s.op side).freed) s.op sd).status ≠ .free
    split
    · rw [Function.update_of_ne hsd]
      exact hstatus
    · exact hstatus

/-- **Step lemma.**  A slot stays timed when no handler of an operation with a time
limit leaves it pending. -/
theorem SlotMove.timed {fd : Nat} {stays : Side → Prop} {s s' : Slot}
    (h : SlotMove fd stays s s') (hs : s.Wired fd) (ht : s.Timed fd)
    (hstays : ∀ side, stays side → s.timed side = false) : s'.Timed fd := by
  cases h with
  | keep => exact ht
  | posts post hposts => exact ht
  | epoll e hpointers => exact ht
  | fire side hquiet htimer => exact ht.retask hquiet side (Or.inr nofun)
  | take side hquiet hqueue => exact ht.retask hquiet side (Or.inl rfl)
  | ready side sd hquiet hpointer =>
      have hqueue := Task.scheduled_slow (hs.slow side)
      exact ht.retask hquiet side (Or.inr (by simp [hqueue]))
  | conn c post hlive hnext hphase =>
      intro side hbusy htimed hentered
      exact ht side ((s.busy_acts hphase side).mp hbusy) htimed hentered
  | begins side x c mask now ms ctl hlive hquiet hnext hidle hphase hcoherent hawaits hmask =>
      exact ht.begun hlive hquiet hawaits
  | goesOn side c hstay hentered hnext hphase =>
      intro sd hbusy htimed _
      have hne : sd ≠ side := by
        intro heq
        subst heq
        have hlimit : s.timed sd = true := htimed
        cases (hstays sd hstay).symm.trans hlimit
      have hother : s.entered ≠ some sd := by
        rw [hentered]
        intro heq
        cases heq
        exact hne rfl
      exact ht sd ((s.busy_acts hphase sd).mp hbusy) htimed hother
  | ends side c post mask ms ctl hends hentered hnext hcoherent hawaits hmask =>
      obtain ⟨hbusy, _⟩ := hs.entered side hentered
      exact ht.ended hbusy.live hentered hawaits
  | created op post hquiet hdead hop =>
      intro side hbusy
      have hidle : (ConnState.created s.conn.conn fd).phase.awaits fd side = none := by
        cases side <;> rfl
      exact absurd hidle hbusy
  | destroyed mask ctl hquiet hmask =>
      intro side hbusy
      cases hbusy.live

/-- A handler that leaves an operation with a time limit pending leaves its task
idle. -/
theorem SlotMove.untimed {fd : Nat} {stays : Side → Prop} {s s' : Slot}
    (h : SlotMove fd stays s s') (hs : s.Wired fd) {side : Side} (hstays : stays side)
    (hentered : s.entered = some side) (hquiet : s'.entered = none)
    (htimed : s.timed side = true) : ¬ s'.Timed fd := by
  obtain ⟨hbusy, hfree⟩ := hs.entered side hentered
  cases h with
  | goesOn sd c hstay hsd hnext hphase =>
      intro ht
      exact ht side ((s.busy_acts hphase side).mpr hbusy) htimed nofun hfree
  | ends sd c post mask ms ctl hends hsd hnext hcoherent hawaits hmask =>
      obtain rfl := Option.some.inj (hentered.symm.trans hsd)
      exact absurd hstays hends
  | keep => cases hentered.symm.trans hquiet
  | posts post hposts => cases hentered.symm.trans hquiet
  | epoll e hpointers => cases hentered.symm.trans hquiet
  | conn c post hlive hnext hphase => cases hentered.symm.trans hquiet
  | fire sd hnone htimer => cases hentered.symm.trans hnone
  | take sd hnone hqueue => cases hentered.symm.trans hnone
  | ready sd sd' hnone hpointer => cases hentered.symm.trans hnone
  | begins sd x c mask now ms ctl hlive hnone hnext hidle hphase hcoherent hawaits hmask =>
      cases hentered.symm.trans hnone
  | created op post hnone hdead hop => cases hentered.symm.trans hnone
  | destroyed mask ctl hnone hmask => cases hentered.symm.trans hnone

/-- After the execution of a handler of `spe_conn.c` none is executing. -/
theorem World.Wired.handle_quiet {w w' : World} (hw : w.Wired) {ans : World.Answer}
    {ctl : EpollCtl} (h : w.handle ans ctl = some w') : w'.entered = none := by
  obtain ⟨fd, k, _, c, _, _, _, _, _, _, _, rfl⟩ := hw.handle_cases h
  have hleave : (w.leave.setConn fd c).Calls := hw.calls
  split
  · exact (hleave.acts_endOp fd _ _ _ _ ctl).entered
  · rfl

/-- Every slot is timed. -/
def World.Timed (w : World) : Prop := ∀ fd, (w.slot fd).Timed fd

/-- The event does not execute the handler of an operation with a time limit without
completing it: the time is up, or what the kernel answers completes it. -/
def World.Finishes (w : World) (ev : WorldEvent) : Prop :=
  ∀ fd side, w.Stays ev fd side → w.timed (.op fd side) = false

/-- **Step lemma.**  From a timed state the next one is timed exactly under the
condition. -/
theorem World.Wired.timed_step_iff {w w' : World} (hw : w.Wired) (ht : w.Timed)
    {ev : WorldEvent} (h : w.step ev = some w') : w'.Timed ↔ w.Finishes ev := by
  have hstepped := hw.step h
  constructor
  · intro ht' fd side hstays
    by_contra hlimit
    have hlimit : (w.slot fd).timed side = true := Bool.eq_true_of_not_eq_false hlimit
    have hstays' := hstays
    obtain ⟨ans, ctl, rfl, hentered, _⟩ := hstays'
    have hhandle : w.handle ans ctl = some w' := (Option.ite_none_left_eq_some.mp h).2
    have hquiet := World.slot_quiet (hw.handle_quiet hhandle) fd
    exact (hstepped.moves fd).untimed (hw.slots fd) hstays (World.slot_entered hentered) hquiet
      hlimit (ht' fd)
  · intro hfinishes fd
    exact (hstepped.moves fd).timed (hw.slots fd) (ht fd) (hfinishes fd)

/-- Nothing is pending at the start. -/
theorem World.timed_start (maxfd : Nat) : (World.start maxfd).Timed := by
  intro fd side hbusy
  cases hbusy.live

/-- **Run lemma.**  A run whose steps all meet the condition stays timed. -/
theorem World.timed_of_run {maxfd : Nat} {w : World} {es : List WorldEvent}
    (h : Run World.step World.Finishes (World.start maxfd) es w) : w.Wired ∧ w.Timed := by
  refine h.invariant (fun w => w.Wired ∧ w.Timed)
    ⟨World.wired_start maxfd, World.timed_start maxfd⟩ ?_
  intro w ev w' hboth hfinishes hstep
  obtain ⟨hw, ht⟩ := hboth
  exact ⟨(hw.step hstep).wired hw, (hw.timed_step_iff ht hstep).mpr hfinishes⟩

/-- A read or a connect is pending on the connection: `_read_type` is not
`SPE_CONN_READNONE`.  On the write side a write is pending, and no connect, which
waits with `_read_task` only. -/
def World.Pending (w : World) (fd : Nat) (side : Side) : Prop :=
  w.live fd = true ∧
    match side with
    | .read => (w.conns fd).conn.readType ≠ .readNone
    | .write => (w.conns fd).conn.writeType ≠ .writeNone ∧ (w.conns fd).hist.connecting = false

/-- The task is in the timer tree or in the run queue. -/
def World.Waits (w : World) (t : TaskId) : Prop :=
  t ∈ w.machine.sched.timers ∨ t ∈ w.machine.sched.taskHead

/-- A pending operation that was started with a time limit has its task in the timer
tree or in the run queue, unless its handler is executing. -/
def World.StaysTimed (w : World) : Prop :=
  ∀ fd side, w.Pending fd side → w.timed (.op fd side) = true →
    w.entered ≠ some (.op fd side) → w.Waits (.op fd side)

/-- The sides of a wired process that are busy are those with a pending operation. -/
theorem World.Wired.busy_iff {w : World} (hw : w.Wired) (fd : Nat) (side : Side) :
    (w.slot fd).Busy fd side ↔ w.Pending fd side := by
  have hphase : (w.slot fd).conn.phase = (w.conns fd).phase := rfl
  by_cases hlive : w.live fd = true
  · have hcoherent : (w.conns fd).phase.Coherent := (hw.slots fd).coherent hlive
    rw [Slot.Busy, Slot.awaits_live hlive, hphase]
    cases hconnecting : (w.conns fd).phase.connecting with
    | true =>
        obtain ⟨hreading, _⟩ := hcoherent hconnecting
        have htype : (w.conns fd).conn.readType ≠ .readNone := of_decide_eq_true hreading
        have hhist : (w.conns fd).hist.connecting = true := hconnecting
        cases side <;> simp [Phase.awaits, World.Pending, hconnecting, hhist, htype, hlive]
    | false =>
        have hhist : (w.conns fd).hist.connecting = false := hconnecting
        cases side <;>
          simp [Phase.awaits, World.Pending, hhist, hlive, ConnState.phase]
  · constructor
    · intro hbusy
      exact absurd hbusy.live hlive
    · intro hpending
      exact absurd hpending.1 hlive

/-- The tasks of a placed process that are not idle are those in a container. -/
theorem Placed.waits_iff {w : World} (h : Placed w.machine.sched) (t : TaskId) :
    (w.task t).status ≠ .free ↔ w.Waits t := by
  have hqueue : (w.task t).status = .queue ↔ t ∈ w.machine.sched.taskHead := h.queued t
  have htimer : (w.task t).status = .timer ↔ t ∈ w.machine.sched.timers := h.timed t
  rw [World.Waits, ← hqueue, ← htimer]
  cases (w.task t).status <;> simp

/-- In a wired process the invariant of the slots says that pending operations stay
timed. -/
theorem World.Wired.staysTimed_iff {w : World} (hw : w.Wired) : w.StaysTimed ↔ w.Timed := by
  constructor
  · intro h fd side hbusy htimed hentered
    have hexecutes : w.entered ≠ some (.op fd side) :=
      fun hop => hentered (World.slot_entered hop)
    have hpending := (hw.busy_iff fd side).mp hbusy
    exact (hw.placed.waits_iff _).mpr (h fd side hpending htimed hexecutes)
  · intro h fd side hpending htimed hexecutes
    have hentered : (w.slot fd).entered ≠ some side :=
      fun hside => hexecutes (World.entered_of_slot hside)
    have hbusy := (hw.busy_iff fd side).mpr hpending
    exact (hw.placed.waits_iff _).mp (h fd side hbusy htimed hentered)

/-- **A pending operation stays timed** in every run in which no handler leaves an
operation with a time limit pending. -/
theorem stays_timed {maxfd : Nat} {w : World} {es : List WorldEvent}
    (h : Run World.step World.Finishes (World.start maxfd) es w) : w.StaysTimed := by
  obtain ⟨hw, htimed⟩ := World.timed_of_run h
  exact hw.staysTimed_iff.mpr htimed

/-- **The condition is exact.**  Pending operations stay timed in all states of a run
if and only if no handler of the run leaves an operation with a time limit pending. -/
theorem stays_timed_exact {maxfd : Nat} {w : World} {es : List WorldEvent}
    (h : Run World.step anyStep (World.start maxfd) es w) :
    (∀ fs gs m, es = fs ++ gs → Run World.step anyStep (World.start maxfd) fs m →
      m.StaysTimed) ↔ Run World.step World.Finishes (World.start maxfd) es w := by
  refine h.exact World.Wired World.StaysTimed (World.wired_start maxfd) ?_ ?_ ?_
  · exact (World.wired_start maxfd).staysTimed_iff.mpr (World.timed_start maxfd)
  · intro w ev w' hw _ hstep
    exact (hw.step hstep).wired hw
  · intro w ev w' hw ht hstep
    have hw' := (hw.step hstep).wired hw
    rw [hw'.staysTimed_iff]
    exact hw.timed_step_iff (hw.staysTimed_iff.mp ht) hstep

/-- Only the execution of a handler can leave an operation pending. -/
theorem World.finishes_of_ne {w : World} {ev : WorldEvent}
    (h : ∀ ans ctl, ev ≠ .handle ans ctl) : w.Finishes ev := by
  intro fd side hboth
  obtain ⟨ans, ctl, hev, _⟩ := hboth
  exact absurd hev (h ans ctl)

/-- A read of `n` bytes with a limit of a second waits, and the handler is called for
an event. -/
def readEvents (n : Nat) : List WorldEvent :=
  [.create 5, .userCall 5 (.setTimeout 1000 0) ctlGood,
    .userCall 5 (.issue (.readbytes n) zeroAllocs (.err .eagain)) ctlGood,
    .ready 5 .read, .process, .loop]

/-- A byte arrives for the handler. -/
def byteEvent : WorldEvent := .handle (.read zeroAllocs [.data [97]]) ctlGood

/-- The handler returns, the post task runs, and a read of one byte waits. -/
def nextEvents : List WorldEvent :=
  [.ret, .loop, .userCall 5 (.issue (.readbytes 1) zeroAllocs (.err .eagain)) ctlGood]

/-- A read completes in its handler, and the next one is pending and timed. -/
theorem stays_timed_next : ∃ w,
    Run World.step World.Finishes (World.start 8)
      (readEvents 1 ++ [byteEvent] ++ nextEvents) w ∧
    w.Pending 5 .read ∧ w.timed (.readTask 5) = true ∧ w.entered = none ∧
    w.Waits (.readTask 5) := by
  have hreads : (exec World.step (World.start 8) (readEvents 1)).map (fun w =>
      (w.entered, ((w.conns 5).conn.readNormal (w.task (.readTask 5)).timeout zeroAllocs
        [.data [97]]).map Prod.snd)) = some (some (.readTask 5), some .done) := by decide +kernel
  obtain ⟨m, hexec, hm⟩ := Option.map_eq_some_iff.mp hreads
  obtain ⟨hentered, hdone⟩ := Prod.mk.inj hm
  obtain ⟨⟨c, out⟩, hnormal, hout⟩ := Option.map_eq_some_iff.mp hdone
  have hfinishes : m.Finishes byteEvent := by
    intro fd side hboth
    obtain ⟨ans, ctl, hev, hside, hstays⟩ := hboth
    obtain ⟨rfl, rfl⟩ := TaskId.op.inj (Option.some.inj (hentered.symm.trans hside))
    obtain ⟨rfl, _⟩ := WorldEvent.handle.inj hev
    exact absurd ((readNormal_done_iff hnormal).mp hout) hstays
  have hlast : (exec World.step (World.start 8) (readEvents 1 ++ [byteEvent] ++ nextEvents)).map
      (fun w => decide (w.live 5 = true ∧ (w.conns 5).conn.readType ≠ .readNone ∧
        w.timed (.readTask 5) = true ∧ w.entered = none)) = some true := by decide +kernel
  obtain ⟨w, hw, hfields⟩ := Option.map_eq_some_iff.mp hlast
  obtain ⟨hlive, htype, hlimit, hquiet⟩ := of_decide_eq_true hfields
  obtain ⟨m', hbefore, htail⟩ := (run_iff_exec.mpr hw).split
  obtain ⟨_, hhandle⟩ := hbefore.through (run_iff_exec.mpr hexec)
  have hfirst : Run World.step World.Finishes (World.start 8) (readEvents 1) m := by
    refine run_of_exec ?_ hexec
    intro ev hev w
    apply World.finishes_of_ne
    intro ans ctl heq
    subst heq
    simp [readEvents] at hev
  have hmiddle : Run World.step World.Finishes m [byteEvent] m' := by
    cases hhandle with
    | cons hstep _ tail =>
        cases tail
        exact Run.single hstep hfinishes
  have hrest : Run World.step World.Finishes m' nextEvents w := by
    refine run_of_exec ?_ (run_iff_exec.mp htail)
    intro ev hev w
    apply World.finishes_of_ne
    intro ans ctl heq
    subst heq
    simp [nextEvents] at hev
  have hrun := (hfirst.append hmiddle).append hrest
  have hpending : w.Pending 5 .read := ⟨hlive, htype⟩
  have hexecutes : w.entered ≠ some (.readTask 5) := by
    rw [hquiet]
    exact nofun
  exact ⟨w, hrun, hpending, hlimit, hquiet,
    stays_timed hrun 5 .read hpending hlimit hexecutes⟩

/-- **A partial read loses the timer.**  A read of two bytes with a limit of a second
receives one: it is still pending, no handler is executing, and `_read_task` is
neither in the timer tree nor in the run queue. -/
theorem stays_timed_fails : ∃ w,
    Run World.step anyStep (World.start 8) (readEvents 2 ++ [byteEvent, .ret, .loop]) w ∧
    w.Pending 5 .read ∧ w.timed (.readTask 5) = true ∧ w.entered = none ∧
    w.machine.stack = [] ∧ ¬ w.Waits (.readTask 5) ∧ ¬ w.StaysTimed := by
  have hlast : (exec World.step (World.start 8) (readEvents 2 ++ [byteEvent, .ret, .loop])).map
      (fun w => decide (w.live 5 = true ∧ (w.conns 5).conn.readType ≠ .readNone ∧
        w.timed (.readTask 5) = true ∧ w.entered = none ∧ w.machine.stack = [] ∧
        w.machine.sched.timers = [] ∧ w.machine.sched.taskHead = [])) =
      some true := by decide +kernel
  obtain ⟨w, hexec, hfields⟩ := Option.map_eq_some_iff.mp hlast
  obtain ⟨hlive, htype, hlimit, hquiet, hstack, htimers, hqueue⟩ := of_decide_eq_true hfields
  have hpending : w.Pending 5 .read := ⟨hlive, htype⟩
  have hlost : ¬ w.Waits (.readTask 5) := by
    intro hcase
    rcases hcase with htimer | hqueued
    · rw [htimers] at htimer
      cases htimer
    · rw [hqueue] at hqueued
      cases hqueued
  refine ⟨w, run_iff_exec.mpr hexec, hpending, hlimit, hquiet, hstack, hlost, ?_⟩
  intro h
  refine hlost (h 5 .read hpending hlimit ?_)
  rw [hquiet]
  exact nofun

end Spe
