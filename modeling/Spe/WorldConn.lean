import Spe.WorldOps

/-!
# What a step of a connection does to its slot

The calls of a connection's user, the executions of its handlers, its creation
and its destruction.  With the steps of the scheduler these are all steps of the
process (`World.Wired.step`): a process stays wired on every run (`wired_of_run`),
the scheduler inside it only does what its own machine does (`machine_run`), and so
does each connection (`conn_run`).
-/

namespace Spe

open Transition

/-- A connection acts without starting or ending an operation. -/
theorem World.Wired.conn_step {w : World} (hw : w.Wired) {ev : WorldEvent}
    (habort : w.machine.aborted = false) (huser : w.userRuns = true) {fd : Nat}
    {c : ConnState} (hlive : w.live fd = true) (hnext : ∃ cev, connNext (w.conns fd) cev = some c)
    (hphase : c.phase = (w.conns fd).phase) : w.Stepped ev (w.setConn fd c) := by
  obtain ⟨hcan, _⟩ := World.userRuns_spec huser
  obtain ⟨hself, hother⟩ := w.slot_setConn fd c
  refine hw.stepped hcan habort (World.Acts.of_machine rfl rfl rfl rfl) (moves_of fd ?_ hother)
  rw [hself]
  exact SlotMove.conn c (w.slot fd).post hlive hnext hphase

/-- A connection completes an operation at once. -/
theorem World.Wired.done_step {w : World} (hw : w.Wired) {ev : WorldEvent}
    (habort : w.machine.aborted = false) (huser : w.userRuns = true) {fd : Nat}
    {c : ConnState} (side : Side) (hlive : w.live fd = true)
    (hnext : ∃ cev, connNext (w.conns fd) cev = some c)
    (hphase : c.phase = (w.conns fd).phase) :
    w.Stepped ev ((w.setConn fd c).schedule (.post fd side)) := by
  obtain ⟨hcan, _⟩ := World.userRuns_spec huser
  obtain ⟨hself, hother⟩ := w.slot_setConn fd c
  have hset : w.Acts (w.setConn fd c) := World.Acts.of_machine rfl rfl rfl rfl
  have hcalls := hset.calls hw.calls
  obtain ⟨⟨post, hselfPost⟩, hotherPost⟩ := hcalls.slot_schedule fd side
  refine hw.stepped hcan habort (hset.trans (hcalls.acts_schedule _)) (moves_of fd ?_ ?_)
  · rw [hselfPost, hself]
    exact SlotMove.conn c post hlive hnext hphase
  · intro fd' hfd
    rw [hotherPost fd' hfd, hother fd' hfd]

/-- A connection leaves an operation pending. -/
theorem World.Wired.begin_step {w : World} (hw : w.Wired) {ev : WorldEvent}
    (habort : w.machine.aborted = false) (huser : w.userRuns = true) {fd : Nat}
    {c : ConnState} (side : Side) (h : Handler) (mask : Mask) (ms : Nat) (ctl : EpollCtl)
    (hlive : w.live fd = true) (hnext : ∃ cev, connNext (w.conns fd) cev = some c)
    (hidle : (w.conns fd).phase.awaits fd side = none)
    (hphase : (w.conns fd).phase.connecting = false) (hcoherent : c.phase.Coherent)
    (hawaits : c.phase.awaits fd =
      Function.update ((w.conns fd).phase.awaits fd) side (some h))
    (hmask : ∀ sd, mask.has sd → sd = side ∨ c.phase.connecting) :
    w.Stepped ev ((w.setConn fd c).beginOp fd (.op fd side) h mask ms ctl) := by
  obtain ⟨hcan, hquiet⟩ := World.userRuns_spec huser
  obtain ⟨hself, hother⟩ := w.slot_setConn fd c
  have hset : w.Acts (w.setConn fd c) := World.Acts.of_machine rfl rfl rfl rfl
  obtain ⟨hselfBegin, hotherBegin⟩ :=
    (w.setConn fd c).slot_beginOp side h mask ms ctl (hw.bound fd hlive)
  have hbusy : ¬ (w.slot fd).Busy fd side := by
    intro hbusy
    rw [Slot.Busy, Slot.awaits_live hlive] at hbusy
    exact hbusy hidle
  refine hw.stepped hcan habort (hset.trans (World.acts_beginOp _ _ _ _ _ _ _))
    (moves_of fd ?_ ?_)
  · rw [hselfBegin, hself, w.setConn_self]
    exact SlotMove.begins side h c mask w.machine.now ms ctl hlive (World.slot_quiet hquiet fd)
      hnext hbusy hphase hcoherent hawaits hmask
  · intro fd' hfd
    rw [hotherBegin fd' hfd, hother fd' hfd]

/-- A call that succeeds is a step of the connection. -/
theorem connNext_of_step {s c : ConnState} {cev : ConnEvent} {out : Outcome}
    (h : connStep s cev = some (c, out)) : ∃ cev, connNext s cev = some c := by
  refine ⟨cev, ?_⟩
  rw [connNext, h]
  rfl

/-- A call of the connection's user. -/
theorem World.Wired.userCall_step {w w' : World} (hw : w.Wired)
    (habort : w.machine.aborted = false) (huser : w.userRuns = true) {fd : Nat}
    {cev : ConnEvent} {ctl : EpollCtl} (hlive : w.live fd = true)
    (hcall : w.userCall fd cev ctl = some w') : w.Stepped (.userCall fd cev ctl) w' := by
  have hcoherent : (w.conns fd).phase.Coherent := (hw.slots fd).coherent hlive
  obtain ⟨c, out, hstep, hhandles, hafter⟩ := World.userCall_cases hcall
  have hnext := connNext_of_step hstep
  cases hstarts : cev.starts with
  | none =>
      obtain ⟨hphase, _⟩ := connStep_else hstarts hhandles hstep
      rw [hstarts] at hafter
      rw [hafter]
      exact hw.conn_step habort huser hlive hnext hphase
  | some k =>
      obtain ⟨_, hquiet, hphase, _⟩ := connStep_starts hcoherent hstarts hstep
      have hfree := connStep_free hcoherent hstarts hstep fd
      rw [hstarts] at hafter
      cases out with
      | refused =>
          rw [hafter]
          exact hw.conn_step habort huser hlive hnext hphase
      | done =>
          rw [hafter]
          exact hw.done_step habort huser k.side hlive hnext hphase
      | pending =>
          rw [if_pos rfl] at hphase
          rw [hafter]
          refine hw.begin_step habort huser k.side (k.handler fd) k.mask _ ctl hlive hnext ?_
            hquiet (ConnState.coherent_next hcoherent hstep) ?_ ?_
          · exact hfree k.side (k.mask_has.mpr (Or.inl rfl))
          · rw [hphase]
            exact Phase.awaits_started hquiet hfree
          · intro sd hsd
            rw [hphase]
            rcases k.mask_has.mp hsd with hside | rfl
            · exact Or.inl hside
            · exact Or.inr rfl

/-- A handler leaves its operation pending. -/
theorem World.Wired.goesOn_step {w : World} (hw : w.Wired) {ev : WorldEvent} {fd : Nat}
    {side : Side} {c : ConnState} (hentered : w.entered = some (.op fd side))
    (hstays : w.Stays ev fd side) (hnext : ∃ cev, connNext (w.conns fd) cev = some c)
    (hphase : c.phase = (w.conns fd).phase) :
    w.Stepped ev (w.leave.setConn fd c) := by
  obtain ⟨hself, hother⟩ := w.leave.slot_setConn fd c
  obtain ⟨hselfLeave, hotherLeave⟩ := World.slot_leave hentered
  refine ⟨moves_of fd ?_ ?_, hw.calls, nofun, hw.bound, ⟨[], Run.nil _⟩⟩
  · rw [hself, hselfLeave]
    exact SlotMove.goesOn side c hstays (World.slot_entered hentered) hnext hphase
  · intro fd' hfd
    rw [hother fd' hfd, hotherLeave fd' hfd]

/-- A handler ends its operation. -/
theorem World.Wired.end_step {w : World} (hw : w.Wired) (habort : w.machine.aborted = false)
    {ev : WorldEvent} {fd : Nat} {side : Side} {c : ConnState}
    (hentered : w.entered = some (.op fd side)) (side' : Side) (mask : Mask) (ms : Nat)
    (ctl : EpollCtl) (hends : ¬ w.Stays ev fd side) (hnext : ∃ cev, connNext (w.conns fd) cev = some c)
    (hcoherent : c.phase.Coherent)
    (hawaits : c.phase.awaits fd = Function.update ((w.conns fd).phase.awaits fd) side none)
    (hmask : ∀ sd, sd = side ∨ (w.conns fd).phase.connecting → mask.has sd) :
    w.Stepped ev ((w.leave.setConn fd c).endOp fd (.op fd side)
      (.post fd side') mask ms ctl) := by
  let w₁ := w.leave.setConn fd c
  obtain ⟨_, hcan⟩ := hw.entered _ hentered
  obtain ⟨hbusy, _⟩ := (hw.slots fd).entered side (World.slot_entered hentered)
  obtain ⟨hself, hother⟩ := w.leave.slot_setConn fd c
  obtain ⟨hselfLeave, hotherLeave⟩ := World.slot_leave hentered
  have hcalls : w₁.Calls := hw.calls
  have hacts := hcalls.acts_endOp fd (.op fd side) (.post fd side') mask ms ctl
  obtain ⟨hrun, _, _⟩ := hacts.run hcan habort
  obtain ⟨⟨post, hselfEnd⟩, hotherEnd⟩ :=
    hcalls.slot_endOp side side' mask ms ctl (hw.bound fd hbusy.live)
  refine ⟨moves_of fd ?_ ?_, hacts.calls hcalls, ?_, ?_, hrun⟩
  · have hmove : SlotMove fd (w.Stays ev fd) (w.slot fd) _ :=
      SlotMove.ends side c post mask ms ctl hends (World.slot_entered hentered) hnext hcoherent
        hawaits hmask
    rw [hself, hselfLeave] at hselfEnd
    rw [hselfEnd]
    exact hmove
  · intro fd' hfd
    rw [hotherEnd fd' hfd, hother fd' hfd, hotherLeave fd' hfd]
  · intro t ht
    rw [hacts.entered] at ht
    cases ht
  · intro fd' hlive
    rw [hacts.live] at hlive
    rw [hacts.maxfd]
    exact hw.bound fd' hlive

/-- The execution of a handler of `spe_conn.c`. -/
theorem World.Wired.handle_step {w w' : World} (hw : w.Wired)
    (habort : w.machine.aborted = false) {ans : World.Answer} {ctl : EpollCtl}
    (hhandle : w.handle ans ctl = some w') : w.Stepped (.handle ans ctl) w' := by
  obtain ⟨fd, k, cev, c, out, hentered, hlive, hperforms, hhandles, hstep, hcompletes, rfl⟩ :=
    hw.handle_cases hhandle
  have hcoherent : (w.conns fd).phase.Coherent := (hw.slots fd).coherent hlive
  obtain ⟨_, hphase, _⟩ := connStep_handles hcoherent hhandles hstep
  have hnext := connNext_of_step hstep
  by_cases hdone : out = .done
  · rw [if_pos hdone] at hphase ⊢
    refine hw.end_step habort hentered k.side k.mask _ ctl ?_ hnext
      (ConnState.coherent_next hcoherent hstep) ?_ ?_
    · rintro ⟨_, _, ⟨⟩, _, hstays⟩
      exact hstays (hcompletes.mp hdone)
    · rw [hphase]
      exact hperforms.awaits_finished fd
    · intro sd hcase
      refine k.mask_has.mpr (hcase.imp id ?_)
      exact hperforms.connecting_iff.mp
  · rw [if_neg hdone] at hphase ⊢
    refine hw.goesOn_step hentered ⟨ans, ctl, rfl, hentered, ?_⟩ hnext hphase
    exact fun hends => hdone (hcompletes.mpr hends)

/-- The tasks of a connection are initialised while they are idle: no other slot
changes, and this one in its tasks only. -/
theorem World.initTasks_spec {w : World} {fd : Nat}
    (hop : ∀ side, (w.task (.op fd side)).status = .free)
    (hpost : ∀ side, (w.task (.post fd side)).status = .free) :
    w.Acts (w.initTasks fd) ∧
    (∃ op post, (w.initTasks fd).slot fd = { w.slot fd with op := op, post := post } ∧
      ∀ side, (op side).status = .free ∧ (op side).fast = false) ∧
    ∀ fd', fd' ≠ fd → (w.initTasks fd).slot fd' = w.slot fd' := by
  let w₁ := w.init (.readTask fd)
  let w₂ := w₁.init (.writeTask fd)
  let w₃ := w₂.init (.postReadTask fd)
  let w₄ := w₃.init (.postWriteTask fd)
  have hacts₁ : w.Acts w₁ := World.acts_init (hop .read)
  have hacts₂ : w₁.Acts w₂ := World.acts_init (World.init_free _ (hop .write))
  have hacts₃ : w₂.Acts w₃ :=
    World.acts_init (World.init_free _ (World.init_free _ (hpost .read)))
  have hacts₄ : w₃.Acts w₄ :=
    World.acts_init (World.init_free _ (World.init_free _ (World.init_free _ (hpost .write))))
  obtain ⟨_, hother₁⟩ := w.slot_op (m := w₁.machine) rfl
  obtain ⟨_, hother₂⟩ := w₁.slot_op (m := w₂.machine) rfl
  obtain ⟨_, hother₃⟩ := w₂.slot_post (m := w₃.machine) rfl
  obtain ⟨_, hother₄⟩ := w₃.slot_post (m := w₄.machine) rfl
  have hself : w₄.slot fd =
      { w.slot fd with
        op := fun side => w₄.task (.op fd side)
        post := fun side => w₄.task (.post fd side) } := rfl
  refine ⟨hacts₁.trans (hacts₂.trans (hacts₃.trans hacts₄)), ⟨_, _, hself, ?_⟩, ?_⟩
  · intro side
    cases side <;> simp [w₄, w₃, w₂, w₁, World.init_task]
  · intro fd' hfd
    exact (hother₄ fd' hfd).trans ((hother₃ fd' hfd).trans
      ((hother₂ fd' hfd).trans (hother₁ fd' hfd)))

/-- Whether a connection is live belongs to one slot. -/
theorem World.slot_setLive (w : World) (fd : Nat) (b : Bool) :
    ({ w with live := Function.update w.live fd b } : World).slot fd =
      { w.slot fd with live := b } ∧
    ∀ fd', fd' ≠ fd →
      ({ w with live := Function.update w.live fd b } : World).slot fd' = w.slot fd' := by
  constructor
  · unfold World.slot
    dsimp only
    rw [Function.update_self]
    rfl
  · intro fd' hfd
    unfold World.slot
    dsimp only
    rw [Function.update_of_ne hfd]
    rfl

/-- `spe_conn_create`. -/
theorem World.Wired.create_step {w : World} (hw : w.Wired) (habort : w.machine.aborted = false)
    (huser : w.userRuns = true) {fd : Nat} (hbound : fd < w.maxfd) (hdead : w.live fd = false) :
    w.Stepped (.create fd) (w.create fd) := by
  obtain ⟨hcan, hquiet⟩ := World.userRuns_spec huser
  have hslot := hw.slots fd
  have hop : ∀ side, (w.task (.op fd side)).status = .free := hslot.idle_of_dead hdead
  have hpost : ∀ side, (w.task (.post fd side)).status = .free := hslot.dead hdead
  let w₁ := if (w.conns fd).conn.fd = 0 then w.initTasks fd else w
  let w₂ := w₁.setConn fd (.created (w.conns fd).conn fd)
  obtain ⟨hinit, hinitSelf, hinitOther⟩ := World.initTasks_spec hop hpost
  have hacts : w.Acts w₁ := by
    by_cases hfresh : (w.conns fd).conn.fd = 0
    · rw [show w₁ = _ from if_pos hfresh]
      exact hinit
    · rw [show w₁ = _ from if_neg hfresh]
      exact World.Acts.of_machine rfl rfl rfl rfl
  have hself : ∃ op post, w₁.slot fd = { w.slot fd with op := op, post := post } ∧
      ∀ side, (op side).status = .free ∧ (op side).fast = false := by
    by_cases hfresh : (w.conns fd).conn.fd = 0
    · rw [show w₁ = _ from if_pos hfresh]
      exact hinitSelf
    · rw [show w₁ = _ from if_neg hfresh]
      exact ⟨_, _, rfl, fun side => ⟨hop side, hslot.slow side⟩⟩
  have hother : ∀ fd', fd' ≠ fd → w₁.slot fd' = w.slot fd' := by
    intro fd' hfd
    by_cases hfresh : (w.conns fd).conn.fd = 0
    · rw [show w₁ = _ from if_pos hfresh]
      exact hinitOther fd' hfd
    · rw [show w₁ = _ from if_neg hfresh]
  obtain ⟨op, post, hself, hfree⟩ := hself
  obtain ⟨hselfConn, hotherConn⟩ := w₁.slot_setConn fd (.created (w.conns fd).conn fd)
  obtain ⟨hselfLive, hotherLive⟩ := w₂.slot_setLive fd true
  have hacts₂ : w.Acts w₂ := hacts.trans (World.Acts.of_machine rfl rfl rfl rfl)
  obtain ⟨hrun, _, _⟩ := hacts₂.run hcan habort
  refine ⟨moves_of fd ?_ ?_, hacts₂.calls hw.calls, ?_, ?_, hrun⟩
  · rw [hselfConn, hself] at hselfLive
    refine hselfLive.symm ▸ ?_
    exact SlotMove.created op post (World.slot_quiet hquiet fd) hdead hfree
  · intro fd' hfd
    exact (hotherLive fd' hfd).trans ((hotherConn fd' hfd).trans (hother fd' hfd))
  · intro t ht
    have hnone : w₂.entered = none := hacts₂.entered.trans hquiet
    cases hnone.symm.trans ht
  · intro fd' hlive
    have hmaxfd : w₂.maxfd = w.maxfd := hacts₂.maxfd
    change fd' < w₂.maxfd
    rw [hmaxfd]
    by_cases hfd : fd' = fd
    · rw [hfd]
      exact hbound
    · have hold : w₂.live fd' = true := by
        simpa [World.create, w₂, hfd] using hlive
      rw [hacts₂.live] at hold
      exact hw.bound fd' hold

/-- The tasks of a connection are dequeued: no other slot changes, and this one in its
tasks only. -/
theorem World.dequeueTasks_spec (w : World) (fd : Nat) :
    w.Acts (w.dequeueTasks fd) ∧
    (w.dequeueTasks fd).slot fd =
      { w.slot fd with
        op := fun side => (w.task (.op fd side)).freed
        post := fun side => (w.task (.post fd side)).freed } ∧
    ∀ fd', fd' ≠ fd → (w.dequeueTasks fd).slot fd' = w.slot fd' := by
  let w₁ := w.call (.dequeue (.readTask fd))
  let w₂ := w₁.call (.dequeue (.writeTask fd))
  let w₃ := w₂.call (.dequeue (.postReadTask fd))
  let w₄ := w₃.call (.dequeue (.postWriteTask fd))
  have hacts₁ : w.Acts w₁ := w.acts_call _ (by intros; contradiction)
  have hacts₂ : w₁.Acts w₂ := w₁.acts_call _ (by intros; contradiction)
  have hacts₃ : w₂.Acts w₃ := w₂.acts_call _ (by intros; contradiction)
  have hacts₄ : w₃.Acts w₄ := w₃.acts_call _ (by intros; contradiction)
  obtain ⟨_, hother₁⟩ := w.slot_call_op (c := .dequeue (.readTask fd)) rfl
  obtain ⟨_, hother₂⟩ := w₁.slot_call_op (c := .dequeue (.writeTask fd)) rfl
  obtain ⟨_, hother₃⟩ := w₂.slot_call_post (c := .dequeue (.postReadTask fd)) rfl
  obtain ⟨_, hother₄⟩ := w₃.slot_call_post (c := .dequeue (.postWriteTask fd)) rfl
  have hself : w₄.slot fd =
      { w.slot fd with
        op := fun side => w₄.task (.op fd side)
        post := fun side => w₄.task (.post fd side) } := rfl
  have hop : ∀ side, w₄.task (.op fd side) = (w.task (.op fd side)).freed := by
    intro side
    cases side <;> simp [w₄, w₃, w₂, w₁, World.call_task, Call.task, Call.effect]
  have hpost : ∀ side, w₄.task (.post fd side) = (w.task (.post fd side)).freed := by
    intro side
    cases side <;> simp [w₄, w₃, w₂, w₁, World.call_task, Call.task, Call.effect]
  refine ⟨hacts₁.trans (hacts₂.trans (hacts₃.trans hacts₄)), ?_, ?_⟩
  · simp only [hop, hpost] at hself
    exact hself
  · intro fd' hfd
    exact (hother₄ fd' hfd).trans ((hother₃ fd' hfd).trans
      ((hother₂ fd' hfd).trans (hother₁ fd' hfd)))

/-- `spe_conn_destroy`. -/
theorem World.Wired.destroy_step {w : World} (hw : w.Wired) (habort : w.machine.aborted = false)
    (huser : w.userRuns = true) {fd : Nat} (hlive : w.live fd = true) (ctl : EpollCtl) :
    w.Stepped (.destroy fd ctl) (w.destroy fd ctl) := by
  obtain ⟨hcan, hquiet⟩ := World.userRuns_spec huser
  let w₁ := w.dequeueTasks fd
  let w₂ := w₁.epollDisable fd (SPE_EPOLL_READ ||| SPE_EPOLL_WRITE) ctl
  obtain ⟨hdequeue, hself, hother⟩ := w.dequeueTasks_spec fd
  have hbound : fd < w₁.maxfd := by
    rw [hdequeue.maxfd]
    exact hw.bound fd hlive
  have hacts : w.Acts w₂ := hdequeue.trans (w₁.acts_epollDisable fd _ ctl)
  obtain ⟨hselfEpoll, hotherEpoll⟩ :=
    w₁.slot_epollDisable (SPE_EPOLL_READ ||| SPE_EPOLL_WRITE) ctl hbound
  obtain ⟨hselfLive, hotherLive⟩ := w₂.slot_setLive fd false
  obtain ⟨hrun, _, _⟩ := hacts.run hcan habort
  refine ⟨moves_of fd ?_ ?_, hacts.calls hw.calls, ?_, ?_, hrun⟩
  · rw [hselfEpoll, hself] at hselfLive
    refine hselfLive.symm ▸ ?_
    exact SlotMove.destroyed (SPE_EPOLL_READ ||| SPE_EPOLL_WRITE) ctl
      (World.slot_quiet hquiet fd) has_both
  · intro fd' hfd
    exact (hotherLive fd' hfd).trans ((hotherEpoll fd' hfd).trans (hother fd' hfd))
  · intro t ht
    have hnone : w₂.entered = none := hacts.entered.trans hquiet
    cases hnone.symm.trans ht
  · intro fd' hlive'
    have hmaxfd : w₂.maxfd = w.maxfd := hacts.maxfd
    change fd' < w₂.maxfd
    rw [hmaxfd]
    by_cases hfd : fd' = fd
    · rw [hfd]
      exact hw.bound fd hlive
    · have hold : w₂.live fd' = true := by
        simpa [World.destroy, w₂, w₁, hfd] using hlive'
      rw [hacts.live] at hold
      exact hw.bound fd' hold

/-- `spe_epoll_enable`, called by user code. -/
theorem World.Wired.enable_step {w : World} (hw : w.Wired) (habort : w.machine.aborted = false)
    (huser : w.userRuns = true) (fd : Nat) (mask : Mask) (n : Nat) (ctl : EpollCtl) :
    w.Stepped (.epollEnable fd mask n ctl) (w.epollEnable fd mask (.user n) ctl) := by
  unfold World.epollEnable
  split
  · exact hw.same_step rfl (fun _ => rfl) rfl rfl rfl
  · apply hw.epoll_step habort huser fd
    intro side t ht
    rw [Epoll.enable_taskOf] at ht
    split at ht
    · exact Or.inr ⟨n, (Option.some.inj ht).symm⟩
    · exact Or.inl ht

/-- `spe_epoll_disable`, called by user code. -/
theorem World.Wired.disable_step {w : World} (hw : w.Wired) (habort : w.machine.aborted = false)
    (huser : w.userRuns = true) (fd : Nat) (mask : Mask) (ctl : EpollCtl) :
    w.Stepped (.epollDisable fd mask ctl) (w.epollDisable fd mask ctl) := by
  unfold World.epollDisable
  split
  · exact hw.same_step rfl (fun _ => rfl) rfl rfl rfl
  · apply hw.epoll_step habort huser fd
    intro side t ht
    rw [Epoll.disable_taskOf] at ht
    split at ht
    · cases ht
    · exact Or.inl ht

/-- **Step theorem.**  What a step of a wired process does to every slot and to the
scheduler. -/
theorem World.Wired.step {w w' : World} (hw : w.Wired) {ev : WorldEvent}
    (h : w.step ev = some w') : w.Stepped ev w' := by
  unfold World.step at h
  by_cases hstopped : w.crashed = true ∨ w.machine.aborted = true
  · rw [if_pos hstopped] at h
    cases h
  rw [if_neg hstopped] at h
  have habort : w.machine.aborted = false := by
    simpa using fun habort => hstopped (Or.inr habort)
  cases ev with
  | call c =>
      obtain ⟨⟨huser, hmay⟩, hcall⟩ := Option.ite_none_right_eq_some.mp h
      have hstepped := hw.call_step habort huser hmay
      cases c with
      | schedule t =>
          rw [← Option.some.inj hcall, hw.calls.schedule_eq]
          exact hstepped
      | setHandler t handler fast =>
          rw [← Option.some.inj hcall]
          exact hstepped
      | scheduleTimeout t ms =>
          rw [← Option.some.inj hcall]
          exact hstepped
      | dequeue t =>
          rw [← Option.some.inj hcall]
          exact hstepped
  | init n =>
      obtain ⟨⟨huser, hfree⟩, ⟨⟩⟩ := Option.ite_none_right_eq_some.mp h
      exact hw.init_step habort huser hfree
  | epollEnable fd mask n ctl =>
      obtain ⟨huser, ⟨⟩⟩ := Option.ite_none_right_eq_some.mp h
      exact hw.enable_step habort huser fd mask n ctl
  | epollDisable fd mask ctl =>
      obtain ⟨huser, ⟨⟩⟩ := Option.ite_none_right_eq_some.mp h
      exact hw.disable_step habort huser fd mask ctl
  | create fd =>
      obtain ⟨⟨huser, hbound, hdead⟩, ⟨⟩⟩ := Option.ite_none_right_eq_some.mp h
      exact hw.create_step habort huser hbound hdead
  | destroy fd ctl =>
      obtain ⟨⟨huser, hlive⟩, ⟨⟩⟩ := Option.ite_none_right_eq_some.mp h
      exact hw.destroy_step habort huser hlive ctl
  | userCall fd cev ctl =>
      obtain ⟨⟨huser, hlive⟩, hcall⟩ := Option.ite_none_right_eq_some.mp h
      exact hw.userCall_step habort huser hlive hcall
  | ready fd side =>
      obtain ⟨huser, ⟨⟩⟩ := Option.ite_none_right_eq_some.mp h
      exact hw.ready_step habort huser fd side
  | process =>
      obtain ⟨huser, ⟨⟩⟩ := Option.ite_none_right_eq_some.mp h
      exact hw.process_step habort huser
  | loop =>
      obtain ⟨hquiet, hloop⟩ := Option.ite_none_right_eq_some.mp h
      exact hw.loop_step habort hquiet hloop
  | ret =>
      obtain ⟨hquiet, hret⟩ := Option.ite_none_right_eq_some.mp h
      obtain ⟨m, hm, rfl⟩ := Option.map_eq_some_iff.mp hret
      exact hw.ret_step habort hquiet hm
  | handle ans ctl => exact hw.handle_step habort h
  | tick now =>
      obtain ⟨hnow, ⟨⟩⟩ := Option.ite_none_right_eq_some.mp h
      exact hw.tick_step habort hnow

/-- The start of a process is wired. -/
theorem World.wired_start (maxfd : Nat) : (World.start maxfd).Wired := by
  refine ⟨placed_start, ?_, ?_, nofun, nofun⟩
  · intro t
    cases t with
    | op fd side => rfl
    | post fd side => exact nofun
    | user n => exact nofun
  · intro fd
    refine ⟨fun _ _ => rfl, nofun, fun _ => rfl, fun _ _ => rfl, ?_, nofun, nofun⟩
    intro side t ht
    cases side <;> cases ht

/-- **Run lemma.**  Every state that a process reaches is wired. -/
theorem World.wired_of_run {maxfd : Nat} {ok : World → WorldEvent → Prop} {w : World}
    {es : List WorldEvent} (h : Run World.step ok (World.start maxfd) es w) : w.Wired :=
  h.invariant World.Wired (World.wired_start maxfd)
    (fun _ _ _ hw _ hstep => (hw.step hstep).wired hw)

/-- **Refinement.**  In every run of the process the scheduler makes a run of its own
machine: what holds of all runs of the machine holds of the scheduler here. -/
theorem World.machine_run {maxfd : Nat} {ok : World → WorldEvent → Prop} {w : World}
    {es : List WorldEvent} (h : Run World.step ok (World.start maxfd) es w) :
    ∃ ms, Run Machine.step anyStep (Machine.start TaskId Handler) ms w.machine := by
  have hwired : Run World.step (fun w _ => w.Wired) (World.start maxfd) es w :=
    h.strengthen World.Wired (World.wired_start maxfd)
      (fun _ _ _ hw _ hstep => (hw.step hstep).wired hw) (fun _ _ _ hw _ _ => hw)
  have hsim : ∀ w e w', World.Wired w → World.step w e = some w' →
      ∃ ms, Run Machine.step anyStep w.machine ms w'.machine :=
    fun w e w' hw hstep => (hw.step hstep).run
  exact hwired.simulate hsim

/-- A live connection is in a state that its own functions reach after its creation. -/
def Slot.Lives (s : Slot) (fd : Nat) : Prop :=
  s.live = true → ∃ c es, Run connNext anyStep (ConnState.created c fd) es s.conn

/-- A move of a slot is a step of its connection, or none. -/
theorem SlotMove.lives {fd : Nat} {stays : Side → Prop} {s s' : Slot}
    (h : SlotMove fd stays s s') (hs : s.Wired fd) (hlives : s.Lives fd) : s'.Lives fd := by
  have hstep : ∀ c, s.live = true → (∃ ev, connNext s.conn ev = some c) →
      ∃ c₀ es, Run connNext anyStep (ConnState.created c₀ fd) es c := by
    intro c hlive hboth
    obtain ⟨ev, hnext⟩ := hboth
    obtain ⟨c₀, es, hrun⟩ := hlives hlive
    exact ⟨c₀, es ++ [ev], hrun.append (Run.single hnext trivial)⟩
  cases h with
  | keep => exact hlives
  | posts post hposts => exact hlives
  | epoll e hpointers => exact hlives
  | fire side hquiet htimer => exact hlives
  | take side hquiet hqueue => exact hlives
  | ready side sd hquiet hpointer => exact hlives
  | conn c post hlive hnext hphase => exact fun _ => hstep c hlive hnext
  | begins side x c mask now ms ctl hlive hquiet hnext hidle hphase hcoherent hawaits hmask =>
      exact fun _ => hstep c hlive hnext
  | goesOn side c hstays hentered hnext hphase =>
      obtain ⟨hbusy, _⟩ := hs.entered side hentered
      exact fun _ => hstep c hbusy.live hnext
  | ends side c post mask ms ctl hends hentered hnext hcoherent hawaits hmask =>
      obtain ⟨hbusy, _⟩ := hs.entered side hentered
      exact fun _ => hstep c hbusy.live hnext
  | created op post hquiet hdead hop => exact fun _ => ⟨s.conn.conn, [], Run.nil _⟩
  | destroyed mask ctl hquiet hmask => exact nofun

/-- **Refinement.**  In every run of the process each live connection makes a run of its
own functions since its creation. -/
theorem World.conn_run {maxfd : Nat} {ok : World → WorldEvent → Prop} {w : World}
    {es : List WorldEvent} (h : Run World.step ok (World.start maxfd) es w) {fd : Nat}
    (hlive : w.live fd = true) :
    ∃ c cs, Run connNext anyStep (ConnState.created c fd) cs (w.conns fd) := by
  have hinv : w.Wired ∧ ∀ fd, (w.slot fd).Lives fd := by
    refine h.invariant (fun w => w.Wired ∧ ∀ fd, (w.slot fd).Lives fd) ?_ ?_
    · exact ⟨World.wired_start maxfd, nofun⟩
    · intro w ev w' hboth _ hstep
      obtain ⟨hw, hlives⟩ := hboth
      have hstepped := hw.step hstep
      exact ⟨hstepped.wired hw, fun fd => (hstepped.moves fd).lives (hw.slots fd) (hlives fd)⟩
  exact hinv.2 fd hlive

end Spe
