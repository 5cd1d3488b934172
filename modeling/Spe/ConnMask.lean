import Spe.ConnTimer

/-!
# Pending operations and the epoll table

`_read_type` and `_write_type`, the entry of the connection in `epolls` and its
private tasks are updated separately, by six entry points and three handlers.  While
`epoll_ctl` succeeds they agree (`registered_while_pending`): a bit of the mask is
set exactly while its side has a pending operation, the pointer of that side is the
task that waits, and the task of a side without an operation is in no container.

A connect is pending on both sides and waits with `_read_task` only.

The invariant `World.Attuned` relates the entry to the phase of the connection.
-/

namespace Spe

open Transition

/-- A side of the connection has a pending operation: its type is not `NONE`. -/
def Phase.busy (p : Phase) (side : Side) : Bool :=
  match side with
  | .read => p.reading
  | .write => p.writing

/-- The side whose task waits for the events of a side. -/
def Phase.waiter (p : Phase) (side : Side) : Side := if p.connecting then .read else side

/-- `SPE_EPOLL_READ` is the bit of the read side only. -/
theorem has_READ_sides :
    SPE_EPOLL_READ.has .read = true ∧ SPE_EPOLL_READ.has .write = false := by decide

/-- `SPE_EPOLL_WRITE` is the bit of the write side only. -/
theorem has_WRITE_sides :
    SPE_EPOLL_WRITE.has .read = false ∧ SPE_EPOLL_WRITE.has .write = true := by decide

/-- An operation that starts makes the sides of its mask busy. -/
theorem Phase.busy_started (p : Phase) (k : OpKind) (side : Side) :
    (p.started k).busy side = (p.busy side || k.mask.has side) := by
  cases k <;> cases side <;>
    simp [Phase.busy, Phase.started, OpKind.mask, has_READ_sides, has_WRITE_sides, has_both]

/-- An operation that ends frees the sides of its mask. -/
theorem Phase.busy_finished (p : Phase) (k : OpKind) (side : Side) :
    (p.finished k).busy side = (p.busy side && !k.mask.has side) := by
  cases k <;> cases side <;>
    simp [Phase.busy, Phase.finished, Phase.idle, OpKind.mask, has_READ_sides, has_WRITE_sides,
      has_both]

/-- The task of an operation that starts waits for the sides of its mask; the others
wait as before. -/
theorem Phase.waiter_started {p : Phase} (h : p.connecting = false) (k : OpKind) (side : Side) :
    (p.started k).waiter side = if k.mask.has side then k.side else p.waiter side := by
  cases k <;> cases side <;>
    simp [Phase.waiter, Phase.started, OpKind.mask, OpKind.side, has_READ_sides, has_WRITE_sides,
      has_both, h]

/-- After the end of an operation the sides outside its mask wait as before. -/
theorem Phase.waiter_finished (p : Phase) (k : OpKind) {side : Side}
    (h : k.mask.has side = false) : (p.finished k).waiter side = p.waiter side := by
  cases k with
  | read => rfl
  | flush => rfl
  | connect =>
      rw [OpKind.mask, has_both] at h
      cases h

/-- The entry of a connection agrees with what is pending on it. -/
structure World.Attuned (w : World) (fd : Nat) : Prop where
  bits : ∀ side, (w.epolls fd).wide.has side = (w.live fd && (w.conns fd).phase.busy side)
  tasks : ∀ side, w.live fd = true → (w.conns fd).phase.busy side = true →
    (w.epolls fd).taskOf side = some (.op fd ((w.conns fd).phase.waiter side))

/-- It depends on the entry, on the phase, and on whether the connection is live. -/
theorem World.Attuned.congr {w w' : World} {fd : Nat} (h : w.Attuned fd)
    (hepoll : w'.epolls fd = w.epolls fd) (hphase : (w'.conns fd).phase = (w.conns fd).phase)
    (hlive : w'.live fd = w.live fd) : w'.Attuned fd := by
  constructor
  · intro side
    rw [hepoll, hphase, hlive]
    exact h.bits side
  · intro side
    rw [hepoll, hphase, hlive]
    exact h.tasks side

/-- What touches neither table keeps it. -/
theorem World.Attuned.same {w w' : World} {fd : Nat} (h : w.Attuned fd)
    (hsame : w.SameTables w') : w'.Attuned fd := by
  refine h.congr ?_ ?_ ?_
  · rw [hsame.epolls]
  · rw [hsame.conns]
  · rw [hsame.live]

/-- The tables of a descriptor that is enabled beside a new state of its connection. -/
theorem World.setConn_enabled {w : World} {fd : Nat} (hbound : fd < w.maxfd) (c : ConnState)
    (mask : Mask) (t : TaskId) (ctl : EpollCtl) :
    ((w.setConn fd c).epollEnable fd mask t ctl).epolls fd =
      ((w.epolls fd).enable mask t ctl).1 ∧
    ((w.setConn fd c).epollEnable fd mask t ctl).conns fd = c ∧
    ((w.setConn fd c).epollEnable fd mask t ctl).live fd = w.live fd := by
  have hgoes : ¬ (w.setConn fd c).maxfd ≤ fd := Nat.not_le_of_lt hbound
  refine ⟨?_, ?_, ?_⟩
  · rw [World.epollEnable, if_neg hgoes]
    exact Function.update_self _ _ _
  · rw [World.epollEnable_eq]
    exact Function.update_self _ _ _
  · rw [World.epollEnable_eq]
    rfl

/-- The tables of a descriptor that is disabled beside a new state of its connection. -/
theorem World.setConn_disabled {w : World} {fd : Nat} (hbound : fd < w.maxfd) (c : ConnState)
    (mask : Mask) (ctl : EpollCtl) :
    ((w.setConn fd c).epollDisable fd mask ctl).epolls fd =
      ((w.epolls fd).disable mask ctl).1 ∧
    ((w.setConn fd c).epollDisable fd mask ctl).conns fd = c ∧
    ((w.setConn fd c).epollDisable fd mask ctl).live fd = w.live fd := by
  have hgoes : ¬ (w.setConn fd c).maxfd ≤ fd := Nat.not_le_of_lt hbound
  refine ⟨?_, ?_, ?_⟩
  · rw [World.epollDisable, if_neg hgoes]
    exact Function.update_self _ _ _
  · rw [World.epollDisable_eq]
    exact Function.update_self _ _ _
  · rw [World.epollDisable_eq]
    rfl

/-- An operation begins: its bits are set and their pointers lead to its task. -/
theorem World.Attuned.begun {w : World} {fd : Nat} (h : w.Attuned fd) {sd : Side}
    {x : Handler} {c : ConnState} {mask : Mask} {ms : Nat} {ctl : EpollCtl}
    (hctl : ∀ op i, ctl op i = true) (hbound : fd < w.maxfd) (hlive : w.live fd = true)
    (hbusy : ∀ side, c.phase.busy side = ((w.conns fd).phase.busy side || mask.has side))
    (hmine : ∀ side, mask.has side = true → c.phase.waiter side = sd)
    (hother : ∀ side, mask.has side = false →
      c.phase.waiter side = (w.conns fd).phase.waiter side) :
    ((w.setConn fd c).beginOp fd (.op fd sd) x mask ms ctl).Attuned fd := by
  obtain ⟨henabled, hconn, hlive'⟩ := World.setConn_enabled hbound c mask (.op fd sd) ctl
  rw [hlive] at hlive'
  have hgood : ((w.epolls fd).enable mask (.op fd sd) ctl).2 = true :=
    Epoll.changeEpoll_good _ hctl
  refine World.Attuned.same ?_ (World.beginOp_tables _ _ _ _ _ _ _)
  constructor
  · intro side
    rw [henabled, hconn, hlive', Epoll.enable_has _ hgood, h.bits side, hlive, hbusy]
    rfl
  · intro side _ hside
    rw [hconn] at hside ⊢
    rw [henabled, Epoll.enable_taskOf]
    by_cases hmask : mask.has side = true
    · rw [if_pos hmask, hmine side hmask]
    · have hclear : mask.has side = false := Bool.eq_false_iff.mpr hmask
      rw [hbusy, hclear, Bool.or_false] at hside
      rw [if_neg hmask, h.tasks side hlive hside, hother side hclear]

/-- An operation ends: its bits are cleared. -/
theorem World.Attuned.ended {w : World} {fd : Nat} (h : w.Attuned fd) {t post : TaskId}
    {c : ConnState} {mask : Mask} {ms : Nat} {ctl : EpollCtl}
    (hctl : ∀ op i, ctl op i = true) (hbound : fd < w.maxfd) (hlive : w.live fd = true)
    (hbusy : ∀ side, c.phase.busy side = ((w.conns fd).phase.busy side && !mask.has side))
    (hother : ∀ side, mask.has side = false →
      c.phase.waiter side = (w.conns fd).phase.waiter side) :
    ((w.leave.setConn fd c).endOp fd t post mask ms ctl).Attuned fd := by
  have hbound' : fd < w.leave.maxfd := hbound
  obtain ⟨hdisabled, hconn, hlive'⟩ := World.setConn_disabled hbound' c mask ctl
  change _ = ((w.epolls fd).disable mask ctl).1 at hdisabled
  change _ = w.live fd at hlive'
  rw [hlive] at hlive'
  have hgood : ((w.epolls fd).disable mask ctl).2 = true :=
    Epoll.changeEpoll_good _ hctl
  refine World.Attuned.same ?_ (World.endOp_tables _ _ _ _ _ _ _)
  constructor
  · intro side
    rw [hdisabled, hconn, hlive', Epoll.disable_has _ hgood, h.bits side, hlive, hbusy]
    rfl
  · intro side _ hside
    rw [hconn, hbusy, Bool.and_eq_true, Bool.not_eq_true'] at hside
    obtain ⟨hside, hclear⟩ := hside
    rw [hdisabled, hconn, Epoll.disable_taskOf, hclear, if_neg nofun, h.tasks side hlive hside,
      hother side hclear]

/-- Enabling touches one entry only. -/
theorem World.epollEnable_other (w : World) {fd fd' : Nat} (mask : Mask) (t : TaskId)
    (ctl : EpollCtl) (hfd : fd' ≠ fd) :
    (w.epollEnable fd mask t ctl).epolls fd' = w.epolls fd' := by
  unfold World.epollEnable
  split
  · rfl
  · exact Function.update_of_ne hfd _ _

/-- Disabling touches one entry only. -/
theorem World.epollDisable_other (w : World) {fd fd' : Nat} (mask : Mask) (ctl : EpollCtl)
    (hfd : fd' ≠ fd) : (w.epollDisable fd mask ctl).epolls fd' = w.epolls fd' := by
  unfold World.epollDisable
  split
  · rfl
  · exact Function.update_of_ne hfd _ _

/-- A connection is set, and its process acts on no other one. -/
theorem World.Attuned.setConn_other {w w' : World} {fd fd' : Nat} {c : ConnState}
    (h : w.Attuned fd) (hfd : fd ≠ fd') (hsame : (w.setConn fd' c).SameTables w') :
    w'.Attuned fd := by
  refine World.Attuned.same ?_ hsame
  exact h.congr rfl (by rw [w.setConn_of_ne c hfd]) rfl

/-- An operation of another connection begins. -/
theorem World.Attuned.begun_other {w : World} {fd fd' : Nat} {c : ConnState} {t : TaskId}
    {x : Handler} {mask : Mask} {ms : Nat} {ctl : EpollCtl} (h : w.Attuned fd)
    (hfd : fd ≠ fd') : ((w.setConn fd' c).beginOp fd' t x mask ms ctl).Attuned fd := by
  have hset : (w.setConn fd' c).Attuned fd := h.setConn_other hfd (.refl _)
  refine World.Attuned.same ?_ (World.beginOp_tables _ _ _ _ _ _ _)
  refine hset.congr ?_ ?_ ?_
  · exact World.epollEnable_other _ mask t ctl hfd
  · rw [World.epollEnable_eq]
  · rw [World.epollEnable_eq]

/-- An operation of another connection ends. -/
theorem World.Attuned.ended_other {w : World} {fd fd' : Nat} {c : ConnState} {t post : TaskId}
    {mask : Mask} {ms : Nat} {ctl : EpollCtl} (h : w.Attuned fd) (hfd : fd ≠ fd') :
    ((w.leave.setConn fd' c).endOp fd' t post mask ms ctl).Attuned fd := by
  have hleave : w.leave.Attuned fd := h.congr rfl rfl rfl
  have hset : (w.leave.setConn fd' c).Attuned fd := hleave.setConn_other hfd (.refl _)
  refine World.Attuned.same ?_ (World.endOp_tables _ _ _ _ _ _ _)
  refine hset.congr ?_ ?_ ?_
  · exact World.epollDisable_other _ mask ctl hfd
  · rw [World.epollDisable_eq]
  · rw [World.epollDisable_eq]

/-- The connection acts and keeps its phase. -/
theorem World.Attuned.acts {w w' : World} {fd : Nat} {c : ConnState} (h : w.Attuned fd)
    (hphase : c.phase = (w.conns fd).phase) (hsame : (w.setConn fd c).SameTables w') :
    w'.Attuned fd := by
  refine World.Attuned.same ?_ hsame
  exact h.congr rfl (by rw [w.setConn_self, hphase]) rfl

/-- A call of another connection's user. -/
theorem World.Attuned.userCall_other {w w' : World} {fd fd' : Nat} (h : w.Attuned fd)
    (hfd : fd ≠ fd') {cev : ConnEvent} {ctl : EpollCtl}
    (hcall : w.userCall fd' cev ctl = some w') : w'.Attuned fd := by
  obtain ⟨c, out, _, _, hafter⟩ := World.userCall_cases hcall
  have hset : (w.setConn fd' c).Attuned fd := h.setConn_other hfd (.refl _)
  split at hafter
  · rw [hafter]
    exact hset.same (World.schedule_same _ _)
  · rw [hafter]
    exact h.begun_other hfd
  · rw [hafter]
    exact hset

/-- A call of the connection's user. -/
theorem World.Attuned.userCall {w w' : World} {fd : Nat} (h : w.Attuned fd) (hw : w.Wired)
    {cev : ConnEvent} {ctl : EpollCtl} (hctl : ∀ op i, ctl op i = true)
    (hlive : w.live fd = true) (hcall : w.userCall fd cev ctl = some w') : w'.Attuned fd := by
  have hcoherent : (w.conns fd).phase.Coherent := (hw.slots fd).coherent hlive
  obtain ⟨c, out, hstep, hhandles, hafter⟩ := World.userCall_cases hcall
  cases hstarts : cev.starts with
  | none =>
      obtain ⟨hphase, _⟩ := connStep_else hstarts hhandles hstep
      rw [hstarts] at hafter
      rw [hafter]
      exact h.acts hphase (.refl _)
  | some k =>
      obtain ⟨_, hquiet, hphase, _⟩ := connStep_starts hcoherent hstarts hstep
      rw [hstarts] at hafter
      cases out with
      | refused =>
          rw [hafter]
          exact h.acts hphase (.refl _)
      | done =>
          rw [hafter]
          exact h.acts hphase (World.schedule_same _ _)
      | pending =>
          rw [if_pos rfl] at hphase
          rw [hafter]
          refine h.begun hctl (hw.bound fd hlive) hlive ?_ ?_ ?_
          · intro side
            rw [hphase]
            exact Phase.busy_started _ k side
          · intro side hside
            rw [hphase, Phase.waiter_started hquiet, if_pos hside]
          · intro side hside
            rw [hphase, Phase.waiter_started hquiet, hside, if_neg nofun]

/-- An execution of a handler. -/
theorem World.Attuned.handle {w w' : World} {fd : Nat} (h : w.Attuned fd) (hw : w.Wired)
    {ans : World.Answer} {ctl : EpollCtl}
    (hctl : (∃ side, w.entered = some (.op fd side)) → ∀ op i, ctl op i = true)
    (hhandle : w.handle ans ctl = some w') : w'.Attuned fd := by
  obtain ⟨fd', k, cev, c, out, hentered, hlive, _, hhandles, hstep, _, rfl⟩ :=
    hw.handle_cases hhandle
  have hcoherent : (w.conns fd').phase.Coherent := (hw.slots fd').coherent hlive
  obtain ⟨_, hphase, _⟩ := connStep_handles hcoherent hhandles hstep
  have hleave : w.leave.Attuned fd := h.congr rfl rfl rfl
  by_cases hfd : fd = fd'
  · subst hfd
    by_cases hdone : out = .done
    · rw [if_pos hdone] at hphase ⊢
      refine h.ended (hctl ⟨_, hentered⟩) (hw.bound fd hlive) hlive ?_ ?_
      · intro side
        rw [hphase]
        exact Phase.busy_finished _ k side
      · intro side hside
        rw [hphase]
        exact Phase.waiter_finished _ k hside
    · rw [if_neg hdone] at hphase ⊢
      exact hleave.acts hphase (.refl _)
  · split
    · exact h.ended_other hfd
    · exact hleave.setConn_other hfd (.refl _)

/-- `spe_conn_create`: nothing is pending on the new connection. -/
theorem World.Attuned.create {w : World} {fd : Nat} (h : w.Attuned fd) {fd' : Nat}
    (hdead : w.live fd' = false) : (w.create fd').Attuned fd := by
  have hinit : w.SameTables (if (w.conns fd').conn.fd = 0 then w.initTasks fd' else w) := by
    split
    · exact w.initTasks_same fd'
    · exact .refl w
  have hepolls : (w.create fd').epolls = w.epolls := hinit.epolls
  have hconns : (w.create fd').conns =
      Function.update w.conns fd' (.created (w.conns fd').conn fd') :=
    congrArg (fun conns : Nat → ConnState =>
      Function.update conns fd' (.created (w.conns fd').conn fd')) hinit.conns
  have hlives : (w.create fd').live = Function.update w.live fd' true :=
    congrArg (fun live : Nat → Bool => Function.update live fd' true) hinit.live
  by_cases hfd : fd = fd'
  · subst hfd
    have hconn : (w.create fd).conns fd = .created (w.conns fd).conn fd := by
      rw [hconns, Function.update_self]
    have hidle : ∀ side, ((w.create fd).conns fd).phase.busy side = false := by
      intro side
      rw [hconn]
      cases side <;> rfl
    constructor
    · intro side
      rw [hepolls, hidle side, h.bits side, hdead, Bool.false_and, Bool.and_false]
    · intro side _ hside
      cases (hidle side).symm.trans hside
  · refine h.congr ?_ ?_ ?_
    · rw [hepolls]
    · rw [hconns, Function.update_of_ne hfd]
    · rw [hlives, Function.update_of_ne hfd]

/-- `spe_conn_destroy` clears both bits. -/
theorem World.Attuned.destroy {w : World} {fd : Nat} (h : w.Attuned fd) (hw : w.Wired)
    {fd' : Nat} {ctl : EpollCtl} (hlive : w.live fd' = true)
    (hctl : fd' = fd → ∀ op i, ctl op i = true) : (w.destroy fd' ctl).Attuned fd := by
  have hlives : (w.destroy fd' ctl).live = Function.update w.live fd' false := by
    unfold World.destroy World.epollDisable
    dsimp only
    split <;> rfl
  have hconns : (w.destroy fd' ctl).conns = w.conns := by
    unfold World.destroy World.epollDisable
    dsimp only
    split <;> rfl
  by_cases hfd : fd = fd'
  · subst hfd
    have hgoes : ¬ (w.dequeueTasks fd).maxfd ≤ fd := by
      have hbound := hw.bound fd hlive
      change ¬ w.maxfd ≤ fd
      omega
    have hepoll : (w.destroy fd ctl).epolls fd =
        ((w.epolls fd).disable (SPE_EPOLL_READ ||| SPE_EPOLL_WRITE) ctl).1 := by
      unfold World.destroy World.epollDisable
      dsimp only
      rw [if_neg hgoes]
      exact Function.update_self _ _ _
    have hgood : ((w.epolls fd).disable (SPE_EPOLL_READ ||| SPE_EPOLL_WRITE) ctl).2 = true :=
      Epoll.changeEpoll_good _ (hctl rfl)
    have hdead : (w.destroy fd ctl).live fd = false := by
      rw [hlives, Function.update_self]
    constructor
    · intro side
      rw [hepoll, hdead, Epoll.disable_has _ hgood, has_both, Bool.not_true, Bool.and_false,
        Bool.false_and]
    · intro side hlive'
      cases hdead.symm.trans hlive'
  · refine h.congr ?_ ?_ ?_
    · exact World.epollDisable_other _ _ ctl hfd
    · rw [hconns]
    · rw [hlives, Function.update_of_ne hfd]

/-- The step is one of the API of the connections: no call of user code into
`spe_epoll.c` is about the descriptor, and `epoll_ctl` succeeds for it. -/
def World.Own (fd : Nat) (w : World) (ev : WorldEvent) : Prop :=
  match ev with
  | .epollEnable fd' _ _ _ => fd ≠ fd'
  | .epollDisable fd' _ _ => fd ≠ fd'
  | .destroy fd' ctl => fd' = fd → ∀ op i, ctl op i = true
  | .userCall fd' _ ctl => fd' = fd → ∀ op i, ctl op i = true
  | .handle _ ctl => (∃ side, w.entered = some (.op fd side)) → ∀ op i, ctl op i = true
  | _ => True

/-- **Step lemma.**  The entry of the connection stays in agreement. -/
theorem World.Attuned.step {w w' : World} {fd : Nat} (h : w.Attuned fd) (hw : w.Wired)
    {ev : WorldEvent} (hown : w.Own fd ev) (hstep : w.step ev = some w') : w'.Attuned fd := by
  have hgoes := (Option.ite_none_left_eq_some.mp hstep).2
  cases ev with
  | call c =>
      obtain ⟨_, hcall⟩ := Option.ite_none_right_eq_some.mp hgoes
      cases c with
      | schedule t => exact Option.some.inj hcall ▸ h.same (w.schedule_same t)
      | _ => exact Option.some.inj hcall ▸ h.same (w.call_same _)
  | init n =>
      obtain ⟨_, ⟨⟩⟩ := Option.ite_none_right_eq_some.mp hgoes
      exact h.congr rfl rfl rfl
  | epollEnable fd' mask n ctl =>
      obtain ⟨_, ⟨⟩⟩ := Option.ite_none_right_eq_some.mp hgoes
      refine h.congr (w.epollEnable_other mask _ ctl hown) ?_ ?_
      · rw [World.epollEnable_eq]
      · rw [World.epollEnable_eq]
  | epollDisable fd' mask ctl =>
      obtain ⟨_, ⟨⟩⟩ := Option.ite_none_right_eq_some.mp hgoes
      refine h.congr (w.epollDisable_other mask ctl hown) ?_ ?_
      · rw [World.epollDisable_eq]
      · rw [World.epollDisable_eq]
  | create fd' =>
      obtain ⟨⟨_, _, hdead⟩, ⟨⟩⟩ := Option.ite_none_right_eq_some.mp hgoes
      exact h.create hdead
  | destroy fd' ctl =>
      obtain ⟨⟨_, hlive⟩, ⟨⟩⟩ := Option.ite_none_right_eq_some.mp hgoes
      exact h.destroy hw hlive hown
  | userCall fd' cev ctl =>
      obtain ⟨⟨_, hlive⟩, hcall⟩ := Option.ite_none_right_eq_some.mp hgoes
      by_cases hfd : fd = fd'
      · subst hfd
        exact h.userCall hw (hown rfl) hlive hcall
      · exact h.userCall_other hfd hcall
  | ready fd' side =>
      obtain ⟨_, ⟨⟩⟩ := Option.ite_none_right_eq_some.mp hgoes
      exact h.same (w.ready_same fd' side)
  | process =>
      obtain ⟨_, ⟨⟩⟩ := Option.ite_none_right_eq_some.mp hgoes
      exact h.congr rfl rfl rfl
  | loop =>
      obtain ⟨_, hloop⟩ := Option.ite_none_right_eq_some.mp hgoes
      exact h.same (World.loop_same hloop)
  | ret =>
      obtain ⟨_, hret⟩ := Option.ite_none_right_eq_some.mp hgoes
      obtain ⟨m, _, rfl⟩ := Option.map_eq_some_iff.mp hret
      exact h.congr rfl rfl rfl
  | handle ans ctl => exact h.handle hw hown hgoes
  | tick now =>
      obtain ⟨_, ⟨⟩⟩ := Option.ite_none_right_eq_some.mp hgoes
      exact h.congr rfl rfl rfl

/-- Nothing is enabled at the start. -/
theorem World.attuned_start (maxfd fd : Nat) : (World.start maxfd).Attuned fd := by
  constructor
  · intro side
    exact Epoll.zero_has side
  · intro side hlive
    cases hlive

/-- **Run lemma.**  In a run of the API the entry of the connection agrees with what is
pending on it in every state. -/
theorem World.attuned_of_run {maxfd fd : Nat} {w : World} {es : List WorldEvent}
    (h : Run World.step (World.Own fd) (World.start maxfd) es w) : w.Wired ∧ w.Attuned fd := by
  refine h.invariant (fun w => w.Wired ∧ w.Attuned fd)
    ⟨World.wired_start maxfd, World.attuned_start maxfd fd⟩ ?_
  intro w ev w' hboth hown hstep
  obtain ⟨hw, hattuned⟩ := hboth
  exact ⟨(hw.step hstep).wired hw, hattuned.step hw hown hstep⟩

/-- The types of a connection, its entry in `epolls` and its private tasks agree. -/
structure World.Registered (w : World) (fd : Nat) : Prop where
  readMask : (w.conns fd).conn.readType ≠ .readNone ↔ (w.epolls fd).wide.has .read = true
  readTask : (w.conns fd).conn.readType ≠ .readNone →
    (w.epolls fd).readTask = some (.readTask fd)
  writeMask : (w.conns fd).conn.writeType ≠ .writeNone ↔ (w.epolls fd).wide.has .write = true
  writeTask : (w.conns fd).conn.writeType ≠ .writeNone →
    (w.epolls fd).writeTask =
      some (if (w.conns fd).hist.connecting then .readTask fd else .writeTask fd)
  readIdle : (w.conns fd).conn.readType = .readNone → ¬ w.Waits (.readTask fd)
  writeIdle : (w.conns fd).conn.writeType = .writeNone → ¬ w.Waits (.writeTask fd)

/-- The bit of a side is set exactly while the side is busy, on a live connection. -/
theorem World.Attuned.mask_iff {w : World} {fd : Nat} (h : w.Attuned fd)
    (hlive : w.live fd = true) (side : Side) :
    (w.conns fd).phase.busy side = true ↔ (w.epolls fd).wide.has side = true := by
  rw [h.bits side, hlive, Bool.true_and]

/-- The task of a side without an operation is in no container, unless its handler is
executing. -/
theorem World.Wired.idle {w : World} (hw : w.Wired) {fd : Nat} {side : Side}
    (hidle : ¬ w.Pending fd side) : ¬ w.Waits (.op fd side) := by
  intro hwaits
  have hfree := (hw.slots fd).idle side (fun hbusy => hidle ((hw.busy_iff fd side).mp hbusy))
  exact (hw.placed.waits_iff _).mpr hwaits hfree

/-- **Pending operations are registered.**  In every run of the API in which
`epoll_ctl` succeeds, before and after each execution of a handler of the connection,
its types say which bits of its mask are set, its pointers lead to the tasks that
wait, and a task without an operation waits nowhere. -/
theorem registered_while_pending {maxfd fd : Nat} {w : World} {es : List WorldEvent}
    (h : Run World.step (World.Own fd) (World.start maxfd) es w) (hlive : w.live fd = true) :
    w.Registered fd := by
  obtain ⟨hw, hattuned⟩ := World.attuned_of_run h
  have hread : (w.conns fd).phase.busy .read = true ↔ (w.conns fd).conn.readType ≠ .readNone :=
    decide_eq_true_iff
  have hwrite : (w.conns fd).phase.busy .write = true ↔
      (w.conns fd).conn.writeType ≠ .writeNone := decide_eq_true_iff
  refine ⟨?_, ?_, ?_, ?_, ?_, ?_⟩
  · rw [← hread]
    exact hattuned.mask_iff hlive .read
  · intro htype
    have htask := hattuned.tasks .read hlive (hread.mpr htype)
    rw [Phase.waiter, ite_self] at htask
    exact htask
  · rw [← hwrite]
    exact hattuned.mask_iff hlive .write
  · intro htype
    have htask := hattuned.tasks .write hlive (hwrite.mpr htype)
    have hwaiter : TaskId.op fd ((w.conns fd).phase.waiter .write) =
        if (w.conns fd).hist.connecting then .readTask fd else .writeTask fd := by
      unfold Phase.waiter ConnState.phase
      dsimp only
      split <;> rfl
    rw [hwaiter] at htask
    exact htask
  · intro htype
    exact hw.idle (fun hpending => hpending.2 htype)
  · intro htype
    exact hw.idle (fun hpending => hpending.2.1 htype)

/-- A connect with a limit of a second is pending. -/
def connectEvents : List WorldEvent :=
  [.create 5, .userCall 5 (.setTimeout 1000 0) ctlGood, .userCall 5 (.connect .inProgress) ctlGood]

/-- A connect that is pending is registered on both sides. -/
theorem registered_while_connecting : ∃ w,
    Run World.step (World.Own 5) (World.start 8) connectEvents w ∧ w.live 5 = true ∧
    (w.conns 5).conn.writeType ≠ .writeNone ∧ (w.conns 5).hist.connecting = true ∧
    w.Registered 5 := by
  have hlast : (exec World.step (World.start 8) connectEvents).map (fun w =>
      decide (w.live 5 = true ∧ (w.conns 5).conn.writeType ≠ .writeNone ∧
        (w.conns 5).hist.connecting = true)) = some true := by decide +kernel
  obtain ⟨w, hexec, hfields⟩ := Option.map_eq_some_iff.mp hlast
  obtain ⟨hlive, htype, hconnecting⟩ := of_decide_eq_true hfields
  have hown : ∀ ev ∈ connectEvents, ∀ w : World, w.Own 5 ev := by
    intro ev hev w
    simp only [connectEvents, List.mem_cons, List.not_mem_nil, or_false] at hev
    rcases hev with rfl | rfl | rfl
    · trivial
    · exact fun _ => ctlGood_succeeds
    · exact fun _ => ctlGood_succeeds
  have hrun := run_of_exec hown hexec
  exact ⟨w, hrun, hlive, htype, hconnecting, registered_while_pending hrun hlive⟩

end Spe
