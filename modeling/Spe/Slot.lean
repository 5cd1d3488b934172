import Spe.ConnPhase
import Spe.TaskEffects
import Spe.World

/-!
# One connection in the event loop

A step of the process concerns few tasks and at most one connection.
`World.slot` is what belongs to one connection: its state, its entry in
`epolls`, its four tasks, and whether one of its handlers is executing.

`Slot.Wired` says how these agree: a private task is idle unless an operation is
pending that waits for it, its handler is that of the operation, and only then
does the epoll table point to it.  `SlotMove` says once what a step can do to a
slot.
-/

namespace Spe

open Transition

/-- What belongs to one connection. -/
@[ext]
structure Slot where
  conn : ConnState
  live : Bool
  epoll : Epoll TaskId
  op : Side → Task Handler
  post : Side → Task Handler
  entered : Option Side
  timed : Side → Bool

/-- The side whose handler is executing. -/
def enteredSide (entered : Option TaskId) (fd : Nat) : Option Side :=
  match entered with
  | some (.op fd' side) => if fd' = fd then some side else none
  | _ => none

/-- What belongs to the connection of a descriptor. -/
def World.slot (w : World) (fd : Nat) : Slot where
  conn := w.conns fd
  live := w.live fd
  epoll := w.epolls fd
  op side := w.task (.op fd side)
  post side := w.task (.post fd side)
  entered := enteredSide w.entered fd
  timed side := w.timed (.op fd side)

/-- The handler that the pending operation of a side waits for; a connect waits on
the read side. -/
def Phase.awaits (fd : Nat) (p : Phase) (side : Side) : Option Handler :=
  match side with
  | .read =>
      if p.connecting then some (.connectNormal fd)
      else if p.reading then some (.readNormal fd)
      else none
  | .write => if p.connecting then none else if p.writing then some (.writeNormal fd) else none

/-- The handler that the pending operation of a side waits for, on a live
connection. -/
def Slot.awaits (s : Slot) (fd : Nat) (side : Side) : Option Handler :=
  if s.live then s.conn.phase.awaits fd side else none

/-- A side with a pending operation. -/
def Slot.Busy (s : Slot) (fd : Nat) (side : Side) : Prop := s.awaits fd side ≠ none

/-- How the parts of a slot agree. -/
structure Slot.Wired (s : Slot) (fd : Nat) : Prop where
  idle : ∀ side, ¬ s.Busy fd side → (s.op side).status = .free
  handler : ∀ side h, s.awaits fd side = some h → (s.op side).handler = some h
  slow : ∀ side, (s.op side).fast = false
  dead : s.live = false → ∀ side, (s.post side).status = .free
  pointer : ∀ side t, s.epoll.taskOf side = some t →
    (∃ n, t = .user n) ∨ ∃ sd, t = .op fd sd ∧ s.Busy fd sd ∧
      (sd = side ∨ s.conn.phase.connecting)
  entered : ∀ side, s.entered = some side → s.Busy fd side ∧ (s.op side).status = .free
  coherent : s.live → s.conn.phase.Coherent

/-- The slot after the operation of a side has begun. -/
def Slot.begun (s : Slot) (fd : Nat) (side : Side) (h : Handler) (c : ConnState) (mask : Mask)
    (now ms : Nat) (ctl : EpollCtl) : Slot :=
  { s with
    conn := c
    epoll := (s.epoll.enable mask (.op fd side) ctl).1
    op := Function.update s.op side ((s.op side).started h now ms)
    timed := Function.update s.timed side (decide (ms ≠ 0)) }

/-- The slot after the operation of a side has ended in its handler. -/
def Slot.ended (s : Slot) (side : Side) (c : ConnState) (post : Side → Task Handler)
    (mask : Mask) (ms : Nat) (ctl : EpollCtl) : Slot :=
  { s with
    conn := c
    epoll := (s.epoll.disable mask ctl).1
    op := if ms ≠ 0 then Function.update s.op side (s.op side).freed else s.op
    post := post
    entered := none }

/-- What a step can do to a slot.  `stays` tells which executions of a handler
leave their operation pending. -/
inductive SlotMove (fd : Nat) (stays : Side → Prop) (s : Slot) : Slot → Prop
  | keep : SlotMove fd stays s s
  | posts (post : Side → Task Handler)
      (hposts : s.live = true ∨ ∃ side, (s.post side).status ≠ .free) :
      SlotMove fd stays s { s with post := post }
  | epoll (e : Epoll TaskId)
      (hpointers : ∀ side t, e.taskOf side = some t →
        s.epoll.taskOf side = some t ∨ ∃ n, t = .user n) :
      SlotMove fd stays s { s with epoll := e }
  | fire (side : Side) (hquiet : s.entered = none) (htimer : (s.op side).status = .timer) :
      SlotMove fd stays s { s with op := Function.update s.op side (s.op side).fired }
  | take (side : Side) (hquiet : s.entered = none) (hqueue : (s.op side).status = .queue) :
      SlotMove fd stays s
        { s with
          op := Function.update s.op side (s.op side).freed
          entered := some side }
  | ready (side sd : Side) (hquiet : s.entered = none)
      (hpointer : s.epoll.taskOf sd = some (.op fd side)) :
      SlotMove fd stays s { s with op := Function.update s.op side (s.op side).scheduled }
  | conn (c : ConnState) (post : Side → Task Handler) (hlive : s.live = true)
      (hnext : ∃ ev, connNext s.conn ev = some c) (hphase : c.phase = s.conn.phase) :
      SlotMove fd stays s { s with conn := c, post := post }
  | begins (side : Side) (h : Handler) (c : ConnState) (mask : Mask) (now ms : Nat)
      (ctl : EpollCtl) (hlive : s.live = true) (hquiet : s.entered = none)
      (hnext : ∃ ev, connNext s.conn ev = some c)
      (hidle : ¬ s.Busy fd side) (hphase : s.conn.phase.connecting = false)
      (hcoherent : c.phase.Coherent)
      (hawaits : c.phase.awaits fd = Function.update (s.conn.phase.awaits fd) side (some h))
      (hmask : ∀ sd, mask.has sd → sd = side ∨ c.phase.connecting) :
      SlotMove fd stays s (s.begun fd side h c mask now ms ctl)
  | goesOn (side : Side) (c : ConnState) (hstays : stays side) (hentered : s.entered = some side)
      (hnext : ∃ ev, connNext s.conn ev = some c) (hphase : c.phase = s.conn.phase) :
      SlotMove fd stays s { s with conn := c, entered := none }
  | ends (side : Side) (c : ConnState) (post : Side → Task Handler) (mask : Mask) (ms : Nat)
      (ctl : EpollCtl) (hends : ¬ stays side) (hentered : s.entered = some side)
      (hnext : ∃ ev, connNext s.conn ev = some c)
      (hcoherent : c.phase.Coherent)
      (hawaits : c.phase.awaits fd = Function.update (s.conn.phase.awaits fd) side none)
      (hmask : ∀ sd, sd = side ∨ s.conn.phase.connecting → mask.has sd) :
      SlotMove fd stays s (s.ended side c post mask ms ctl)
  | created (op post : Side → Task Handler) (hquiet : s.entered = none)
      (hdead : s.live = false)
      (hop : ∀ side, (op side).status = .free ∧ (op side).fast = false) :
      SlotMove fd stays s
        { s with conn := .created s.conn.conn fd, live := true, op := op, post := post }
  | destroyed (mask : Mask) (ctl : EpollCtl) (hquiet : s.entered = none)
      (hmask : ∀ sd, mask.has sd) :
      SlotMove fd stays s
        { s with
          live := false
          epoll := (s.epoll.disable mask ctl).1
          op := fun side => (s.op side).freed
          post := fun side => (s.post side).freed }

/-- A live connection waits for what its phase says. -/
theorem Slot.awaits_live {s : Slot} (h : s.live = true) (fd : Nat) :
    s.awaits fd = s.conn.phase.awaits fd := by
  funext side
  rw [Slot.awaits, if_pos h]

/-- A side with a pending operation belongs to a live connection. -/
theorem Slot.Busy.live {s : Slot} {fd : Nat} {side : Side} (h : s.Busy fd side) :
    s.live = true := by
  by_contra hdead
  exact h (if_neg hdead)

/-- A slot that is not in use has no operation. -/
theorem Slot.not_busy_of_dead {s : Slot} (hdead : s.live = false) {fd : Nat} (side : Side) :
    ¬ s.Busy fd side := by
  intro hbusy
  cases hbusy.live.symm.trans hdead

/-- Its private tasks are in no container. -/
theorem Slot.Wired.idle_of_dead {s : Slot} {fd : Nat} (h : s.Wired fd) (hdead : s.live = false)
    (side : Side) : (s.op side).status = .free :=
  h.idle side (Slot.not_busy_of_dead hdead side)

/-- A slot stays wired when its private tasks keep their handlers and are idle where
they have to be, and all else stays. -/
theorem Slot.Wired.retask {s : Slot} {fd : Nat} (h : s.Wired fd) {op : Side → Task Handler}
    {entered : Option Side}
    (hidle : ∀ side, ¬ s.Busy fd side → (op side).status = .free)
    (hhandler : ∀ side, (op side).handler = (s.op side).handler)
    (hslow : ∀ side, (op side).fast = (s.op side).fast)
    (hentered : ∀ side, entered = some side → s.Busy fd side ∧ (op side).status = .free) :
    { s with op := op, entered := entered }.Wired fd := by
  refine ⟨hidle, ?_, ?_, h.dead, h.pointer, hentered, h.coherent⟩
  · intro side x hx
    exact (hhandler side).trans (h.handler side x hx)
  · intro side
    exact (hslow side).trans (h.slow side)

/-- One private task of a wired slot changes its status. -/
theorem Slot.Wired.retask_one {s : Slot} {fd : Nat} (h : s.Wired fd) (side : Side)
    {k : Task Handler} {entered : Option Side} (hbusy : s.Busy fd side)
    (hhandler : k.handler = (s.op side).handler) (hfast : k.fast = (s.op side).fast)
    (hentered : ∀ sd, entered = some sd → sd = side ∧ k.status = .free) :
    { s with op := Function.update s.op side k, entered := entered }.Wired fd := by
  refine h.retask ?_ ?_ ?_ ?_
  · intro sd hsd
    have hne : sd ≠ side := by
      intro heq
      subst heq
      exact hsd hbusy
    rw [Function.update_of_ne hne]
    exact h.idle sd hsd
  · intro sd
    by_cases hsd : sd = side
    · subst hsd
      rw [Function.update_self, hhandler]
    · rw [Function.update_of_ne hsd]
  · intro sd
    by_cases hsd : sd = side
    · subst hsd
      rw [Function.update_self, hfast]
    · rw [Function.update_of_ne hsd]
  · intro sd hsd
    obtain ⟨rfl, hfree⟩ := hentered sd hsd
    rw [Function.update_self]
    exact ⟨hbusy, hfree⟩

/-- Only a busy side has a task that is not idle. -/
theorem Slot.Wired.busy {s : Slot} {fd : Nat} (h : s.Wired fd) {side : Side}
    (hstatus : (s.op side).status ≠ .free) : s.Busy fd side := by
  by_contra hidle
  exact hstatus (h.idle side hidle)

/-- Only a busy side is pointed to. -/
theorem Slot.Wired.pointed {s : Slot} {fd : Nat} (h : s.Wired fd) {side sd : Side}
    (hpointer : s.epoll.taskOf sd = some (.op fd side)) : s.Busy fd side := by
  rcases h.pointer sd _ hpointer with ⟨n, hn⟩ | ⟨side', hside, hbusy, _⟩
  · cases hn
  · obtain ⟨_, rfl⟩ := TaskId.op.inj hside
    exact hbusy

/-- A live connection waits for what its phase says after an operation has begun. -/
theorem Slot.awaits_begun (s : Slot) {fd : Nat} {side : Side} {x : Handler} {c : ConnState}
    (mask : Mask) (now ms : Nat) (ctl : EpollCtl) (hlive : s.live = true)
    (hawaits : c.phase.awaits fd = Function.update (s.conn.phase.awaits fd) side (some x)) :
    (s.begun fd side x c mask now ms ctl).awaits fd =
      Function.update (s.awaits fd) side (some x) := by
  have hlive' : (s.begun fd side x c mask now ms ctl).live = true := hlive
  rw [Slot.awaits_live hlive', Slot.awaits_live hlive]
  exact hawaits

/-- A live connection waits for what its phase says after an operation has ended. -/
theorem Slot.awaits_ended (s : Slot) {fd : Nat} {side : Side} {c : ConnState}
    (post : Side → Task Handler) (mask : Mask) (ms : Nat) (ctl : EpollCtl)
    (hlive : s.live = true)
    (hawaits : c.phase.awaits fd = Function.update (s.conn.phase.awaits fd) side none) :
    (s.ended side c post mask ms ctl).awaits fd = Function.update (s.awaits fd) side none := by
  have hlive' : (s.ended side c post mask ms ctl).live = true := hlive
  rw [Slot.awaits_live hlive', Slot.awaits_live hlive]
  exact hawaits

/-- An operation begins on a wired slot. -/
theorem Slot.Wired.begun {s : Slot} {fd : Nat} (h : s.Wired fd) {side : Side} {x : Handler}
    {c : ConnState} {mask : Mask} {now ms : Nat} {ctl : EpollCtl} (hlive : s.live = true)
    (hquiet : s.entered = none) (hidle : ¬ s.Busy fd side)
    (hphase : s.conn.phase.connecting = false) (hcoherent : c.phase.Coherent)
    (hawaits : c.phase.awaits fd = Function.update (s.conn.phase.awaits fd) side (some x))
    (hmask : ∀ sd, mask.has sd → sd = side ∨ c.phase.connecting) :
    (s.begun fd side x c mask now ms ctl).Wired fd := by
  obtain ⟨hhandler, hfast, _⟩ := Task.started_spec x now ms (s.op side)
  have hafter := s.awaits_begun mask now ms ctl hlive hawaits
  have hself : (s.begun fd side x c mask now ms ctl).Busy fd side := by
    unfold Slot.Busy
    rw [hafter, Function.update_self]
    exact Option.some_ne_none x
  have hother : ∀ sd, sd ≠ side →
      (s.begun fd side x c mask now ms ctl).awaits fd sd = s.awaits fd sd := by
    intro sd hsd
    rw [hafter, Function.update_of_ne hsd]
  refine ⟨?_, ?_, ?_, ?_, ?_, ?_, fun _ => hcoherent⟩
  · intro sd hsd
    have hne : sd ≠ side := by
      intro heq
      subst heq
      exact hsd hself
    have hbefore : ¬ s.Busy fd sd := by
      unfold Slot.Busy at hsd ⊢
      rw [← hother sd hne]
      exact hsd
    change (Function.update s.op side _ sd).status = .free
    rw [Function.update_of_ne hne]
    exact h.idle sd hbefore
  · intro sd y hy
    change (Function.update s.op side _ sd).handler = some y
    by_cases hsd : sd = side
    · subst hsd
      rw [hafter, Function.update_self] at hy
      rw [Function.update_self, hhandler, hy]
    · rw [hother sd hsd] at hy
      rw [Function.update_of_ne hsd]
      exact h.handler sd y hy
  · intro sd
    change (Function.update s.op side _ sd).fast = false
    by_cases hsd : sd = side
    · subst hsd
      rw [Function.update_self, hfast]
    · rw [Function.update_of_ne hsd]
      exact h.slow sd
  · intro hdead
    cases hlive.symm.trans hdead
  · intro sd t ht
    change ((s.epoll.enable mask (.op fd side) ctl).1).taskOf sd = some t at ht
    rw [Epoll.enable_taskOf] at ht
    by_cases hsd : mask.has sd
    · rw [if_pos hsd] at ht
      obtain rfl := Option.some.inj ht
      refine Or.inr ⟨side, rfl, hself, ?_⟩
      rcases hmask sd hsd with rfl | hconnecting
      · exact Or.inl rfl
      · exact Or.inr hconnecting
    · rw [if_neg hsd] at ht
      rcases h.pointer sd t ht with huser | ⟨sd', rfl, hbusy, hside⟩
      · exact Or.inl huser
      · have hne : sd' ≠ side := by
          intro heq
          subst heq
          exact hidle hbusy
        refine Or.inr ⟨sd', rfl, ?_, ?_⟩
        · unfold Slot.Busy at hbusy ⊢
          rw [hother sd' hne]
          exact hbusy
        · rcases hside with rfl | hconnecting
          · exact Or.inl rfl
          · cases hphase.symm.trans hconnecting
  · intro sd hsd
    cases hquiet.symm.trans hsd

/-- An operation ends in its handler on a wired slot. -/
theorem Slot.Wired.ended {s : Slot} {fd : Nat} (h : s.Wired fd) {side : Side}
    {c : ConnState} {post : Side → Task Handler} {mask : Mask} {ms : Nat} {ctl : EpollCtl}
    (hentered : s.entered = some side) (hcoherent : c.phase.Coherent)
    (hawaits : c.phase.awaits fd = Function.update (s.conn.phase.awaits fd) side none)
    (hmask : ∀ sd, sd = side ∨ s.conn.phase.connecting → mask.has sd) :
    (s.ended side c post mask ms ctl).Wired fd := by
  obtain ⟨hbusy, hfree⟩ := h.entered side hentered
  have hlive := hbusy.live
  have hafter := s.awaits_ended post mask ms ctl hlive hawaits
  have hother : ∀ sd, sd ≠ side →
      (s.ended side c post mask ms ctl).awaits fd sd = s.awaits fd sd := by
    intro sd hsd
    rw [hafter, Function.update_of_ne hsd]
  have hop : (s.ended side c post mask ms ctl).op = s.op := by
    change (if ms ≠ 0 then Function.update s.op side (s.op side).freed else s.op) = s.op
    rw [Task.freed_of_free hfree, Function.update_eq_self, ite_self]
  refine ⟨?_, ?_, ?_, ?_, ?_, nofun, fun _ => hcoherent⟩
  · intro sd hsd
    rw [hop]
    by_cases heq : sd = side
    · subst heq
      exact hfree
    · unfold Slot.Busy at hsd
      rw [hother sd heq] at hsd
      exact h.idle sd hsd
  · intro sd y hy
    rw [hop]
    by_cases heq : sd = side
    · subst heq
      rw [hafter, Function.update_self] at hy
      cases hy
    · rw [hother sd heq] at hy
      exact h.handler sd y hy
  · intro sd
    rw [hop]
    exact h.slow sd
  · intro hdead
    cases hlive.symm.trans hdead
  · intro sd t ht
    change ((s.epoll.disable mask ctl).1).taskOf sd = some t at ht
    rw [Epoll.disable_taskOf] at ht
    by_cases hsd : mask.has sd
    · rw [if_pos hsd] at ht
      cases ht
    · rw [if_neg hsd] at ht
      have hne : sd ≠ side := fun heq => hsd (hmask sd (Or.inl heq))
      rcases h.pointer sd t ht with huser | ⟨sd', rfl, hbusy', hside⟩
      · exact Or.inl huser
      · rcases hside with rfl | hconnecting
        · refine Or.inr ⟨sd', rfl, ?_, Or.inl rfl⟩
          unfold Slot.Busy at hbusy' ⊢
          rw [hother sd' hne]
          exact hbusy'
        · exact absurd (hmask sd (Or.inr hconnecting)) hsd

/-- A connection that keeps its phase waits for what it waited for. -/
theorem Slot.awaits_acts (s : Slot) {fd : Nat} {c : ConnState} {post : Side → Task Handler}
    {entered : Option Side} (hphase : c.phase = s.conn.phase) :
    ({ s with conn := c, post := post, entered := entered } : Slot).awaits fd = s.awaits fd := by
  funext side
  change (if s.live then c.phase.awaits fd side else none) = s.awaits fd side
  rw [hphase]
  rfl

/-- A connection that keeps its phase is busy where it was. -/
theorem Slot.busy_acts (s : Slot) {fd : Nat} {c : ConnState} {post : Side → Task Handler}
    {entered : Option Side} (hphase : c.phase = s.conn.phase) (side : Side) :
    ({ s with conn := c, post := post, entered := entered } : Slot).Busy fd side ↔
      s.Busy fd side := by
  unfold Slot.Busy
  rw [s.awaits_acts hphase]

/-- A connection acts without starting or ending an operation. -/
theorem Slot.Wired.acts {s : Slot} {fd : Nat} (h : s.Wired fd) {c : ConnState}
    {post : Side → Task Handler} {entered : Option Side} (hlive : s.live = true)
    (hphase : c.phase = s.conn.phase)
    (hentered : ∀ side, entered = some side → s.entered = some side) :
    { s with conn := c, post := post, entered := entered }.Wired fd := by
  refine ⟨?_, ?_, h.slow, ?_, ?_, ?_, ?_⟩
  · intro side hside
    exact h.idle side (fun hold => hside ((s.busy_acts hphase side).mpr hold))
  · intro side x hx
    rw [s.awaits_acts hphase] at hx
    exact h.handler side x hx
  · intro hdead
    cases hlive.symm.trans hdead
  · intro side t ht
    rcases h.pointer side t ht with huser | ⟨sd, rfl, hold, hside⟩
    · exact Or.inl huser
    · refine Or.inr ⟨sd, rfl, (s.busy_acts hphase sd).mpr hold, ?_⟩
      rcases hside with rfl | hconnecting
      · exact Or.inl rfl
      · right
        change c.phase.connecting = true
        rw [hphase]
        exact hconnecting
  · intro side hside
    obtain ⟨hold, hfree⟩ := h.entered side (hentered side hside)
    exact ⟨(s.busy_acts hphase side).mpr hold, hfree⟩
  · intro _
    change c.phase.Coherent
    rw [hphase]
    exact h.coherent hlive

/-- **Step lemma.**  A slot stays wired. -/
theorem SlotMove.wired {fd : Nat} {stays : Side → Prop} {s s' : Slot}
    (h : SlotMove fd stays s s') (hs : s.Wired fd) : s'.Wired fd := by
  cases h with
  | keep => exact hs
  | posts post hposts =>
      refine ⟨hs.idle, hs.handler, hs.slow, ?_, hs.pointer, hs.entered, hs.coherent⟩
      intro hdead
      rcases hposts with hlive | ⟨side, hbusy⟩
      · cases hlive.symm.trans hdead
      · exact absurd (hs.dead hdead side) hbusy
  | epoll e hpointers =>
      refine ⟨hs.idle, hs.handler, hs.slow, hs.dead, ?_, hs.entered, hs.coherent⟩
      intro side t ht
      rcases hpointers side t ht with hold | huser
      · exact hs.pointer side t hold
      · exact Or.inl huser
  | fire side hquiet htimer =>
      have hbusy : s.Busy fd side := hs.busy (by simp [htimer])
      exact hs.retask_one side hbusy rfl rfl (fun sd hsd => nomatch hquiet.symm.trans hsd)
  | take side hquiet hqueue =>
      have hbusy : s.Busy fd side := hs.busy (by simp [hqueue])
      exact hs.retask_one side hbusy rfl rfl (fun sd hsd => ⟨(Option.some.inj hsd).symm, rfl⟩)
  | ready side sd hquiet hpointer =>
      have hbusy : s.Busy fd side := hs.pointed hpointer
      obtain ⟨hhandler, hfast⟩ := (s.op side).scheduled_keeps
      exact hs.retask_one side hbusy hhandler hfast
        (fun sd hsd => nomatch hquiet.symm.trans hsd)
  | conn c post hlive hnext hphase => exact hs.acts hlive hphase (fun side hside => hside)
  | begins side x c mask now ms ctl hlive hquiet hnext hidle hphase hcoherent hawaits hmask =>
      exact hs.begun hlive hquiet hidle hphase hcoherent hawaits hmask
  | goesOn side c hstays hentered hnext hphase =>
      obtain ⟨hbusy, _⟩ := hs.entered side hentered
      exact hs.acts hbusy.live hphase nofun
  | ends side c post mask ms ctl hends hentered hnext hcoherent hawaits hmask =>
      exact hs.ended hentered hcoherent hawaits hmask
  | created op post hquiet hdead hop =>
      have hnone : ∀ side, (ConnState.created s.conn.conn fd).phase.awaits fd side = none := by
        intro side
        cases side <;> rfl
      refine ⟨fun side _ => (hop side).1, ?_, fun side => (hop side).2, nofun, ?_, ?_, nofun⟩
      · intro side x hx
        rw [Slot.awaits_live rfl, hnone] at hx
        cases hx
      · intro side t ht
        rcases hs.pointer side t ht with huser | ⟨sd, _, hbusy, _⟩
        · exact Or.inl huser
        · exact absurd hbusy (Slot.not_busy_of_dead hdead sd)
      · intro side hside
        cases hquiet.symm.trans hside
  | destroyed mask ctl hquiet hmask =>
      refine ⟨fun side _ => rfl, nofun, hs.slow, fun _ side => rfl, ?_, ?_, nofun⟩
      · intro side t ht
        change ((s.epoll.disable mask ctl).1).taskOf side = some t at ht
        rw [Epoll.disable_taskOf, if_pos (hmask side)] at ht
        cases ht
      · intro side hside
        cases hquiet.symm.trans hside

end Spe
