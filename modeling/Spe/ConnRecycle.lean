import Spe.ConnDefined
import Spe.ConnTimeout
import Spe.WorldAlike

/-!
# What a slot of `conns` carries over

`spe_conn_create` resets most fields of a slot, but not all.  `Leftovers` is what an
earlier connection on the descriptor can leave behind: the three timeout flags, the
timeout bits of the private tasks, the handlers of the post tasks and the entry of the
epoll table.  All of it can be seen later: `recycled_shows` is a history after which a
read that is completed at once has `read_timeout` set.

Nothing else is carried over that anybody can see: when two histories of the slot leave
the same behind and agree in everything outside the slot, the connection shows the same
and the same handlers are called in every later step (`recycled_alike`).  The blocks of
the three buffers do stay.  They decide how many bytes a `read` asks for and whether an
append needs an allocation, so that the same answers of the environment are those that
come out the same in both runs (`WorldEvent.Suits`).  They also decide whether the growth
of a block wraps in 32 bits and whether there is a block to hand over, so that an event has to
be defined in both runs (`WorldEvent.Same`).
-/

namespace Spe

open Transition

/-- What the user of a connection sees of it. -/
structure ConnView where
  buffer : Bytes
  closed : Bool
  error : Bool
  connectTimeout : Bool
  readTimeout : Bool
  writeTimeout : Bool
  deriving DecidableEq

/-- `buffer` and the public flags. -/
def Conn.shown (c : Conn) : ConnView where
  buffer := c.buffer.bytes
  closed := c.closed
  error := c.error
  connectTimeout := c.connectTimeout
  readTimeout := c.readTimeout
  writeTimeout := c.writeTimeout

/-- Alike connections show the same. -/
theorem Conn.Alike.shown {c d : Conn} (h : c.Alike d) : c.shown = d.shown := by
  obtain ⟨hclosed, herror⟩ := h.over
  have hconnect : c.connectTimeout = d.connectTimeout := h.flags .connect
  have hread : c.readTimeout = d.readTimeout := h.flags .read
  have hwrite : c.writeTimeout = d.writeTimeout := h.flags .flush
  unfold Conn.shown
  rw [h.buffer, hclosed, herror, hconnect, hread, hwrite]

/-- The handler that a step calls.  That of a private task of a connection executes
next; that of another task is the one whose frame the step pushes. -/
def World.calling (w w' : World) : Option Handler :=
  match w.entered, w'.entered with
  | none, some t => (w'.task t).handler
  | _, _ =>
      match w'.machine.stack with
      | .handler (.op _ _) :: _ => none
      | .handler t :: rest => if rest = w.machine.stack then (w'.task t).handler else none
      | _ => none

/-- What a step shows: the connection of the descriptor afterwards and the handler that
is called. -/
def World.shows (fd : Nat) (w w' : World) : ConnView × Option Handler :=
  ((w'.conns fd).conn.shown, w.calling w')

/-- Steps of alike processes to alike processes show the same. -/
theorem World.Alike.shows {fd : Nat} {w v w' v' : World} (h : World.Alike fd w v)
    (h' : World.Alike fd w' v') (hw' : w'.Wired) (hv' : v'.Wired) :
    w.shows fd w' = v.shows fd v' := by
  have hview : (w'.conns fd).conn.shown = (v'.conns fd).conn.shown := h'.conn.conn.shown
  have hcalling : w.calling w' = v.calling v' := by
    unfold World.calling
    rw [← h.entered, ← h'.entered, ← h'.machine.stack, ← h.machine.stack]
    have hhandler : ∀ t, ¬ t.IsOp → (w'.task t).handler = (v'.task t).handler :=
      fun t ht => (h'.task t).handler ht
    cases hentered' : w'.entered with
    | none => grind [TaskId.IsOp]
    | some t =>
        have hop : (w'.task t).handler = (v'.task t).handler :=
          h'.handler hw' hv' (Or.inr hentered')
        grind [TaskId.IsOp]
  unfold World.shows
  rw [hview, hcalling]

/-- What earlier connections have left in a slot that `spe_conn_create` does not reset.
It initialises the tasks of a slot whose `_fd` is 0. -/
structure Leftovers where
  connectTimeout : Bool
  readTimeout : Bool
  writeTimeout : Bool
  readTask : Bool
  writeTask : Bool
  postReadTask : Option Handler × Bool
  postWriteTask : Option Handler × Bool
  mask : BitVec 2
  readPointer : Option TaskId
  writePointer : Option TaskId
  deriving DecidableEq

/-- The timeout bit that a private task will have. -/
def World.timeoutLeft (w : World) (fd : Nat) (side : Side) : Bool :=
  if (w.conns fd).conn.fd = 0 then false else (w.task (.op fd side)).timeout

/-- The handler that a post task will have, and whether it will be fast. -/
def World.handlerLeft (w : World) (fd : Nat) (side : Side) : Option Handler × Bool :=
  if (w.conns fd).conn.fd = 0 then (none, false)
  else ((w.task (.post fd side)).handler, (w.task (.post fd side)).fast)

/-- What is left in the slot of a descriptor. -/
def World.leftovers (w : World) (fd : Nat) : Leftovers where
  connectTimeout := (w.conns fd).conn.connectTimeout
  readTimeout := (w.conns fd).conn.readTimeout
  writeTimeout := (w.conns fd).conn.writeTimeout
  readTask := w.timeoutLeft fd .read
  writeTask := w.timeoutLeft fd .write
  postReadTask := w.handlerLeft fd .read
  postWriteTask := w.handlerLeft fd .write
  mask := (w.epolls fd).mask
  readPointer := (w.epolls fd).readTask
  writePointer := (w.epolls fd).writeTask

/-- The clock, the control stack and the two containers agree. -/
structure World.SameNow (w v : World) : Prop where
  now : w.machine.now = v.machine.now
  stack : w.machine.stack = v.machine.stack
  taskHead : w.machine.sched.taskHead = v.machine.sched.taskHead
  timers : w.machine.sched.timers = v.machine.sched.timers

/-- In every run the scheduler is placed and its tree ordered. -/
theorem World.inOrder_of_run {maxfd : Nat} {ok : World → WorldEvent → Prop} {w : World}
    {es : List WorldEvent} (h : Run World.step ok (World.start maxfd) es w) :
    InOrder w.machine.sched := by
  have hstart : InOrder (World.start maxfd).machine.sched := ⟨placed_start, List.Pairwise.nil⟩
  refine (h.invariant (fun w => w.Wired ∧ InOrder w.machine.sched)
    ⟨World.wired_start maxfd, hstart⟩ ?_).2
  intro w ev w' hboth _ hstep
  obtain ⟨hw, hinorder⟩ := hboth
  have hstepped := hw.step hstep
  obtain ⟨es, hrun⟩ := hstepped.run
  exact ⟨hstepped.wired hw, hinorder.run hrun⟩

/-- A slot of a descriptor has that descriptor in `_fd`, or was never initialised. -/
def Slot.Belongs (s : Slot) (fd : Nat) : Prop := s.conn.conn.fd = 0 ∨ s.conn.conn.fd = fd

/-- No step gives a slot another descriptor. -/
theorem SlotMove.belongs {fd : Nat} {stays : Side → Prop} {s s' : Slot}
    (h : SlotMove fd stays s s') (hs : s.Belongs fd) : s'.Belongs fd := by
  have hnext : ∀ c : ConnState, (∃ ev, connNext s.conn ev = some c) →
      c.conn.fd = 0 ∨ c.conn.fd = fd := by
    intro c hc
    obtain ⟨ev, hev⟩ := hc
    rw [connNext_fd hev]
    exact hs
  cases h with
  | keep => exact hs
  | posts => exact hs
  | epoll => exact hs
  | fire => exact hs
  | take => exact hs
  | ready => exact hs
  | conn c post _ hc _ => exact hnext c hc
  | begins side x c mask now ms ctl _ _ hc => exact hnext c hc
  | goesOn side c _ _ hc _ => exact hnext c hc
  | ends side c post mask ms ctl _ _ hc => exact hnext c hc
  | created op post _ _ _ =>
      right
      change (s.conn.conn.create fd).fd = fd
      rw [create_fd]
      split
      · rfl
      · rename_i hne
        exact hs.resolve_left hne
  | destroyed => exact hs

/-- In every run all slots belong to their descriptors. -/
theorem World.belongs_of_run {maxfd : Nat} {ok : World → WorldEvent → Prop} {w : World}
    {es : List WorldEvent} (h : Run World.step ok (World.start maxfd) es w) (fd : Nat) :
    (w.slot fd).Belongs fd := by
  refine (h.invariant (fun w => w.Wired ∧ (w.slot fd).Belongs fd)
    ⟨World.wired_start maxfd, Or.inl rfl⟩ ?_).2
  intro w ev w' hboth _ hstep
  obtain ⟨hw, hbelongs⟩ := hboth
  have hstepped := hw.step hstep
  exact ⟨hstepped.wired hw, (hstepped.moves fd).belongs hbelongs⟩

/-- The tasks of a slot after `spe_conn_create`. -/
theorem World.create_task (w : World) (fd : Nat) {t : TaskId} (ht : t.Of fd) :
    (w.create fd).task t =
      if (w.conns fd).conn.fd = 0 then
        { handler := none, expire := 0, status := .free, fast := false, timeout := false }
      else w.task t := by
  unfold World.create
  dsimp only
  split
  · change (w.initTasks fd).task t = _
    unfold World.initTasks
    dsimp only
    simp only [World.init_task]
    cases t with
    | op i side =>
        obtain rfl : i = fd := ht
        cases side <;> simp
    | post i side =>
        obtain rfl : i = fd := ht
        cases side <;> simp
    | user n => exact ht.elim
  · rfl

/-- `spe_conn_create` touches neither the containers nor the control stack. -/
theorem World.create_machine (w : World) (fd : Nat) :
    w.SameNow (w.create fd) ∧ (w.create fd).machine.aborted = w.machine.aborted := by
  unfold World.create
  dsimp only
  split <;> exact ⟨⟨rfl, rfl, rfl, rfl⟩, rfl⟩

/-- `spe_conn_create` touches no other module. -/
theorem World.create_rest (w : World) (fd : Nat) :
    (w.create fd).epolls = w.epolls ∧ (w.create fd).entered = w.entered ∧
    (w.create fd).crashed = w.crashed ∧ (w.create fd).maxfd = w.maxfd ∧
    (w.create fd).conns = Function.update w.conns fd (.created (w.conns fd).conn fd) ∧
    (w.create fd).live = Function.update w.live fd true := by
  unfold World.create
  dsimp only
  split <;> exact ⟨rfl, rfl, rfl, rfl, rfl, rfl⟩

/-- A private task after `spe_conn_create`. -/
theorem World.Wired.create_op {w : World} (hw : w.Wired) {fd : Nat} (hdead : w.live fd = false)
    (side : Side) :
    ((w.create fd).task (.op fd side)).status = .free ∧
    ((w.create fd).task (.op fd side)).fast = false ∧
    ((w.create fd).task (.op fd side)).timeout = w.timeoutLeft fd side := by
  have hstatus : (w.task (.op fd side)).status = .free := (hw.slots fd).idle_of_dead hdead side
  have hfast : (w.task (.op fd side)).fast = false := (hw.slots fd).slow side
  rw [w.create_task fd (t := .op fd side) rfl, World.timeoutLeft]
  split
  · exact ⟨rfl, rfl, rfl⟩
  · exact ⟨hstatus, hfast, rfl⟩

/-- A post task after `spe_conn_create`. -/
theorem World.Wired.create_post {w : World} (hw : w.Wired) {fd : Nat}
    (hdead : w.live fd = false) (side : Side) :
    ((w.create fd).task (.post fd side)).status = .free ∧
    (((w.create fd).task (.post fd side)).handler, ((w.create fd).task (.post fd side)).fast) =
      w.handlerLeft fd side := by
  have hstatus : (w.task (.post fd side)).status = .free := (hw.slots fd).dead hdead side
  rw [w.create_task fd (t := .post fd side) rfl, World.handlerLeft]
  split
  · exact ⟨rfl, rfl⟩
  · exact ⟨hstatus, rfl⟩

/-- The same leftovers have the same timeout bits and handlers. -/
theorem World.left_of_leftovers {w v : World} {fd : Nat} (hleft : w.leftovers fd = v.leftovers fd)
    (side : Side) : w.timeoutLeft fd side = v.timeoutLeft fd side ∧
      w.handlerLeft fd side = v.handlerLeft fd side := by
  cases side with
  | read => exact ⟨congrArg Leftovers.readTask hleft, congrArg Leftovers.postReadTask hleft⟩
  | write => exact ⟨congrArg Leftovers.writeTask hleft, congrArg Leftovers.postWriteTask hleft⟩

/-- The tasks of two slots with the same leftovers after `spe_conn_create`. -/
theorem created_tasks_alike {w v : World} {fd : Nat} (hw : w.Wired) (hv : v.Wired)
    (hdead : w.live fd = false) (hdead' : v.live fd = false) (helse : World.SameElse fd w v)
    (hleft : w.leftovers fd = v.leftovers fd) (t : TaskId) :
    TaskAlike t.IsOp ((w.create fd).task t) ((v.create fd).task t) := by
  by_cases ht : t.Of fd
  · cases t with
    | op i side =>
        obtain rfl : i = fd := ht
        obtain ⟨hstatus, hfast, htimeout⟩ := hw.create_op hdead side
        obtain ⟨hstatus', hfast', htimeout'⟩ := hv.create_op hdead' side
        refine ⟨hstatus.trans hstatus'.symm, hfast.trans hfast'.symm, ?_, fun hnot => ?_, fun _ => ?_⟩
        · intro htimer
          cases hstatus.symm.trans htimer
        · exact absurd trivial hnot
        · rw [htimeout, htimeout', (World.left_of_leftovers hleft side).1]
    | post i side =>
        obtain rfl : i = fd := ht
        obtain ⟨hstatus, hpair⟩ := hw.create_post hdead side
        obtain ⟨hstatus', hpair'⟩ := hv.create_post hdead' side
        rw [(World.left_of_leftovers hleft side).2, ← hpair'] at hpair
        obtain ⟨hhandler, hfast⟩ := Prod.mk.inj hpair
        refine ⟨hstatus.trans hstatus'.symm, hfast, ?_, fun _ => hhandler, False.elim⟩
        intro htimer
        cases hstatus.symm.trans htimer
    | user n => exact ht.elim
  · have hsame : (w.create fd).task t = (v.create fd).task t := by
      rw [(w.sameElse_create fd).tasks t ht, (v.sameElse_create fd).tasks t ht, helse.tasks t ht]
    rw [hsame]
    exact .refl _ _

/-- What the steps of a process preserve in every run. -/
structure World.Sound (w : World) (fd : Nat) : Prop where
  wired : w.Wired
  inOrder : InOrder w.machine.sched
  belongs : (w.slot fd).Belongs fd

/-- Every run does. -/
theorem World.sound_of_run {maxfd : Nat} {ok : World → WorldEvent → Prop} {w : World}
    {es : List WorldEvent} (h : Run World.step ok (World.start maxfd) es w) (fd : Nat) :
    w.Sound fd :=
  ⟨World.wired_of_run h, World.inOrder_of_run h, World.belongs_of_run h fd⟩

/-- `_fd` after `spe_conn_create`. -/
theorem World.Sound.create_fd {w : World} {fd : Nat} (h : w.Sound fd) :
    ((w.conns fd).conn.create fd).fd = fd := by
  have hbelongs : (w.conns fd).conn.fd = 0 ∨ (w.conns fd).conn.fd = fd := h.belongs
  rw [Spe.create_fd]
  split
  · rfl
  · rename_i hne
    exact hbelongs.resolve_left hne

/-- What `World.step` does at `spe_conn_create`. -/
theorem World.step_create {w w' : World} {fd : Nat} (h : w.step (.create fd) = some w') :
    w.crashed = false ∧ w.machine.aborted = false ∧ w.entered = none ∧ w.live fd = false ∧
      w' = w.create fd := by
  unfold World.step at h
  obtain ⟨hgoes, h⟩ := Option.ite_none_left_eq_some.mp h
  obtain ⟨⟨huser, _, hdead⟩, ⟨⟩⟩ := Option.ite_none_right_eq_some.mp h
  obtain ⟨_, hquiet⟩ := World.userRuns_spec huser
  obtain ⟨hcrashed, haborted⟩ := not_or.mp hgoes
  exact ⟨Bool.eq_false_iff.mpr hcrashed, Bool.eq_false_iff.mpr haborted, hquiet, hdead, rfl⟩

/-- **Where the runs meet.**  `spe_conn_create` makes alike processes of two that agree
outside the slot and have the same left in it. -/
theorem recycled_meet {w v w' v' : World} {fd : Nat} (hw : w.Sound fd) (hv : v.Sound fd)
    (helse : World.SameElse fd w v) (hnow : w.SameNow v)
    (hleft : w.leftovers fd = v.leftovers fd) (hstep : w.step (.create fd) = some w')
    (hstep' : v.step (.create fd) = some v') : World.Alike fd w' v' := by
  obtain ⟨hcrashed, haborted, hquiet, hdead, rfl⟩ := World.step_create hstep
  obtain ⟨hcrashed', haborted', hquiet', hdead', rfl⟩ := World.step_create hstep'
  obtain ⟨hkept, habort⟩ := w.create_machine fd
  obtain ⟨hkept', habort'⟩ := v.create_machine fd
  obtain ⟨hepolls, hentered, hcrash, hmaxfd, hconns, hlive⟩ := w.create_rest fd
  obtain ⟨hepolls', hentered', hcrash', hmaxfd', hconns', hlive'⟩ := v.create_rest fd
  have hinorder : ∀ {x x' : World}, x.Sound fd → x.step (.create fd) = some x' →
      InOrder x'.machine.sched := by
    intro x x' hx hxstep
    obtain ⟨es, hrun⟩ := (hx.wired.step hxstep).run
    exact hx.inOrder.run hrun
  refine ⟨?_, ⟨⟨?_, ?_, ?_⟩, ?_, ?_, ?_⟩, hinorder hw hstep, hinorder hv hstep', ?_, ?_, ?_, ?_,
    ?_, ?_⟩
  · rw [hmaxfd, hmaxfd', helse.maxfd]
  · exact created_tasks_alike hw.wired hv.wired hdead hdead' helse hleft
  · rw [← hkept.taskHead, ← hkept'.taskHead, hnow.taskHead]
  · rw [← hkept.timers, ← hkept'.timers, hnow.timers]
  · rw [← hkept.now, ← hkept'.now, hnow.now]
  · rw [← hkept.stack, ← hkept'.stack, hnow.stack]
  · rw [habort, habort', haborted, haborted']
  · rw [hepolls, hepolls']
    funext i
    by_cases hi : i = fd
    · subst hi
      have hentry : ∀ x : World, x.epolls i =
          ⟨(x.leftovers i).mask, (x.leftovers i).readPointer, (x.leftovers i).writePointer⟩ :=
        fun _ => rfl
      rw [hentry w, hentry v, hleft]
    · exact (helse.epolls i hi).symm
  · intro i hi
    rw [hconns, hconns', Function.update_of_ne hi, Function.update_of_ne hi, helse.conns i hi]
  · rw [hconns, hconns', Function.update_self, Function.update_self]
    apply created_alike
    · rw [hw.create_fd, hv.create_fd]
    · intro k
      cases k with
      | read => exact congrArg Leftovers.readTimeout hleft
      | connect => exact congrArg Leftovers.connectTimeout hleft
      | flush => exact congrArg Leftovers.writeTimeout hleft
  · rw [hentered, hentered', hquiet, hquiet']
  · rw [hcrash, hcrash', hcrashed, hcrashed']
  · rw [hlive, hlive']
    funext i
    by_cases hi : i = fd
    · subst hi
      rw [Function.update_self, Function.update_self]
    · rw [Function.update_of_ne hi, Function.update_of_ne hi, helse.live i hi]

/-- **Step lemma.**  The same event keeps two processes alike and shows the same in
both. -/
theorem World.Alike.step_shows {fd : Nat} {w v : World} (h : World.Alike fd w v) (hw : w.Wired)
    (hv : v.Wired) {ev : WorldEvent} (hsuits : ev.Suits fd (w, v)) :
    (w.step ev).map (w.shows fd) = (v.step ev).map (v.shows fd) := by
  rcases rel_cases (h.step hw hv hsuits) with
    ⟨hnone, hnone'⟩ | ⟨w', v', hstep, hstep', halike⟩
  · rw [hnone, hnone']
    rfl
  · rw [hstep, hstep']
    exact congrArg some (h.shows halike ((hw.step hstep).wired hw) ((hv.step hstep').wired hv))

/-- What happens to one descriptor's connection is defined. -/
def World.Defined (w : World) (fd : Nat) : WorldEvent → Prop
  | .userCall i cev _ => i = fd → (w.conns fd).conn.Defined cev
  | .handle (.read al rs) _ =>
      w.entered = some (.readTask fd) → (w.task (.readTask fd)).handler = some (.readNormal fd) →
        (w.conns fd).conn.Defined (.readNormal (w.task (.readTask fd)).timeout al rs)
  | .handle (.write r) _ =>
      w.entered = some (.writeTask fd) →
        (w.conns fd).conn.Defined (.writeNormal (w.task (.writeTask fd)).timeout r)
  | _ => True

/-- An event that is the same for one descriptor's connection in two processes: the
environment answers the same, and it is defined in both. -/
structure WorldEvent.Same (fd : Nat) (p : World × World) (ev : WorldEvent) : Prop where
  suits : ev.Suits fd p
  left : p.1.Defined fd ev
  right : p.2.Defined fd ev

/-- **A recycled connection** is like any other whose slot has the same left in it.
Take two histories of the slot of a descriptor that agree in everything outside the
slot, and in what `Leftovers` lists.  After `spe_conn_create` in both, along all events
that are the same for both, the two connections show the same, and every next step is
possible in both or in none, shows the same and calls the same handler. -/
theorem recycled_alike {maxfd fd : Nat} {es es' fs : List WorldEvent} {w v w₁ v₁ : World}
    {p : World × World} (hrun : Run World.step anyStep (World.start maxfd) es w)
    (hrun' : Run World.step anyStep (World.start maxfd) es' v)
    (helse : World.SameElse fd w v) (hnow : w.SameNow v)
    (hleft : w.leftovers fd = v.leftovers fd)
    (hcreate : w.step (.create fd) = some w₁) (hcreate' : v.step (.create fd) = some v₁)
    (hlater : Run (twinStep World.step) (fun q ev => ev.Same fd q) (w₁, v₁) fs p) :
    (p.1.conns fd).conn.shown = (p.2.conns fd).conn.shown ∧
    ∀ ev, WorldEvent.Same fd p ev →
      (p.1.step ev).map (p.1.shows fd) = (p.2.step ev).map (p.2.shows fd) := by
  have hw := World.sound_of_run hrun fd
  have hv := World.sound_of_run hrun' fd
  have hmeet := recycled_meet hw hv helse hnow hleft hcreate hcreate'
  have hwired : w₁.Wired ∧ v₁.Wired :=
    ⟨(hw.wired.step hcreate).wired hw.wired, (hv.wired.step hcreate').wired hv.wired⟩
  have halike : World.Alike fd p.1 p.2 ∧ p.1.Wired ∧ p.2.Wired := by
    refine hlater.lockstep (fun x y => World.Alike fd x y ∧ x.Wired ∧ y.Wired) ?_
      ⟨hmeet, hwired⟩
    intro x y ev hxy hsame
    obtain ⟨hxy, hx, hy⟩ := hxy
    rcases rel_cases (hxy.step hx hy hsame.suits) with
      ⟨hnone, hnone'⟩ | ⟨x', y', hstep, hstep', hnext⟩
    · rw [hnone, hnone']
      exact .none
    · rw [hstep, hstep']
      exact .some ⟨hnext, (hx.step hstep).wired hx, (hy.step hstep').wired hy⟩
  obtain ⟨hlike, hleftWired, hrightWired⟩ := halike
  exact ⟨hlike.conn.conn.shown,
    fun ev hsame => hlike.step_shows hleftWired hrightWired hsame.suits⟩

/-- A connection that is destroyed while a read with a time limit is pending. -/
def quietHistory : List WorldEvent :=
  [.create 5, .userCall 5 (.setTimeout 1000 1000) ctlGood,
    .userCall 5 (.issue (.readbytes 2) zeroAllocs (.data [97])) ctlGood, .destroy 5 ctlGood]

/-- A read of one byte returns the same whatever the buffer. -/
theorem syncEvent_suits (w v : World) : syncEvent.Suits 5 (w, v) := by
  intro _
  refine ⟨sameRead_of_alloc _ _ rfl ?_, fun src => sameAppend_of_alloc _ _ src rfl⟩
  intro bs hbs
  obtain rfl := ReadRes.data.inj hbs
  decide

/-- So it does where it is defined. -/
theorem syncEvent_same {w v : World}
    (hw : (w.conns 5).conn.Defined (.issue (.readbytes 1) zeroAllocs (.data [97])))
    (hv : (v.conns 5).conn.Defined (.issue (.readbytes 1) zeroAllocs (.data [97]))) :
    syncEvent.Same 5 (w, v) :=
  ⟨syncEvent_suits w v, fun _ => hw, fun _ => hv⟩

/-- A slot with this history is like one that was never used. -/
theorem recycled_alike_quiet : ∃ (w w₁ v₁ : World) (p : World × World),
    Run World.step anyStep (World.start 8) quietHistory w ∧ w.step (.create 5) = some w₁ ∧
    (World.start 8).step (.create 5) = some v₁ ∧
    twinStep World.step (w₁, v₁) syncEvent = some p ∧
    ((p.1.conns 5).conn.shown = (p.2.conns 5).conn.shown ∧
      ∀ ev, WorldEvent.Same 5 p ev →
        (p.1.step ev).map (p.1.shows 5) = (p.2.step ev).map (p.2.shows 5)) := by
  have hleft : (exec World.step (World.start 8) quietHistory).map (fun w =>
      (decide (w.machine.now = 0 ∧ w.machine.stack = [] ∧ w.machine.sched.taskHead = [] ∧
          w.machine.sched.timers = [] ∧ w.leftovers 5 = (World.start 8).leftovers 5),
        (w.step (.create 5)).map (fun w₁ => ((w₁.step syncEvent).isSome,
          decide ((w₁.conns 5).conn.Defined (.issue (.readbytes 1) zeroAllocs (.data [97]))))))) =
      some (true, some (true, true)) := by
    decide +kernel
  have hright : ((World.start 8).step (.create 5)).map (fun v₁ => ((v₁.step syncEvent).isSome,
      decide ((v₁.conns 5).conn.Defined (.issue (.readbytes 1) zeroAllocs (.data [97]))))) =
      some (true, true) := by
    decide +kernel
  obtain ⟨w, hexec, hboth⟩ := Option.map_eq_some_iff.mp hleft
  obtain ⟨hfacts, hgoes⟩ := Prod.mk.inj hboth
  obtain ⟨hnow, hstack, hhead, htimers, hsame⟩ := of_decide_eq_true hfacts
  obtain ⟨w₁, hcreate, hw₁⟩ := Option.map_eq_some_iff.mp hgoes
  obtain ⟨v₁, hcreate', hv₁⟩ := Option.map_eq_some_iff.mp hright
  obtain ⟨hgoes, hfits⟩ := Prod.mk.inj hw₁
  obtain ⟨hgoes', hfits'⟩ := Prod.mk.inj hv₁
  obtain ⟨w₂, hsync⟩ := Option.isSome_iff_exists.mp hgoes
  obtain ⟨v₂, hsync'⟩ := Option.isSome_iff_exists.mp hgoes'
  have habout : Run World.step (fun _ ev => ev.About 5) (World.start 8) quietHistory w :=
    run_of_exec (by simp [quietHistory, WorldEvent.About]) hexec
  have helse : World.SameElse 5 w (World.start 8) :=
    (World.sameElse_of_run habout).join (.refl 5 _)
  have hsteps : twinStep World.step (w₁, v₁) syncEvent = some (w₂, v₂) :=
    twinStep_eq_some.mpr ⟨hsync, hsync'⟩
  have hrun := run_iff_exec.mpr hexec
  exact ⟨w, w₁, v₁, (w₂, v₂), hrun, hcreate, hcreate', hsteps,
    recycled_alike hrun (Run.nil _) helse ⟨hnow, hstack, hhead, htimers⟩ hsame hcreate hcreate'
      (Run.single hsteps (syncEvent_same (of_decide_eq_true hfits) (of_decide_eq_true hfits')))⟩

/-- The same connection after its read has timed out and the post task was called. -/
def staleHistory : List WorldEvent :=
  expiryEvents ++ [expiredEvent, .ret, .loop, .ret, .loop, .destroy 5 ctlGood]

/-- **A flag that is carried over.**  Two slots of the same descriptor: one had a
connection whose read timed out, the other was never used.  The new connections read
the same byte at once, and only the first has `read_timeout` set. -/
theorem recycled_shows : ∃ w v w₁ v₁ w₂ v₂ : World,
    Run World.step anyStep (World.start 8) staleHistory w ∧
    Run World.step anyStep (World.start 8) [.tick 1000] v ∧
    World.SameElse 5 w v ∧ w.SameNow v ∧
    w.step (.create 5) = some w₁ ∧ v.step (.create 5) = some v₁ ∧
    syncEvent.Same 5 (w₁, v₁) ∧
    w₁.step syncEvent = some w₂ ∧ v₁.step syncEvent = some v₂ ∧
    (w₂.conns 5).conn.shown.readTimeout = true ∧
    (v₂.conns 5).conn.shown.readTimeout = false := by
  have hleft : (exec World.step (World.start 8) staleHistory).map (fun w =>
      (decide (w.machine.now = 1000 ∧ w.machine.stack = [] ∧ w.machine.sched.taskHead = [] ∧
          w.machine.sched.timers = []),
        (w.step (.create 5)).map (fun w₁ => ((w₁.step syncEvent).map
            (fun w₂ => (w₂.conns 5).conn.shown.readTimeout),
          decide ((w₁.conns 5).conn.Defined (.issue (.readbytes 1) zeroAllocs (.data [97]))))))) =
      some (true, some (some true, true)) := by
    decide +kernel
  have hright : (exec World.step (World.start 8) [.tick 1000]).map (fun v =>
      (decide (v.machine.now = 1000 ∧ v.machine.stack = [] ∧ v.machine.sched.taskHead = [] ∧
          v.machine.sched.timers = []),
        (v.step (.create 5)).map (fun v₁ => ((v₁.step syncEvent).map
            (fun v₂ => (v₂.conns 5).conn.shown.readTimeout),
          decide ((v₁.conns 5).conn.Defined (.issue (.readbytes 1) zeroAllocs (.data [97]))))))) =
      some (true, some (some false, true)) := by
    decide +kernel
  obtain ⟨w, hexec, hboth⟩ := Option.map_eq_some_iff.mp hleft
  obtain ⟨hfacts, hflag⟩ := Prod.mk.inj hboth
  obtain ⟨hnow, hstack, hhead, htimers⟩ := of_decide_eq_true hfacts
  obtain ⟨w₁, hcreate, hw₁⟩ := Option.map_eq_some_iff.mp hflag
  obtain ⟨hflag, hfits⟩ := Prod.mk.inj hw₁
  obtain ⟨w₂, hsync, hset⟩ := Option.map_eq_some_iff.mp hflag
  obtain ⟨v, hexec', hboth'⟩ := Option.map_eq_some_iff.mp hright
  obtain ⟨hfacts', hflag'⟩ := Prod.mk.inj hboth'
  obtain ⟨hnow', hstack', hhead', htimers'⟩ := of_decide_eq_true hfacts'
  obtain ⟨v₁, hcreate', hv₁⟩ := Option.map_eq_some_iff.mp hflag'
  obtain ⟨hflag', hfits'⟩ := Prod.mk.inj hv₁
  obtain ⟨v₂, hsync', hclear⟩ := Option.map_eq_some_iff.mp hflag'
  have habout : Run World.step (fun _ ev => ev.About 5) (World.start 8) staleHistory w :=
    run_of_exec (by simp [staleHistory, expiryEvents, expiredEvent, WorldEvent.About]) hexec
  have habout' : Run World.step (fun _ ev => ev.About 5) (World.start 8) [.tick 1000] v :=
    run_of_exec (by simp [WorldEvent.About]) hexec'
  have hsame : w.SameNow v :=
    ⟨hnow.trans hnow'.symm, hstack.trans hstack'.symm, hhead.trans hhead'.symm,
      htimers.trans htimers'.symm⟩
  exact ⟨w, v, w₁, v₁, w₂, v₂, run_iff_exec.mpr hexec, run_iff_exec.mpr hexec',
    (World.sameElse_of_run habout).join (World.sameElse_of_run habout'), hsame, hcreate, hcreate',
    syncEvent_same (of_decide_eq_true hfits) (of_decide_eq_true hfits'), hsync, hsync', hset, hclear⟩

end Spe
