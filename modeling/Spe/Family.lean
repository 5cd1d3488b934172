import Spe.WorkerTable

/-!
# The master and its workers (`spe_worker.c`, `spe.c`)

The master tells a worker to stop over the socketpair of that worker, and a worker stops as
well when it reads the end of file, which it does once no process has the other end open.
But `fork` copies the descriptors of the master: a worker has the ends of the channels of all
workers that were forked before it, and never closes them.

Still nobody is left behind.  The other end of a channel is with the master and with workers
that were forked later, so when the master is gone the worker that was forked last reads the
end of file, and when it is gone, the one before it (`workers_all_stop`).  And nobody stops for
nothing: as long as the master is there, a worker only stops when it has been told
(`workers_stop_when_told`).

A descriptor is named by the socket that it refers to; so copies have the same name, and
`socketpair` gives out names that have not been used.
-/

namespace Spe

open Transition

/-- A worker process: `control_fd`, `worker_stop`, and all socketpair descriptors that are open
in it.  `notifyFd` is history: the other end of its channel. -/
structure WorkerChild where
  pid : Int
  controlFd : Nat
  notifyFd : Nat
  held : List Nat
  workerStop : Bool
  deriving DecidableEq

/-- The processes.  `unread` tells from which descriptors a command has been written that is
not read yet; `used` is history: the sockets made so far. -/
structure Family where
  master : Option WorkerTable
  workers : List WorkerChild
  unread : List Nat
  used : List Nat

/-- `spe_worker_fork` in the child, which starts with a copy of the descriptors. -/
def workerForkChild (t : WorkerTable) (channel : Option (Nat × Nat)) (child : Option Int) :
    Option WorkerChild :=
  match t.getSlot, channel, child with
  | some _, some (ours, theirs), some pid =>
      some { pid := pid, controlFd := theirs, notifyFd := ours,
             held := (((t.fds.opens ours).opens theirs).close ours).held, workerStop := false }
  | _, _, _ => none

/-- What `read` of `control_fd` returns: a command, or the end of file. -/
inductive ControlRead
  | command
  | eof

namespace Family

variable (s : Family)

/-- The master forks its workers from an empty table. -/
def start : Family where
  master := some WorkerTable.start
  workers := []
  unread := []
  used := []

/-- Some process has the descriptor open. -/
def holds (fd : Nat) : Bool :=
  s.master.any (fun t => fd ∈ t.fds.held) || s.workers.any (fun w => fd ∈ w.held)

/-- `read` of `control_fd`; `none` when there is nothing to read yet. -/
def readControl (w : WorkerChild) : Option ControlRead :=
  if w.notifyFd ∈ s.unread then some .command
  else if s.holds w.notifyFd then none else some .eof

/-- The sockets of a new channel have not been used, and the pid is that of no process. -/
def granted (t : WorkerTable) (channel : Option (Nat × Nat)) (child : Option Int) : Bool :=
  t.granted channel child && channel.all (fun p => p.1 ∉ s.used ∧ p.2 ∉ s.used) &&
    child.all (fun pid => s.workers.all (fun w => w.pid ≠ pid))

/-- `spe_worker_fork`. -/
def fork (t : WorkerTable) (channel : Option (Nat × Nat)) (child : Option Int) : Family :=
  { s with
    master := some (t.workerFork channel child).1
    workers := s.workers ++ (workerForkChild t channel child).toList
    used := s.used ++ channel.elim [] (fun p => [p.1, p.2]) }

/-- `spe_worker_stop`. -/
def stop (t : WorkerTable) : Family :=
  { s with
    master := some t.workerStop
    unread := s.unread ++ t.workerStop.told.drop t.told.length }

/-- `worker_control_handler` of a worker. -/
def control (w : WorkerChild) : Family :=
  { s with
    workers := s.workers.map (fun v => if v.pid = w.pid then { v with workerStop := true } else v)
    unread := s.unread.erase w.notifyFd }

/-- A process is gone, and its descriptors with it. -/
def remove (pid : Int) : Family :=
  { s with workers := s.workers.filter (fun w => w.pid ≠ pid) }

end Family

/-- What can happen to the processes: `spe_worker_fork`, `spe_worker_reset` with a pid that
`waitpid` has returned, `spe_worker_stop`, the end of the master, a read of `control_fd`, the
end of a worker that has left its loop, or the crash of a worker. -/
inductive FamilyEvent
  | fork (channel : Option (Nat × Nat)) (child : Option Int)
  | reset (pid : Int)
  | stop
  | gone
  | control (pid : Int)
  | leave (pid : Int)
  | crash (pid : Int)

/-- The worker that makes the step. -/
def FamilyEvent.worker : FamilyEvent → Option Int
  | .control pid => some pid
  | .leave pid => some pid
  | .crash pid => some pid
  | _ => none

/-- The step of the processes. -/
def Family.step (s : Family) : FamilyEvent → Option Family
  | .fork channel child =>
      match s.master with
      | none => none
      | some t => if s.granted t channel child then some (s.fork t channel child) else none
  | .reset pid =>
      match s.master with
      | none => none
      | some t =>
          if pid ≠ 0 ∧ s.workers.all (fun w => w.pid ≠ pid) then
            some { s with master := some (t.workerReset pid).1 }
          else none
  | .stop =>
      match s.master with
      | none => none
      | some t => some (s.stop t)
  | .gone => if s.master.isSome then some { s with master := none } else none
  | .control pid =>
      match s.workers.find? (fun w => w.pid = pid) with
      | none => none
      | some w =>
          if ¬ w.workerStop ∧ (s.readControl w).isSome then some (s.control w) else none
  | .leave pid =>
      match s.workers.find? (fun w => w.pid = pid) with
      | none => none
      | some w => if w.workerStop then some (s.remove pid) else none
  | .crash pid =>
      match s.workers.find? (fun w => w.pid = pid) with
      | none => none
      | some _ => some (s.remove pid)

/-- What the table of the master knows of the workers that live. -/
structure MasterKnows (s : Family) (t : WorkerTable) : Prop where
  heldUsed : ∀ fd ∈ t.fds.held, fd ∈ s.used
  slotUsed : ∀ slot ∈ t.speWorkers, slot.pid ≠ 0 → slot.notifyFd ∈ s.used
  toldUsed : ∀ fd ∈ t.told, fd ∈ s.used
  owner : ∀ slot ∈ t.speWorkers, slot.pid ≠ 0 → ∀ w ∈ s.workers,
    slot.notifyFd = w.notifyFd → slot.pid = w.pid
  linked : ∀ w ∈ s.workers, w.notifyFd ∈ t.fds.held ∨ w.notifyFd ∈ t.told
  reached : ∀ w ∈ s.workers, w.notifyFd ∈ t.told →
    w.workerStop = true ∨ w.notifyFd ∈ s.unread
  stopped : ∀ w ∈ s.workers, w.workerStop = true → w.notifyFd ∈ t.told
  unread : ∀ fd ∈ s.unread, fd ∈ t.told

/-- The other end of the channel of a worker is not open in the worker itself, nor in a worker
that was forked before it. -/
structure Family.Sound (s : Family) : Prop where
  pids : (s.workers.map WorkerChild.pid).Nodup
  channels : (s.workers.map WorkerChild.notifyFd).Nodup
  used : ∀ w ∈ s.workers, w.notifyFd ∈ s.used ∧ ∀ fd ∈ w.held, fd ∈ s.used
  own : ∀ w ∈ s.workers, w.notifyFd ∉ w.held
  earlier : s.workers.Pairwise (fun v w => w.notifyFd ∉ v.held)
  master : ∀ t, s.master = some t → MasterKnows s t

/-- The workers that are gone leave the rest as it is. -/
theorem MasterKnows.remove {s : Family} {t : WorkerTable} (h : MasterKnows s t) (pid : Int) :
    MasterKnows (s.remove pid) t where
  heldUsed := h.heldUsed
  slotUsed := h.slotUsed
  toldUsed := h.toldUsed
  owner slot hslot hpid w hw := h.owner slot hslot hpid w (List.mem_of_mem_filter hw)
  linked w hw := h.linked w (List.mem_of_mem_filter hw)
  reached w hw := h.reached w (List.mem_of_mem_filter hw)
  stopped w hw := h.stopped w (List.mem_of_mem_filter hw)
  unread := h.unread

namespace Family

variable {s : Family}

/-- The end of a worker. -/
theorem Sound.remove (h : s.Sound) (pid : Int) : (s.remove pid).Sound where
  pids := h.pids.sublist (List.filter_sublist.map _)
  channels := h.channels.sublist (List.filter_sublist.map _)
  used w hw := h.used w (List.mem_of_mem_filter hw)
  own w hw := h.own w (List.mem_of_mem_filter hw)
  earlier := h.earlier.sublist List.filter_sublist
  master t ht := (h.master t ht).remove pid

/-- The end of the master. -/
theorem Sound.gone (h : s.Sound) : ({ s with master := none } : Family).Sound where
  pids := h.pids
  channels := h.channels
  used := h.used
  own := h.own
  earlier := h.earlier
  master := by
    intro t ht
    cases ht

/-- Two workers on one channel are one. -/
theorem Sound.channel_unique (h : s.Sound) {v w : WorkerChild} (hv : v ∈ s.workers)
    (hw : w ∈ s.workers) (heq : v.notifyFd = w.notifyFd) : v = w :=
  List.inj_on_of_nodup_map h.channels hv hw heq

/-- Two workers with one pid are one. -/
theorem Sound.pid_unique (h : s.Sound) {v w : WorkerChild} (hv : v ∈ s.workers)
    (hw : w ∈ s.workers) (heq : v.pid = w.pid) : v = w :=
  List.inj_on_of_nodup_map h.pids hv hw heq

/-- The worker that has read is marked, and all else is as it was. -/
theorem mem_control {w v : WorkerChild} (hv : v ∈ (s.control w).workers) :
    ∃ u ∈ s.workers, v.pid = u.pid ∧ v.notifyFd = u.notifyFd ∧ v.held = u.held ∧
      ((u.pid = w.pid ∧ v.workerStop = true) ∨ (u.pid ≠ w.pid ∧ v.workerStop = u.workerStop)) := by
  obtain ⟨u, hu, rfl⟩ := List.mem_map.mp hv
  refine ⟨u, hu, ?_⟩
  by_cases hpid : u.pid = w.pid
  · simp [hpid]
  · simp [hpid]

/-- A read of `control_fd`. -/
theorem Sound.control (h : s.Sound) {w : WorkerChild} (hw : w ∈ s.workers)
    (hread : (s.readControl w).isSome = true) : (s.control w).Sound where
  pids := by
    have hsame : (s.control w).workers.map WorkerChild.pid = s.workers.map WorkerChild.pid := by
      simp only [Family.control, List.map_map]
      apply List.map_congr_left
      intro v _
      by_cases hpid : v.pid = w.pid <;> simp [hpid]
    rw [hsame]
    exact h.pids
  channels := by
    have hsame : (s.control w).workers.map WorkerChild.notifyFd =
        s.workers.map WorkerChild.notifyFd := by
      simp only [Family.control, List.map_map]
      apply List.map_congr_left
      intro v _
      by_cases hpid : v.pid = w.pid <;> simp [hpid]
    rw [hsame]
    exact h.channels
  used v hv := by
    obtain ⟨u, hu, _, hfd, hheld, _⟩ := mem_control hv
    rw [hfd, hheld]
    exact h.used u hu
  own v hv := by
    obtain ⟨u, hu, _, hfd, hheld, _⟩ := mem_control hv
    rw [hfd, hheld]
    exact h.own u hu
  earlier := by
    apply List.pairwise_map.mpr
    refine h.earlier.imp ?_
    intro u v huv
    by_cases hu : u.pid = w.pid <;> by_cases hv : v.pid = w.pid <;> simpa [hu, hv] using huv
  master t ht := by
    have hknows := h.master t ht
    have hreached : w.notifyFd ∈ t.told := by
      -- the master is there, so what was read is a command
      by_contra hnot
      have hunread : w.notifyFd ∉ s.unread := fun hmem => hnot (hknows.unread _ hmem)
      have hlinked := (hknows.linked w hw).resolve_right hnot
      have hholds : s.holds w.notifyFd = true := by
        have hmaster : s.master = some t := ht
        simp [holds, hmaster, hlinked]
      simp [readControl, hunread, hholds] at hread
    constructor
    · exact hknows.heldUsed
    · exact hknows.slotUsed
    · exact hknows.toldUsed
    · intro slot hslot hpid v hv heq
      obtain ⟨u, hu, hvpid, hfd, _, _⟩ := mem_control hv
      rw [hvpid]
      exact hknows.owner slot hslot hpid u hu (heq.trans hfd)
    · intro v hv
      obtain ⟨u, hu, _, hfd, _, _⟩ := mem_control hv
      rw [hfd]
      exact hknows.linked u hu
    · intro v hv htold
      obtain ⟨u, hu, _, hfd, _, hstop⟩ := mem_control hv
      rw [hfd] at htold ⊢
      rcases hstop with ⟨_, hstop⟩ | ⟨hne, hstop⟩
      · exact Or.inl hstop
      · rw [hstop]
        refine (hknows.reached u hu htold).imp id ?_
        intro hmem
        have hother : u.notifyFd ≠ w.notifyFd :=
          fun heq => hne (congrArg WorkerChild.pid (h.channel_unique hu hw heq))
        exact (List.mem_erase_of_ne hother).mpr hmem
    · intro v hv hvstop
      obtain ⟨u, hu, _, hfd, _, hstop⟩ := mem_control hv
      rw [hfd]
      rcases hstop with ⟨hpid, _⟩ | ⟨_, hstop⟩
      · rw [h.pid_unique hu hw hpid]
        exact hreached
      · exact hknows.stopped u hu (hstop ▸ hvstop)
    · intro fd hfd
      exact hknows.unread fd (List.mem_of_mem_erase hfd)

/-- What the kernel promises of a new channel and of a new process. -/
theorem granted_fresh {t : WorkerTable} {ours theirs : Nat} {child : Option Int}
    (h : s.granted t (some (ours, theirs)) child = true) :
    ours ≠ theirs ∧ ours ∉ s.used ∧ theirs ∉ s.used ∧
      ∀ pid, child = some pid → pid ≠ 0 ∧ ∀ w ∈ s.workers, w.pid ≠ pid := by
  simp only [granted, Bool.and_eq_true, Option.all_some, decide_eq_true_eq] at h
  obtain ⟨⟨hgranted, hours, htheirs⟩, hchild⟩ := h
  obtain ⟨hne, _, _, hpid⟩ := WorkerTable.granted_spec hgranted
  refine ⟨hne, hours, htheirs, ?_⟩
  intro pid heq
  subst heq
  simp only [Option.all_some, List.all_eq_true, decide_eq_true_eq] at hchild
  exact ⟨(hpid pid rfl).1, hchild⟩

/-- A `spe_worker_fork` that makes no process may leave descriptors open. -/
theorem Sound.childless (h : s.Sound) {t t' : WorkerTable} (hmaster : s.master = some t)
    (hslots : t'.speWorkers = t.speWorkers) (htold : t'.told = t.told) (new : List Nat)
    (hkept : ∀ fd ∈ t.fds.held, fd ∈ t'.fds.held)
    (hnew : ∀ fd ∈ t'.fds.held, fd ∈ s.used ++ new) :
    ({ s with master := some t', used := s.used ++ new } : Family).Sound where
  pids := h.pids
  channels := h.channels
  used w hw := by
    obtain ⟨hfd, hheld⟩ := h.used w hw
    exact ⟨List.mem_append_left _ hfd, fun fd hmem => List.mem_append_left _ (hheld fd hmem)⟩
  own := h.own
  earlier := h.earlier
  master u hu := by
    obtain rfl := Option.some.inj hu
    have hknows := h.master t hmaster
    constructor
    · exact hnew
    · rw [hslots]
      exact fun slot hslot hpid => List.mem_append_left _ (hknows.slotUsed slot hslot hpid)
    · rw [htold]
      exact fun fd hfd => List.mem_append_left _ (hknows.toldUsed fd hfd)
    · rw [hslots]
      exact hknows.owner
    · rw [htold]
      exact fun w hw => (hknows.linked w hw).imp (hkept _) id
    · rw [htold]
      exact hknows.reached
    · rw [htold]
      exact hknows.stopped
    · rw [htold]
      exact hknows.unread

/-- A worker among those that were there before, or the new one. -/
theorem Sound.forked (h : s.Sound) {t : WorkerTable} (hmaster : s.master = some t)
    {ours theirs : Nat} {pid : Int} {i : Nat}
    (hgranted : s.granted t (some (ours, theirs)) (some pid) = true)
    (hslot : t.getSlot = some i) : (s.fork t (some (ours, theirs)) (some pid)).Sound := by
  obtain ⟨hne, hours, htheirs, hpid⟩ := granted_fresh hgranted
  obtain ⟨hpid0, hpidnew⟩ := hpid pid rfl
  have hknows := h.master t hmaster
  obtain ⟨w, hw⟩ : ∃ w : WorkerChild, w = ⟨pid, theirs, ours, theirs :: t.fds.held, false⟩ :=
    ⟨_, rfl⟩
  have hchild : workerForkChild t (some (ours, theirs)) (some pid) = some w := by
    simp [workerForkChild, hslot, hw, hne.symm]
  obtain ⟨t', ht'⟩ : ∃ t', t' = (t.workerFork (some (ours, theirs)) (some pid)).1 := ⟨_, rfl⟩
  have hheld : t'.fds.held = ours :: t.fds.held := by
    simp [ht', WorkerTable.workerFork, hslot]
  have hslots : t'.speWorkers = t.speWorkers.set i ⟨pid, ours⟩ := by
    simp [ht', WorkerTable.workerFork, hslot]
  have htold : t'.told = t.told := by
    simp [ht', WorkerTable.workerFork, hslot]
  have hfork : s.fork t (some (ours, theirs)) (some pid) =
      { s with
        master := some t', workers := s.workers ++ [w], used := s.used ++ [ours, theirs] } := by
    rw [Family.fork, hchild, ← ht']
    rfl
  -- the new socket is that of no worker and of no slot
  have hfresh : ∀ v ∈ s.workers, v.notifyFd ≠ ours :=
    fun v hv heq => hours (heq ▸ (h.used v hv).1)
  rw [hfork]
  constructor
  · rw [List.map_append, List.nodup_append]
    refine ⟨h.pids, by simp, ?_⟩
    intro a ha b hb heq
    obtain ⟨v, hv, rfl⟩ := List.mem_map.mp ha
    simp only [hw, List.map_cons, List.map_nil, List.mem_singleton] at hb
    exact hpidnew v hv (heq.trans hb)
  · rw [List.map_append, List.nodup_append]
    refine ⟨h.channels, by simp, ?_⟩
    intro a ha b hb heq
    obtain ⟨v, hv, rfl⟩ := List.mem_map.mp ha
    simp only [hw, List.map_cons, List.map_nil, List.mem_singleton] at hb
    exact hfresh v hv (heq.trans hb)
  · intro v hv
    rcases List.mem_append.mp hv with hold | hnew
    · obtain ⟨hfd, hopen⟩ := h.used v hold
      exact ⟨List.mem_append_left _ hfd, fun fd hmem => List.mem_append_left _ (hopen fd hmem)⟩
    · obtain rfl : v = w := List.mem_singleton.mp hnew
      subst hw
      refine ⟨by simp, ?_⟩
      intro fd hfd
      rcases List.mem_cons.mp hfd with rfl | hmem
      · simp
      · exact List.mem_append_left _ (hknows.heldUsed fd hmem)
  · intro v hv
    rcases List.mem_append.mp hv with hold | hnew
    · exact h.own v hold
    · obtain rfl : v = w := List.mem_singleton.mp hnew
      subst hw
      simp only [List.mem_cons, not_or]
      exact ⟨hne, fun hmem => hours (hknows.heldUsed _ hmem)⟩
  · rw [List.pairwise_append]
    refine ⟨h.earlier, List.pairwise_singleton _ _, ?_⟩
    intro v hv u hu
    obtain rfl : u = w := List.mem_singleton.mp hu
    subst hw
    exact fun hmem => hours ((h.used v hv).2 _ hmem)
  · intro u hu
    obtain rfl : t' = u := Option.some.inj hu
    constructor
    · intro fd hfd
      rw [hheld] at hfd
      rcases List.mem_cons.mp hfd with rfl | hmem
      · simp
      · exact List.mem_append_left _ (hknows.heldUsed fd hmem)
    · intro slot hmem hocc
      rw [hslots] at hmem
      rcases List.mem_or_eq_of_mem_set hmem with hold | rfl
      · exact List.mem_append_left _ (hknows.slotUsed slot hold hocc)
      · simp
    · intro fd hfd
      rw [htold] at hfd
      exact List.mem_append_left _ (hknows.toldUsed fd hfd)
    · intro slot hmem hocc v hv heq
      rw [hslots] at hmem
      rcases List.mem_append.mp hv with hold | hnew
      · rcases List.mem_or_eq_of_mem_set hmem with hslot | rfl
        · exact hknows.owner slot hslot hocc v hold heq
        · exact absurd heq.symm (hfresh v hold)
      · obtain rfl : v = w := List.mem_singleton.mp hnew
        subst hw
        rcases List.mem_or_eq_of_mem_set hmem with hslot | rfl
        · have hfd : slot.notifyFd = ours := heq
          exact absurd (hfd ▸ hknows.slotUsed slot hslot hocc) hours
        · rfl
    · intro v hv
      rw [hheld, htold]
      rcases List.mem_append.mp hv with hold | hnew
      · exact (hknows.linked v hold).imp (List.mem_cons_of_mem _) id
      · obtain rfl : v = w := List.mem_singleton.mp hnew
        subst hw
        exact Or.inl List.mem_cons_self
    · intro v hv hmem
      rw [htold] at hmem
      rcases List.mem_append.mp hv with hold | hnew
      · exact hknows.reached v hold hmem
      · obtain rfl : v = w := List.mem_singleton.mp hnew
        subst hw
        exact absurd (hknows.toldUsed _ hmem) hours
    · intro v hv hstop
      rw [htold]
      rcases List.mem_append.mp hv with hold | hnew
      · exact hknows.stopped v hold hstop
      · obtain rfl : v = w := List.mem_singleton.mp hnew
        subst hw
        cases hstop
    · rw [htold]
      exact hknows.unread

/-- `spe_worker_fork`. -/
theorem Sound.fork (h : s.Sound) {t : WorkerTable} (hmaster : s.master = some t)
    {channel : Option (Nat × Nat)} {child : Option Int}
    (hgranted : s.granted t channel child = true) : (s.fork t channel child).Sound := by
  have hknows := h.master t hmaster
  cases hslot : t.getSlot with
  | none =>
      have hfork : s.fork t channel child =
          { s with master := some t, used := s.used ++ channel.elim [] (fun p => [p.1, p.2]) } := by
        simp [Family.fork, WorkerTable.workerFork, workerForkChild, hslot]
      rw [hfork]
      exact h.childless hmaster rfl rfl _ (fun _ hfd => hfd)
        (fun fd hfd => List.mem_append_left _ (hknows.heldUsed fd hfd))
  | some i =>
      cases channel with
      | none =>
          have hfork : s.fork t none child =
              { s with master := some t, used := s.used ++ [] } := by
            simp [Family.fork, WorkerTable.workerFork, workerForkChild, hslot]
          rw [hfork]
          exact h.childless hmaster rfl rfl _ (fun _ hfd => hfd)
            (fun fd hfd => List.mem_append_left _ (hknows.heldUsed fd hfd))
      | some ends =>
          obtain ⟨ours, theirs⟩ := ends
          cases child with
          | some pid => exact h.forked hmaster hgranted hslot
          | none =>
              have hfork : s.fork t (some (ours, theirs)) none =
                  { s with
                    master := some { t with fds := (t.fds.opens ours).opens theirs }
                    used := s.used ++ [ours, theirs] } := by
                simp [Family.fork, WorkerTable.workerFork, workerForkChild, hslot]
              rw [hfork]
              refine @Sound.childless s h t { t with fds := (t.fds.opens ours).opens theirs }
                hmaster rfl rfl _ ?_ ?_
              · intro fd hfd
                exact List.mem_cons_of_mem _ (List.mem_cons_of_mem _ hfd)
              · intro fd hfd
                simp only [Descriptors.Table.opens_held, List.mem_cons] at hfd
                rcases hfd with rfl | rfl | hmem
                · simp
                · simp
                · exact List.mem_append_left _ (hknows.heldUsed fd hmem)

/-- `spe_worker_reset` of a process that is gone. -/
theorem Sound.reset (h : s.Sound) {t : WorkerTable} (hmaster : s.master = some t) {pid : Int}
    (hpid : pid ≠ 0) (hgone : ∀ w ∈ s.workers, w.pid ≠ pid) :
    ({ s with master := some (t.workerReset pid).1 } : Family).Sound where
  pids := h.pids
  channels := h.channels
  used := h.used
  own := h.own
  earlier := h.earlier
  master u hu := by
    obtain rfl := Option.some.inj hu
    have hknows := h.master t hmaster
    unfold WorkerTable.workerReset
    cases hfind : t.speWorkers.findIdx? (fun slot => slot.pid = pid) with
    | none => exact { hknows with }
    | some i =>
        obtain ⟨pre, slot, post, hsplit, rfl, hslot⟩ := WorkerTable.split_of_findIdx hfind
        obtain ⟨hget, hset⟩ := WorkerTable.slot_split pre post slot { slot with pid := 0 }
        obtain rfl : slot.pid = pid := by simpa using hslot
        have hmem : slot ∈ t.speWorkers := by simp [hsplit]
        dsimp only
        rw [hsplit, hget, hset]
        -- an occupied slot was there before
        have hold : ∀ x ∈ pre ++ { slot with pid := 0 } :: post, x.pid ≠ 0 → x ∈ t.speWorkers := by
          intro x hx hocc
          simp only [List.mem_append, List.mem_cons] at hx
          rw [hsplit]
          rcases hx with hx | rfl | hx
          · exact List.mem_append_left _ hx
          · exact absurd rfl hocc
          · exact List.mem_append_right _ (List.mem_cons_of_mem _ hx)
        constructor
        · exact fun fd hfd => hknows.heldUsed fd (List.mem_of_mem_erase hfd)
        · exact fun x hx hocc => hknows.slotUsed x (hold x hx hocc) hocc
        · exact hknows.toldUsed
        · exact fun x hx hocc => hknows.owner x (hold x hx hocc) hocc
        · intro w hw
          refine (hknows.linked w hw).imp ?_ id
          intro hfd
          have hother : w.notifyFd ≠ slot.notifyFd :=
            fun heq => hgone w hw (hknows.owner slot hmem hpid w hw heq.symm).symm
          exact (List.mem_erase_of_ne hother).mpr hfd
        · exact hknows.reached
        · exact hknows.stopped
        · exact hknows.unread

/-- What `spe_worker_stop` has done so far: the descriptors that it has closed, `fds`, are those of
occupied slots, and it has written to them. -/
structure Stops (t t' : WorkerTable) (fds : List Nat) : Prop where
  told : t'.told = t.told ++ fds
  held : ∀ fd ∈ t'.fds.held, fd ∈ t.fds.held
  kept : ∀ fd ∈ t.fds.held, fd ∈ t'.fds.held ∨ fd ∈ fds
  slots : ∀ slot ∈ t'.speWorkers, slot.pid ≠ 0 → slot ∈ t.speWorkers
  occupied : ∀ fd ∈ fds, ∃ slot ∈ t.speWorkers, slot.pid ≠ 0 ∧ slot.notifyFd = fd

/-- A round of the loop of `spe_worker_stop`. -/
theorem stops_slot (t : WorkerTable) (i : Nat) : ∃ told, Stops t (t.stopSlot i) told := by
  unfold WorkerTable.stopSlot
  by_cases hpid : (t.speWorkers.getD i ⟨0, 0⟩).pid = 0
  · rw [if_pos hpid]
    exact ⟨[], (List.append_nil _).symm, fun _ h => h, fun _ h => Or.inl h, fun _ h _ => h, nofun⟩
  · rw [if_neg hpid]
    have hi : i < t.speWorkers.length := by
      by_contra hout
      apply hpid
      rw [List.getD_eq_default _ _ (Nat.le_of_not_lt hout)]
    have hslot : t.speWorkers.getD i ⟨0, 0⟩ ∈ t.speWorkers := by
      rw [List.getD_eq_getElem _ _ hi]
      exact List.getElem_mem hi
    refine ⟨[(t.speWorkers.getD i ⟨0, 0⟩).notifyFd], rfl, ?_, ?_, ?_, ?_⟩
    · exact fun fd hfd => List.mem_of_mem_erase hfd
    · intro fd hfd
      by_cases heq : fd = (t.speWorkers.getD i ⟨0, 0⟩).notifyFd
      · exact Or.inr (List.mem_singleton.mpr heq)
      · exact Or.inl ((List.mem_erase_of_ne heq).mpr hfd)
    · intro slot hmem hocc
      rcases List.mem_or_eq_of_mem_set hmem with hold | rfl
      · exact hold
      · exact absurd rfl hocc
    · intro fd hfd
      exact ⟨_, hslot, hpid, (List.mem_singleton.mp hfd).symm⟩

/-- The loop of `spe_worker_stop`, over the slots so far. -/
theorem stops_slots (t : WorkerTable) (k : Nat) :
    ∃ told, Stops t ((List.range k).foldl WorkerTable.stopSlot t) told := by
  induction k with
  | zero =>
      exact ⟨[], (List.append_nil _).symm, fun _ h => h, fun _ h => Or.inl h, fun _ h _ => h, nofun⟩
  | succ k ih =>
      obtain ⟨told, hsofar⟩ := ih
      rw [List.range_succ, List.foldl_append, List.foldl_cons, List.foldl_nil]
      obtain ⟨more, hround⟩ := stops_slot ((List.range k).foldl WorkerTable.stopSlot t) k
      refine ⟨told ++ more, ?_, ?_, ?_, ?_, ?_⟩
      · rw [hround.told, hsofar.told, List.append_assoc]
      · exact fun fd hfd => hsofar.held fd (hround.held fd hfd)
      · intro fd hfd
        rcases hsofar.kept fd hfd with hmid | htold
        · exact (hround.kept fd hmid).imp id (List.mem_append_right _)
        · exact Or.inr (List.mem_append_left _ htold)
      · exact fun slot hslot hocc => hsofar.slots slot (hround.slots slot hslot hocc) hocc
      · intro fd hfd
        rcases List.mem_append.mp hfd with htold | hmore
        · exact hsofar.occupied fd htold
        · obtain ⟨slot, hslot, hocc, heq⟩ := hround.occupied fd hmore
          exact ⟨slot, hsofar.slots slot hslot hocc, hocc, heq⟩

/-- `spe_worker_stop`. -/
theorem Sound.stop (h : s.Sound) {t : WorkerTable} (hmaster : s.master = some t) :
    (s.stop t).Sound := by
  obtain ⟨told, hstops⟩ := stops_slots t t.speWorkers.length
  have hknows := h.master t hmaster
  obtain ⟨t', ht'⟩ : ∃ t', t' = t.workerStop := ⟨_, rfl⟩
  have hstops' : Stops t t' told := by
    rw [ht']
    exact { hstops with }
  have hstop : s.stop t = { s with master := some t', unread := s.unread ++ told } := by
    rw [Family.stop, ← ht', hstops'.told, List.drop_left]
  rw [hstop]
  constructor
  · exact h.pids
  · exact h.channels
  · exact h.used
  · exact h.own
  · exact h.earlier
  · intro u hu
    obtain rfl : t' = u := Option.some.inj hu
    constructor
    · exact fun fd hfd => hknows.heldUsed fd (hstops'.held fd hfd)
    · exact fun slot hslot hocc => hknows.slotUsed slot (hstops'.slots slot hslot hocc) hocc
    · intro fd hfd
      rw [hstops'.told] at hfd
      rcases List.mem_append.mp hfd with hold | hnew
      · exact hknows.toldUsed fd hold
      · obtain ⟨slot, hslot, hocc, rfl⟩ := hstops'.occupied fd hnew
        exact hknows.slotUsed slot hslot hocc
    · exact fun slot hslot hocc => hknows.owner slot (hstops'.slots slot hslot hocc) hocc
    · intro w hw
      rw [hstops'.told]
      rcases hknows.linked w hw with hheld | hold
      · exact (hstops'.kept _ hheld).imp id (List.mem_append_right _)
      · exact Or.inr (List.mem_append_left _ hold)
    · intro w hw hmem
      rw [hstops'.told] at hmem
      rcases List.mem_append.mp hmem with hold | hnew
      · exact (hknows.reached w hw hold).imp id (List.mem_append_left _)
      · exact Or.inr (List.mem_append_right _ hnew)
    · intro w hw hstopped
      rw [hstops'.told]
      exact List.mem_append_left _ (hknows.stopped w hw hstopped)
    · intro fd hfd
      rw [hstops'.told]
      rcases List.mem_append.mp hfd with hold | hnew
      · exact List.mem_append_left _ (hknows.unread fd hold)
      · exact List.mem_append_right _ hnew

/-- A worker that is looked up is there. -/
theorem found {pid : Int} {w : WorkerChild}
    (h : s.workers.find? (fun w => w.pid = pid) = some w) : w ∈ s.workers ∧ w.pid = pid :=
  ⟨List.mem_of_find?_eq_some h, by simpa using List.find?_some h⟩

/-- **Step lemma.**  Every step keeps the ends where they are. -/
theorem Sound.step (h : s.Sound) {s' : Family} {ev : FamilyEvent} (hstep : s.step ev = some s') :
    s'.Sound := by
  unfold Family.step at hstep
  cases ev with
  | fork channel child =>
      cases hmaster : s.master with
      | none => simp [hmaster] at hstep
      | some t =>
          rw [hmaster] at hstep
          obtain ⟨hgranted, ⟨⟩⟩ := Option.ite_none_right_eq_some.mp hstep
          exact h.fork hmaster hgranted
  | reset pid =>
      cases hmaster : s.master with
      | none => simp [hmaster] at hstep
      | some t =>
          rw [hmaster] at hstep
          obtain ⟨⟨hpid, hgone⟩, ⟨⟩⟩ := Option.ite_none_right_eq_some.mp hstep
          exact h.reset hmaster hpid (by simpa using hgone)
  | stop =>
      cases hmaster : s.master with
      | none => simp [hmaster] at hstep
      | some t =>
          rw [hmaster] at hstep
          obtain rfl := Option.some.inj hstep
          exact h.stop hmaster
  | gone =>
      obtain ⟨_, ⟨⟩⟩ := Option.ite_none_right_eq_some.mp hstep
      exact h.gone
  | control pid =>
      cases hfind : s.workers.find? (fun w => w.pid = pid) with
      | none => simp [hfind] at hstep
      | some w =>
          simp only [hfind] at hstep
          obtain ⟨⟨_, hread⟩, ⟨⟩⟩ := Option.ite_none_right_eq_some.mp hstep
          exact h.control (found hfind).1 hread
  | leave pid =>
      cases hfind : s.workers.find? (fun w => w.pid = pid) with
      | none => simp [hfind] at hstep
      | some w =>
          simp only [hfind] at hstep
          obtain ⟨_, ⟨⟩⟩ := Option.ite_none_right_eq_some.mp hstep
          exact h.remove pid
  | crash pid =>
      cases hfind : s.workers.find? (fun w => w.pid = pid) with
      | none => simp [hfind] at hstep
      | some w =>
          simp only [hfind] at hstep
          obtain rfl := Option.some.inj hstep
          exact h.remove pid

/-- The start. -/
theorem sound_start : start.Sound where
  pids := List.nodup_nil
  channels := List.nodup_nil
  used := nofun
  own := nofun
  earlier := List.Pairwise.nil
  master t ht := by
    obtain rfl := Option.some.inj ht
    constructor
    · exact nofun
    · intro slot hslot hocc
      obtain ⟨_, rfl⟩ := List.mem_replicate.mp hslot
      exact absurd rfl hocc
    · exact nofun
    · exact fun _ _ _ => nofun
    · exact nofun
    · exact nofun
    · exact nofun
    · exact nofun

/-- **Run lemma.** -/
theorem sound_of_run {ok : Family → FamilyEvent → Prop} {es : List FamilyEvent}
    (h : Run step ok start es s) : s.Sound :=
  h.invariant Sound sound_start (fun _ _ _ hs _ hstep => hs.step hstep)

/-- A worker that is there is looked up. -/
theorem Sound.find (h : s.Sound) {w : WorkerChild} (hw : w ∈ s.workers) :
    s.workers.find? (fun v => v.pid = w.pid) = some w := by
  cases hfind : s.workers.find? (fun v => v.pid = w.pid) with
  | none => simpa using List.find?_eq_none.mp hfind w hw
  | some v => rw [h.pid_unique (found hfind).1 hw (found hfind).2]

/-- A worker that can read, does. -/
theorem Sound.control_isSome (h : s.Sound) {w : WorkerChild} (hw : w ∈ s.workers)
    (hstop : w.workerStop = false) (hread : (s.readControl w).isSome = true) :
    (s.step (.control w.pid)).isSome = true := by
  simp [Family.step, h.find hw, hstop, hread]

/-- A worker that has left its loop ends. -/
theorem Sound.leave_isSome (h : s.Sound) {w : WorkerChild} (hw : w ∈ s.workers)
    (hstop : w.workerStop = true) : (s.step (.leave w.pid)).isSome = true := by
  simp [Family.step, h.find hw, hstop]

/-- **The last worker.**  Without a master, the worker that was forked last can read. -/
theorem Sound.last_reads (h : s.Sound) (hgone : s.master = none) {older : List WorkerChild}
    {w : WorkerChild} (hlast : s.workers = older ++ [w]) : (s.readControl w).isSome = true := by
  have hw : w ∈ s.workers := by simp [hlast]
  have hnone : s.holds w.notifyFd = false := by
    simp only [holds, hgone, Option.any_none, Bool.false_or, List.any_eq_false, decide_eq_true_eq]
    intro v hv
    have hearlier := h.earlier
    rw [hlast] at hv hearlier
    rcases List.mem_append.mp hv with hold | hself
    · exact (List.pairwise_append.mp hearlier).2.2 v hold w (List.mem_singleton_self w)
    · rw [List.mem_singleton.mp hself]
      exact h.own w hw
  simp only [readControl, hnone]
  split <;> rfl

/-- How many steps the workers have to make: a read, and the end. -/
def weight : List WorkerChild → Nat
  | [] => 0
  | w :: ws => (if w.workerStop then 1 else 2) + weight ws

/-- No worker has more than two steps to make. -/
theorem weight_le (ws : List WorkerChild) : weight ws ≤ 2 * ws.length := by
  induction ws with
  | nil => exact Nat.le_refl 0
  | cons w ws ih =>
      rw [weight, List.length_cons]
      split <;> omega

/-- Processes that are gone make no steps. -/
theorem weight_filter_le (p : WorkerChild → Bool) (ws : List WorkerChild) :
    weight (ws.filter p) ≤ weight ws := by
  induction ws with
  | nil => exact Nat.le_refl 0
  | cons w ws ih =>
      rw [List.filter_cons]
      split
      · rw [weight, weight]
        omega
      · rw [weight]
        omega

/-- The end of a process. -/
theorem weight_remove {ws : List WorkerChild} {w : WorkerChild} (hw : w ∈ ws) :
    weight (ws.filter (fun v => v.pid ≠ w.pid)) < weight ws := by
  induction ws with
  | nil => cases hw
  | cons v ws ih =>
      have hone : 0 < if v.workerStop then 1 else 2 := by split <;> decide
      rw [List.filter_cons, weight]
      by_cases hpid : v.pid = w.pid
      · have hrest := weight_filter_le (fun v => v.pid ≠ w.pid) ws
        simp only [hpid, ne_eq, not_true, decide_false]
        simp only [ne_eq, decide_not] at hrest ⊢
        exact Nat.lt_of_le_of_lt hrest (Nat.lt_add_of_pos_left hone)
      · have hmem : w ∈ ws := by
          rcases List.mem_cons.mp hw with rfl | hmem
          · exact absurd rfl hpid
          · exact hmem
        have hless := ih hmem
        simp only [hpid, ne_eq, not_false_eq_true, decide_true, if_true, weight]
        exact Nat.add_lt_add_left hless _

/-- Marking workers adds nothing. -/
theorem weight_mark_le (pid : Int) (ws : List WorkerChild) :
    weight (ws.map (fun v => if v.pid = pid then { v with workerStop := true } else v)) ≤
      weight ws := by
  induction ws with
  | nil => exact Nat.le_refl 0
  | cons v ws ih =>
      rw [List.map_cons, weight, weight]
      by_cases hpid : v.pid = pid
      · rw [if_pos hpid]
        cases v.workerStop <;> simp <;> omega
      · rw [if_neg hpid]
        omega

/-- A worker that has read has one step left. -/
theorem weight_mark {ws : List WorkerChild} {w : WorkerChild} (hw : w ∈ ws)
    (hstop : w.workerStop = false) :
    weight (ws.map (fun v => if v.pid = w.pid then { v with workerStop := true } else v)) <
      weight ws := by
  induction ws with
  | nil => cases hw
  | cons v ws ih =>
      rw [List.map_cons, weight, weight]
      have hrest := weight_mark_le w.pid ws
      rcases List.mem_cons.mp hw with rfl | hmem
      · simp only [if_true, hstop, Bool.false_eq_true, if_false]
        omega
      · have hless := ih hmem
        by_cases hpid : v.pid = w.pid
        · rw [if_pos hpid]
          cases v.workerStop <;> simp <;> omega
        · rw [if_neg hpid]
          omega

/-- The steps that some of the workers have to make. -/
def weightOf (s : Family) (p : Int → Bool) : Nat := weight (s.workers.filter fun w => p w.pid)

/-- A worker that is not meant adds nothing when it reads, and one that is meant has one step
less. -/
theorem weightOf_mark {w : WorkerChild} (hw : w ∈ s.workers) (hstop : w.workerStop = false)
    (p : Int → Bool) :
    weightOf { s with workers := s.workers.map fun v =>
        if v.pid = w.pid then { v with workerStop := true } else v } p +
      (if p w.pid then 1 else 0) ≤ s.weightOf p := by
  have hcomm : (s.workers.map fun v =>
      if v.pid = w.pid then { v with workerStop := true } else v).filter (fun v => p v.pid) =
      (s.workers.filter fun v => p v.pid).map fun v =>
        if v.pid = w.pid then { v with workerStop := true } else v := by
    rw [List.filter_map]
    congr 1
    refine List.filter_congr fun v _ => ?_
    show p (if v.pid = w.pid then { v with workerStop := true } else v).pid = p v.pid
    split <;> rfl
  unfold weightOf
  rw [hcomm]
  by_cases hp : p w.pid = true
  · rw [if_pos hp]
    exact weight_mark (List.mem_filter.mpr ⟨hw, hp⟩) hstop
  · rw [if_neg hp]
    exact weight_mark_le w.pid _

/-- Neither does one that is not meant when it ends. -/
theorem weightOf_remove {w : WorkerChild} (hw : w ∈ s.workers) (p : Int → Bool) :
    weightOf { s with workers := s.workers.filter (fun v => v.pid ≠ w.pid) } p +
      (if p w.pid then 1 else 0) ≤ s.weightOf p := by
  have hcomm : (s.workers.filter (fun v => v.pid ≠ w.pid)).filter (fun v => p v.pid) =
      (s.workers.filter fun v => p v.pid).filter (fun v => v.pid ≠ w.pid) :=
    List.filter_comm _ _ _
  unfold weightOf
  rw [hcomm]
  by_cases hp : p w.pid = true
  · rw [if_pos hp]
    exact weight_remove (List.mem_filter.mpr ⟨hw, hp⟩)
  · rw [if_neg hp]
    exact weight_filter_le _ _

/-- Without a master, every step is one of a worker, and brings it nearer to its end. -/
theorem step_orphaned {s' : Family} {ev : FamilyEvent} (hgone : s.master = none)
    (hstep : s.step ev = some s') :
    s'.master = none ∧ ∃ pid, ev.worker = some pid ∧
      ∀ p : Int → Bool, s'.weightOf p + (if p pid then 1 else 0) ≤ s.weightOf p := by
  unfold Family.step at hstep
  cases ev with
  | fork channel child => simp [hgone] at hstep
  | reset pid => simp [hgone] at hstep
  | stop => simp [hgone] at hstep
  | gone => simp [hgone] at hstep
  | control pid =>
      cases hfind : s.workers.find? (fun w => w.pid = pid) with
      | none => simp [hfind] at hstep
      | some w =>
          simp only [hfind] at hstep
          obtain ⟨⟨hstop, _⟩, ⟨⟩⟩ := Option.ite_none_right_eq_some.mp hstep
          obtain ⟨hw, rfl⟩ := found hfind
          exact ⟨hgone, w.pid, rfl, weightOf_mark hw (by simpa using hstop)⟩
  | leave pid =>
      cases hfind : s.workers.find? (fun w => w.pid = pid) with
      | none => simp [hfind] at hstep
      | some w =>
          simp only [hfind] at hstep
          obtain ⟨_, ⟨⟩⟩ := Option.ite_none_right_eq_some.mp hstep
          obtain ⟨hw, rfl⟩ := found hfind
          exact ⟨hgone, w.pid, rfl, weightOf_remove hw⟩
  | crash pid =>
      cases hfind : s.workers.find? (fun w => w.pid = pid) with
      | none => simp [hfind] at hstep
      | some w =>
          simp only [hfind] at hstep
          obtain rfl := Option.some.inj hstep
          obtain ⟨hw, rfl⟩ := found hfind
          exact ⟨hgone, w.pid, rfl, weightOf_remove hw⟩

/-- The end is near for any of the workers: the steps that they make are bounded. -/
theorem run_orphaned {s' : Family} {fs : List FamilyEvent} (hgone : s.master = none)
    (h : Run step anyStep s fs s') (p : Int → Bool) :
    s'.master = none ∧
      s'.weightOf p + (fs.filter fun ev => ev.worker.any p).length ≤ s.weightOf p := by
  induction h with
  | nil s => exact ⟨hgone, Nat.le_refl _⟩
  | cons hstep _ _ ih =>
      obtain ⟨hnone, pid, hpid, hless⟩ := step_orphaned hgone hstep
      obtain ⟨hend, hsum⟩ := ih hnone
      refine ⟨hend, ?_⟩
      have hstepped := hless p
      rw [List.filter_cons, hpid, Option.any_some]
      by_cases hp : p pid = true
      · rw [if_pos hp, List.length_cons]
        rw [if_pos hp] at hstepped
        omega
      · rw [if_neg hp]
        rw [if_neg hp] at hstepped
        omega

/-- A run without a master has no steps but those of workers. -/
theorem events_orphaned {s' : Family} {fs : List FamilyEvent} (hgone : s.master = none)
    (h : Run step anyStep s fs s') : ∀ ev ∈ fs, ev.worker.isSome = true := by
  induction h with
  | nil s => exact nofun
  | cons hstep _ _ ih =>
      obtain ⟨hnone, pid, hpid, _⟩ := step_orphaned hgone hstep
      intro ev hev
      rcases List.mem_cons.mp hev with rfl | hev
      · rw [hpid]
        rfl
      · exact ih hnone ev hev

/-- No worker has more than two steps to make, as there is at most one of that number. -/
theorem Sound.weightOf_le (h : s.Sound) (pid : Int) :
    s.weightOf (fun q => decide (q = pid)) ≤ 2 := by
  have hone : (s.workers.map WorkerChild.pid).count pid ≤ 1 :=
    List.nodup_iff_count_le_one.mp h.pids pid
  have hlen : (s.workers.filter fun w => decide (w.pid = pid)).length =
      (s.workers.map WorkerChild.pid).count pid := by
    rw [List.count, List.countP_map, List.countP_eq_length_filter]
    congr 2
  calc s.weightOf (fun q => decide (q = pid))
      ≤ 2 * (s.workers.filter fun w => decide (w.pid = pid)).length := weight_le _
    _ ≤ 2 := by omega

/-- **Nobody is left behind.**  When the master is gone, in whatever state, nothing is done but by
the workers; each of them makes at most two steps more; and as long as there is a worker, the one
that was forked last can read the end of its channel or leave its loop. -/
theorem workers_all_stop {es : List FamilyEvent} (h : Run step anyStep start es s)
    (hgone : s.master = none) {fs : List FamilyEvent} {s' : Family}
    (hrest : Run step anyStep s fs s') :
    (∀ ev ∈ fs, ev.worker.isSome = true) ∧
      (∀ pid, (fs.filter fun ev => ev.worker = some pid).length ≤ 2) ∧
      fs.length ≤ 2 * s.workers.length ∧
      ∀ older w, s'.workers = older ++ [w] →
        (s'.step (.control w.pid)).isSome = true ∨ (s'.step (.leave w.pid)).isSome = true := by
  have hevents := events_orphaned hgone hrest
  refine ⟨hevents, ?_, ?_, ?_⟩
  · intro pid
    have hsum := (run_orphaned hgone hrest fun q => decide (q = pid)).2
    have hrank := (sound_of_run h).weightOf_le pid
    have hsame : (fs.filter fun ev => ev.worker = some pid) =
        fs.filter fun ev => ev.worker.any fun q => decide (q = pid) := by
      refine List.filter_congr fun ev _ => ?_
      cases ev.worker <;> simp
    rw [hsame]
    omega
  · have hsum := (run_orphaned hgone hrest fun _ => true).2
    have hall : (fs.filter fun ev => ev.worker.any fun _ => true) = fs := by
      refine List.filter_eq_self.mpr fun ev hev => ?_
      obtain ⟨pid, hpid⟩ := Option.isSome_iff_exists.mp (hevents ev hev)
      rw [hpid]
      rfl
    have hbound : s.weightOf (fun _ => true) ≤ 2 * s.workers.length :=
      (weight_filter_le _ _).trans (weight_le _)
    rw [hall] at hsum
    omega
  · intro older w hlast
    have hsound := sound_of_run (h.append hrest)
    have hw : w ∈ s'.workers := by simp [hlast]
    have hnone := (run_orphaned hgone hrest fun _ => true).1
    cases hstop : w.workerStop with
    | true => exact Or.inr (hsound.leave_isSome hw hstop)
    | false => exact Or.inl (hsound.control_isSome hw hstop (hsound.last_reads hnone hlast))

/-- Two workers without a master: the older one holds on until the younger one is gone, and then
it is the last one. -/
theorem workers_all_stop_two :
    ∃ s s', exec step start
        [.fork (some (3, 4)) (some 17), .fork (some (5, 6)) (some 18), .gone] = some s ∧
      s.step (.control 17) = none ∧ exec step s [.control 18, .leave 18] = some s' ∧
      ∃ w, s'.workers = [w] ∧ ((s'.step (.control w.pid)).isSome = true ∨
        (s'.step (.leave w.pid)).isSome = true) := by
  obtain ⟨s, hs⟩ : ∃ s, exec step start
      [.fork (some (3, 4)) (some 17), .fork (some (5, 6)) (some 18), .gone] = some s := ⟨_, rfl⟩
  obtain ⟨s', hs'⟩ : ∃ s', exec step s [.control 18, .leave 18] = some s' := by
    obtain rfl := Option.some.inj hs
    exact ⟨_, rfl⟩
  have hgone : s.master = none := by
    obtain rfl := Option.some.inj hs
    rfl
  obtain ⟨w, hw⟩ : ∃ w, s'.workers = [w] := by
    obtain rfl := Option.some.inj hs
    obtain rfl := Option.some.inj hs'
    exact ⟨_, rfl⟩
  refine ⟨s, s', hs, ?_, hs', w, hw,
    (workers_all_stop (run_iff_exec.mpr hs) hgone (run_iff_exec.mpr hs')).2.2.2 [] w hw⟩
  obtain rfl := Option.some.inj hs
  rfl

/-- **Nobody stops for nothing.**  As long as the master is there, a worker leaves its loop only
when the master has written `WORKER_STOP` to it; and a worker to which it has been written has
left its loop or can read it. -/
theorem workers_stop_when_told {es : List FamilyEvent} (h : Run step anyStep start es s)
    {t : WorkerTable} (hmaster : s.master = some t) {w : WorkerChild} (hw : w ∈ s.workers) :
    (w.workerStop = true → w.notifyFd ∈ t.told) ∧
      (w.notifyFd ∈ t.told →
        w.workerStop = true ∨ (s.step (.control w.pid)).isSome = true) ∧
      (w.notifyFd ∉ t.told → s.step (.control w.pid) = none) := by
  have hsound := sound_of_run h
  have hknows := hsound.master t hmaster
  refine ⟨hknows.stopped w hw, ?_, ?_⟩
  · intro htold
    cases hstop : w.workerStop with
    | true => exact Or.inl rfl
    | false =>
        have hunread := (hknows.reached w hw htold).resolve_left (by simp [hstop])
        exact Or.inr (hsound.control_isSome hw hstop (by simp [readControl, hunread]))
  · intro hnot
    have hunread : w.notifyFd ∉ s.unread := fun hmem => hnot (hknows.unread _ hmem)
    have hheld := (hknows.linked w hw).resolve_right hnot
    have hholds : s.holds w.notifyFd = true := by simp [holds, hmaster, hheld]
    simp [Family.step, hsound.find hw, readControl, hunread, hholds]

/-- A worker that has been told to stop. -/
theorem workers_stop_when_told_one :
    ∃ s t w, exec step start [.fork (some (3, 4)) (some 17), .stop] = some s ∧
      s.master = some t ∧ w ∈ s.workers ∧ w.notifyFd ∈ t.told ∧
      (w.workerStop = true ∨ (s.step (.control w.pid)).isSome = true) := by
  obtain ⟨s, hs⟩ : ∃ s, exec step start [.fork (some (3, 4)) (some 17), .stop] = some s := ⟨_, rfl⟩
  obtain ⟨t, w, ht, hw, htold⟩ : ∃ t w, s.master = some t ∧ w ∈ s.workers ∧
      w.notifyFd ∈ t.told := by
    obtain rfl := Option.some.inj hs
    exact ⟨_, _, rfl, List.mem_cons_self, by decide +kernel⟩
  exact ⟨s, t, w, hs, ht, hw, htold,
    (workers_stop_when_told (run_iff_exec.mpr hs) ht hw).2.1 htold⟩

end Family

end Spe
