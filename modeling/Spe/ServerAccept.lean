import Spe.Server

/-!
# Who accepts, and what a crash does to it

The flag `_accept_mutex_hold` outlives the `unlock` of its mutex, and the listening
descriptor stays enabled with it.  `Worker.Owns` tells from a worker's place in its
loop and its flags which mutexes it believes to own.  It is right in every state of
every run (`Prefork.Wired`), whatever the other workers and the master do.
-/

namespace Spe

open Transition

/-- The worker believes to own the mutex of a server: it has locked it in this round of its
loop and has not unlocked it. -/
def Worker.Owns (servers : ServerList) (p : Worker) (k : Nat) : Prop :=
  k < servers.count ∧
    match p.pc with
    | .preloop j => k < j ∧ p.hold k = true
    | .acquired j => k = j ∨ (k < j ∧ p.hold k = true)
    | .refused j => k < j ∧ p.hold k = true
    | .epollProcess => p.hold k = true
    | .postloop j => j ≤ k ∧ p.hold k = true
    | .taskProcess => False
    | .signalProcess => False

/-- What a step of worker `w` does to the mutexes and to what it believes to own. -/
inductive OwnMove (servers : ServerList) (w : Nat) (m : AcceptMutexes) (p : Worker) :
    AcceptMutexes → Worker → Prop
  | keep {p' : Worker} (hsame : ∀ k, p'.Owns servers k ↔ p.Owns servers k) :
      OwnMove servers w m p m p'
  | lock {p' : Worker} (j : Nat) (hfree : m j = none)
      (hadd : ∀ k, p'.Owns servers k ↔ p.Owns servers k ∨ k = j) :
      OwnMove servers w m p (Function.update m j (some w)) p'
  | unlock {p' : Worker} (j : Nat) (howner : p.Owns servers j)
      (hdrop : ∀ k, p'.Owns servers k ↔ p.Owns servers k ∧ k ≠ j) :
      OwnMove servers w m p (Mutex.unlock m j) p'

/-- After a successful `trylock` the flag is set. -/
theorem Worker.acquire_owns {servers : ServerList} {p : Worker} {j : Nat}
    (hpc : p.pc = .acquired j) (k : Nat) :
    (p.acquire servers j).Owns servers k ↔ p.Owns servers k := by
  unfold Worker.acquire
  by_cases hhold : p.hold j = true
  · rw [if_pos hhold]
    simp only [Worker.Owns, hpc]
    grind
  · rw [if_neg hhold]
    simp only [Worker.Owns, hpc]
    grind [Function.update_apply]

/-- After a failed `trylock` the flag is clear. -/
theorem Worker.refuse_owns {servers : ServerList} {p : Worker} {j : Nat}
    (hpc : p.pc = .refused j) (k : Nat) :
    (p.refuse servers j).Owns servers k ↔ p.Owns servers k := by
  unfold Worker.refuse
  by_cases hhold : p.hold j = true
  · rw [if_pos hhold]
    simp only [Worker.Owns, hpc]
    grind [Function.update_apply]
  · rw [if_neg hhold]
    simp only [Worker.Owns, hpc]
    grind

/-- **Step lemma of the loop.** -/
theorem Worker.step_move (servers : ServerList) (p : Worker) (w : Nat) (m : AcceptMutexes) :
    OwnMove servers w m p (p.step servers w m).1 (p.step servers w m).2 := by
  unfold Worker.step
  cases hpc : p.pc with
  | preloop j =>
      dsimp only
      by_cases hj : j < servers.count
      · rw [if_pos hj]
        cases hm : m j with
        | none =>
            rw [Mutex.trylock_free hm]
            refine OwnMove.lock j hm ?_
            intro k
            simp only [Worker.Owns, hpc, if_true]
            grind
        | some q =>
            rw [Mutex.trylock_owned hm]
            refine OwnMove.keep ?_
            intro k
            simp only [Worker.Owns, hpc, Bool.false_eq_true, if_false]
      · rw [if_neg hj]
        refine OwnMove.keep ?_
        intro k
        simp only [Worker.Owns, hpc]
        grind
  | acquired j => exact OwnMove.keep (Worker.acquire_owns hpc)
  | refused j => exact OwnMove.keep (Worker.refuse_owns hpc)
  | epollProcess =>
      refine OwnMove.keep ?_
      intro k
      simp only [Worker.Owns, hpc, Nat.zero_le, true_and]
  | postloop j =>
      dsimp only
      by_cases hj : j < servers.count
      · rw [if_pos hj]
        by_cases hhold : p.hold j = true
        · rw [if_pos hhold]
          refine OwnMove.unlock j ?_ ?_
          · simp only [Worker.Owns, hpc]
            exact ⟨hj, Nat.le_refl j, hhold⟩
          · intro k
            simp only [Worker.Owns, hpc]
            grind
        · rw [if_neg hhold]
          refine OwnMove.keep ?_
          intro k
          simp only [Worker.Owns, hpc]
          grind
      · rw [if_neg hj]
        refine OwnMove.keep ?_
        intro k
        simp only [Worker.Owns, hpc]
        grind
  | taskProcess =>
      refine OwnMove.keep ?_
      intro k
      simp only [Worker.Owns, hpc]
  | signalProcess =>
      refine OwnMove.keep ?_
      intro k
      simp only [Worker.Owns, hpc]
      grind

/-- The listening descriptor of a server is enabled in the worker's epoll table. -/
def Worker.Listens (servers : ServerList) (p : Worker) (k : Nat) : Prop :=
  (p.epolls (servers.sfd k)).wide.has .read = true

/-- The worker's listening descriptors are enabled exactly where its flags are set. -/
def Worker.Tuned (servers : ServerList) (p : Worker) : Prop :=
  ∀ k < servers.count, p.Listens servers k ↔ p.hold k = true

/-- One flag and the entry of its descriptor change together. -/
theorem Worker.Tuned.update {servers : ServerList} {p : Worker} (h : p.Tuned servers)
    {j : Nat} (hj : j < servers.count) {pc : WorkerPc} {b : Bool} {e : Epoll LoopTask}
    (he : e.wide.has .read = true ↔ b = true) :
    Worker.Tuned servers
      { pc := pc
        hold := Function.update p.hold j b
        epolls := Function.update p.epolls (servers.sfd j) e } := by
  intro k hk
  unfold Worker.Listens
  dsimp only
  by_cases hkj : k = j
  · subst hkj
    rw [Function.update_self, Function.update_self]
    exact he
  · have hsfd : servers.sfd k ≠ servers.sfd j := fun heq => hkj (servers.sfd_inj hk hj heq)
    rw [Function.update_of_ne hkj, Function.update_of_ne hsfd]
    exact h k hk

/-- The place in the loop is that of an existing server. -/
def Worker.Placed (servers : ServerList) (p : Worker) : Prop :=
  ∀ k, p.pc = .acquired k ∨ p.pc = .refused k → k < servers.count

/-- A step keeps flags and descriptors in tune. -/
theorem Worker.Tuned.step {servers : ServerList} {p : Worker} (h : p.Tuned servers)
    (hplaced : p.Placed servers) (w : Nat) (m : AcceptMutexes) :
    (p.step servers w m).2.Tuned servers := by
  unfold Worker.step
  cases hpc : p.pc with
  | preloop k =>
      dsimp only
      split <;> exact h
  | acquired k =>
      dsimp only [Worker.acquire]
      split
      · exact h
      · have hk := hplaced k (Or.inl hpc)
        refine h.update hk ?_
        rw [Epoll.enable_has _ (Epoll.changeEpoll_good _ ctlGood_succeeds)]
        simp [(has_LISTEN .read).mpr rfl]
  | refused k =>
      dsimp only [Worker.refuse]
      split
      · have hk := hplaced k (Or.inr hpc)
        refine h.update hk ?_
        rw [Epoll.disable_has _ (Epoll.changeEpoll_good _ ctlGood_succeeds)]
        simp [(has_LISTEN .read).mpr rfl]
      · exact h
  | epollProcess => exact h
  | postloop k =>
      dsimp only
      split <;> exact h
  | taskProcess => exact h
  | signalProcess => exact h

/-- A step keeps the place that of an existing server. -/
theorem Worker.Placed.step (servers : ServerList) (p : Worker) (w : Nat) (m : AcceptMutexes) :
    (p.step servers w m).2.Placed servers := by
  intro k hk
  unfold Worker.step Worker.acquire Worker.refuse at hk
  cases hpc : p.pc <;> simp only [hpc] at hk <;> grind

/-- A worker process believes to own the mutex of a server. -/
def Prefork.Owns (servers : ServerList) (s : Prefork) (w k : Nat) : Prop :=
  ∃ p, s.procs[w]? = some p ∧ p.worker.Owns servers k

/-- How the parts of a server program agree. -/
structure Prefork.Wired (servers : ServerList) (s : Prefork) : Prop where
  agrees : Mutex.Agrees s.mutexes (s.Owns servers)
  tuned : ∀ (w : Nat) (p : Proc), s.procs[w]? = some p → p.worker.Tuned servers
  placed : ∀ (w : Nat) (p : Proc), s.procs[w]? = some p → p.worker.Placed servers

/-- One process changes. -/
theorem Prefork.getElem?_set {procs : List Proc} {w : Nat} {p q : Proc}
    (hw : procs[w]? = some p) (v : Nat) :
    (procs.set w q)[v]? = if v = w then some q else procs[v]? := by
  by_cases hv : v = w
  · subst hv
    obtain ⟨hlt, _⟩ := List.getElem?_eq_some_iff.mp hw
    rw [if_pos rfl, List.getElem?_set_self hlt]
  · rw [if_neg hv, List.getElem?_set_ne (Ne.symm hv)]

/-- What a process believes to own after one process has changed. -/
theorem Prefork.owns_set (servers : ServerList) {s s' : Prefork} {w : Nat} {p q : Proc}
    (hw : s.procs[w]? = some p) (hprocs : s'.procs = s.procs.set w q) (v k : Nat) :
    s'.Owns servers v k ↔ if v = w then q.worker.Owns servers k else s.Owns servers v k := by
  unfold Prefork.Owns
  rw [hprocs, Prefork.getElem?_set hw]
  by_cases hv : v = w
  · simp [hv]
  · simp [hv]

/-- What the changed process believed to own. -/
theorem Prefork.owns_self (servers : ServerList) {s : Prefork} {w : Nat} {p : Proc}
    (hw : s.procs[w]? = some p) (k : Nat) : s.Owns servers w k ↔ p.worker.Owns servers k := by
  simp [Prefork.Owns, hw]

/-- One process changes, and the table with it. -/
theorem Prefork.Wired.set {servers : ServerList} {s s' : Prefork} (h : s.Wired servers)
    {w : Nat} {p q : Proc} (hw : s.procs[w]? = some p) (hprocs : s'.procs = s.procs.set w q)
    (hmove : OwnMove servers w s.mutexes p.worker s'.mutexes q.worker)
    (htuned : q.worker.Tuned servers) (hplaced : q.worker.Placed servers) :
    s'.Wired servers := by
  have hset := Prefork.owns_set servers hw hprocs
  have hself := Prefork.owns_self servers hw
  refine ⟨?_, ?_, ?_⟩
  · generalize hm : s'.mutexes = m at hmove
    cases hmove with
    | keep hsame =>
        refine h.agrees.congr ?_
        intro v k
        rw [hset]
        by_cases hv : v = w
        · rw [if_pos hv, hv, hself, hsame]
        · rw [if_neg hv]
    | lock j hfree hadd =>
        refine h.agrees.lock hfree ?_
        intro v k
        rw [hset]
        by_cases hv : v = w
        · simp [hv, hself, hadd]
        · simp [hv]
    | unlock j howner hdrop =>
        refine h.agrees.unlock ((hself j).mpr howner) ?_
        intro v k
        rw [hset]
        by_cases hv : v = w
        · simp [hv, hself, hdrop]
        · simp [hv]
  · intro v r hr
    rw [hprocs, Prefork.getElem?_set hw] at hr
    by_cases hv : v = w
    · rw [if_pos hv] at hr
      obtain rfl := Option.some.inj hr
      exact htuned
    · rw [if_neg hv] at hr
      exact h.tuned v r hr
  · intro v r hr
    rw [hprocs, Prefork.getElem?_set hw] at hr
    by_cases hv : v = w
    · rw [if_pos hv] at hr
      obtain rfl := Option.some.inj hr
      exact hplaced
    · rw [if_neg hv] at hr
      exact h.placed v r hr

/-- What a step does to the processes. -/
inductive Prefork.Moved (servers : ServerList) (s : Prefork) : PreforkEvent → Prefork → Prop
  | loop {s' : Prefork} (w : Nat) (p : Proc) (hw : s.procs[w]? = some p)
      (hlife : p.life = .running)
      (hprocs : s'.procs = s.procs.set w
        { p with worker := (p.worker.step servers w s.mutexes).2 })
      (hmutexes : s'.mutexes = (p.worker.step servers w s.mutexes).1) :
      Moved servers s (.loop w) s'
  | entry {s' : Prefork} (w fd : Nat) (e : Epoll LoopTask) (p : Proc)
      (hw : s.procs[w]? = some p) (hlife : p.life = .running) (hfd : fd ∉ servers.sfds)
      (hprocs : s'.procs = s.procs.set w
        { p with worker := { p.worker with
            epolls := Function.update p.worker.epolls fd e } })
      (hmutexes : s'.mutexes = s.mutexes) : Moved servers s (.entry w fd e) s'
  | crash {s' : Prefork} (w : Nat) (p : Proc) (hw : s.procs[w]? = some p)
      (hlife : p.life = .running)
      (hprocs : s'.procs = s.procs.set w { p with life := .crashed })
      (hmutexes : s'.mutexes = s.mutexes) : Moved servers s (.crash w) s'
  | reap {s' : Prefork} (w : Nat) (p : Proc) (hw : s.procs[w]? = some p)
      (hlife : p.life = .crashed)
      (hprocs : s'.procs = s.procs.set w { p with life := .reaped })
      (hmutexes : s'.mutexes = s.mutexes) : Moved servers s (.reap w) s'
  | idle {s' : Prefork} (ev : PreforkEvent) (hquiet : ∀ w, ev ≠ .crash w)
      (hprocs : s'.procs = s.procs) (hmutexes : s'.mutexes = s.mutexes) :
      Moved servers s ev s'
  | fork {s' : Prefork} (pid : Nat) (hprocs : s'.procs = s.procs ++ [⟨pid, .running, .start⟩])
      (hmutexes : s'.mutexes = s.mutexes) : Moved servers s (.fork (some pid)) s'

/-- **Inversion.**  Every step is one of these. -/
theorem Prefork.moved {servers : ServerList} {s s' : Prefork} {ev : PreforkEvent}
    (h : s.step servers ev = some s') : s.Moved servers ev s' := by
  cases ev with
  | loop w =>
      unfold Prefork.step at h
      dsimp only at h
      split at h
      · cases h
      · rename_i p hw
        obtain ⟨hlife, h⟩ := Option.ite_none_right_eq_some.mp h
        obtain rfl := Option.some.inj h
        exact Moved.loop w p hw hlife rfl rfl
  | entry w fd e =>
      unfold Prefork.step at h
      dsimp only at h
      split at h
      · cases h
      · rename_i p hw
        obtain ⟨⟨hlife, _, hfd⟩, h⟩ := Option.ite_none_right_eq_some.mp h
        obtain rfl := Option.some.inj h
        exact Moved.entry w fd e p hw hlife hfd rfl rfl
  | crash w =>
      unfold Prefork.step at h
      dsimp only at h
      split at h
      · cases h
      · rename_i p hw
        obtain ⟨hlife, h⟩ := Option.ite_none_right_eq_some.mp h
        obtain rfl := Option.some.inj h
        exact Moved.crash w p hw hlife rfl rfl
  | ready =>
      obtain ⟨_, h⟩ := Option.ite_none_right_eq_some.mp h
      obtain rfl := Option.some.inj h
      exact Moved.idle .ready nofun rfl rfl
  | reap w =>
      unfold Prefork.step at h
      dsimp only at h
      split at h
      · cases h
      · rename_i p hw
        obtain ⟨⟨hlife, _⟩, h⟩ := Option.ite_none_right_eq_some.mp h
        obtain rfl := Option.some.inj h
        unfold Prefork.reap
        dsimp only
        split
        · exact Moved.reap w p hw hlife rfl rfl
        · exact Moved.reap w p hw hlife rfl rfl
  | fork pid =>
      change s.workerFork pid = some s' at h
      unfold Prefork.workerFork at h
      split at h
      · obtain ⟨_, h⟩ := Option.ite_none_right_eq_some.mp h
        obtain ⟨master, _, rfl⟩ := Option.map_eq_some_iff.mp h
        exact Moved.fork _ rfl rfl
      · obtain ⟨master, _, rfl⟩ := Option.map_eq_some_iff.mp h
        exact Moved.idle _ nofun rfl rfl

/-- A forked worker believes to own nothing. -/
theorem Worker.start_owns (servers : ServerList) (k : Nat) : ¬ Worker.start.Owns servers k := by
  intro h
  obtain ⟨_, hlt, _⟩ := h
  exact absurd hlt (Nat.not_lt_zero k)

/-- The flags of a forked worker are in tune with its descriptors. -/
theorem Worker.start_tuned (servers : ServerList) : Worker.start.Tuned servers := by
  intro k _
  constructor
  · intro h
    cases (Epoll.zero_has .read).symm.trans h
  · intro h
    cases h

/-- A process of the list, or a forked one. -/
theorem Prefork.getElem?_fork {procs : List Proc} {q p : Proc} {w : Nat}
    (h : (procs ++ [q])[w]? = some p) : procs[w]? = some p ∨ (w = procs.length ∧ p = q) := by
  by_cases hw : w < procs.length
  · rw [List.getElem?_append_left hw] at h
    exact Or.inl h
  · rw [List.getElem?_append_right (by omega)] at h
    obtain ⟨hlt, hget⟩ := List.getElem?_eq_some_iff.mp h
    have hlast : w = procs.length := by
      simp only [List.length_cons, List.length_nil] at hlt
      omega
    subst hlast
    simp only [Nat.sub_self, List.getElem_cons_zero] at hget
    exact Or.inr ⟨rfl, hget.symm⟩

/-- **Step lemma.**  Beliefs stay right. -/
theorem Prefork.Wired.step {servers : ServerList} {s s' : Prefork} (h : s.Wired servers)
    {ev : PreforkEvent} (hstep : s.step servers ev = some s') : s'.Wired servers := by
  cases Prefork.moved hstep with
  | loop w p hw hlife hprocs hmutexes =>
      refine h.set hw hprocs ?_ ((h.tuned w p hw).step (h.placed w p hw) w s.mutexes)
        (Worker.Placed.step servers p.worker w s.mutexes)
      rw [hmutexes]
      exact p.worker.step_move servers w s.mutexes
  | entry w fd e p hw hlife hfd hprocs hmutexes =>
      refine h.set hw hprocs ?_ ?_ (h.placed w p hw)
      · rw [hmutexes]
        exact OwnMove.keep (fun _ => Iff.rfl)
      · intro k hk
        have hne : servers.sfd k ≠ fd := by
          intro heq
          subst heq
          exact hfd (servers.sfd_mem hk)
        unfold Worker.Listens
        dsimp only
        rw [Function.update_of_ne hne]
        exact h.tuned w p hw k hk
  | crash w p hw hlife hprocs hmutexes =>
      refine h.set hw hprocs ?_ (h.tuned w p hw) (h.placed w p hw)
      rw [hmutexes]
      exact OwnMove.keep (fun _ => Iff.rfl)
  | reap w p hw hlife hprocs hmutexes =>
      refine h.set hw hprocs ?_ (h.tuned w p hw) (h.placed w p hw)
      rw [hmutexes]
      exact OwnMove.keep (fun _ => Iff.rfl)
  | idle _ hquiet hprocs hmutexes =>
      refine ⟨?_, ?_, ?_⟩
      · rw [hmutexes]
        refine h.agrees.congr ?_
        intro w k
        rw [Prefork.Owns, hprocs]
        rfl
      · rw [hprocs]
        exact h.tuned
      · rw [hprocs]
        exact h.placed
  | fork pid hprocs hmutexes =>
      refine ⟨?_, ?_, ?_⟩
      · rw [hmutexes]
        refine h.agrees.congr ?_
        intro w k
        constructor
        · intro howns
          obtain ⟨p, hp, howns⟩ := howns
          rw [hprocs] at hp
          rcases Prefork.getElem?_fork hp with hold | ⟨_, rfl⟩
          · exact ⟨p, hold, howns⟩
          · exact absurd howns (Worker.start_owns servers k)
        · intro howns
          obtain ⟨p, hp, howns⟩ := howns
          refine ⟨p, ?_, howns⟩
          obtain ⟨hlt, _⟩ := List.getElem?_eq_some_iff.mp hp
          rw [hprocs, List.getElem?_append_left hlt]
          exact hp
      · intro w p hp
        rw [hprocs] at hp
        rcases Prefork.getElem?_fork hp with hold | ⟨_, rfl⟩
        · exact h.tuned w p hold
        · exact Worker.start_tuned servers
      · intro w p hp
        rw [hprocs] at hp
        rcases Prefork.getElem?_fork hp with hold | ⟨_, rfl⟩
        · exact h.placed w p hold
        · intro k hk
          rcases hk with hk | hk <;> cases hk

/-- Nobody owns anything before the first `fork`. -/
theorem Prefork.wired_start (servers : ServerList) (procs : Nat) :
    (Prefork.start procs).Wired servers := by
  have hempty : ∀ (w : Nat) (p : Proc), (Prefork.start procs).procs[w]? ≠ some p := by
    intro w p
    simp [Prefork.start]
  refine ⟨?_, fun w p hp => absurd hp (hempty w p), fun w p hp => absurd hp (hempty w p)⟩
  refine Mutex.Agrees.free ?_
  intro w k howns
  obtain ⟨p, hp, _⟩ := howns
  exact hempty w p hp

/-- **Run lemma.**  Beliefs are right in every state of every run. -/
theorem Prefork.wired_of_run {servers : ServerList} {procs : Nat} {s : Prefork}
    {es : List PreforkEvent} {ok : Prefork → PreforkEvent → Prop}
    (h : Run (Prefork.step servers) ok (Prefork.start procs) es s) : s.Wired servers :=
  h.invariant (Prefork.Wired servers) (Prefork.wired_start servers procs)
    (fun _ _ _ hinv _ hstep => hinv.step hstep)

/-- The worker has left a server behind in `spe_server_preloop` and has not come to it in
`spe_server_postloop`; in `spe_epoll_process` that is so for all servers. -/
def WorkerPc.Between (pc : WorkerPc) (k : Nat) : Prop :=
  match pc with
  | .preloop j => k < j
  | .acquired j => k < j
  | .refused j => k < j
  | .epollProcess => True
  | .postloop j => j ≤ k
  | .taskProcess => False
  | .signalProcess => False

/-- Between its preloop and its postloop a worker believes to own what it holds. -/
theorem Worker.owns_between {servers : ServerList} {p : Worker} {k : Nat}
    (hk : k < servers.count) (h : p.pc.Between k) :
    p.Owns servers k ↔ p.hold k = true := by
  unfold Worker.Owns
  unfold WorkerPc.Between at h
  cases hpc : p.pc <;> simp only [hpc] at h ⊢ <;> grind

/-- Only one worker accepts from a server, and the mutexes are used as they have to be.
It is said of all worker processes, also of those that have crashed. -/
structure Prefork.ExclusiveAccept (servers : ServerList) (s : Prefork) : Prop where
  /-- At most one worker is between its preloop and its postloop and listens. -/
  exclusive : ∀ k < servers.count, ∀ (w w' : Nat) (p p' : Proc),
    s.procs[w]? = some p → s.procs[w']? = some p' →
    p.worker.pc.Between k → p.worker.Listens servers k →
    p'.worker.pc.Between k → p'.worker.Listens servers k → w = w'
  /-- There `_accept_mutex_hold` tells who owns the mutex. -/
  held : ∀ k < servers.count, ∀ (w : Nat) (p : Proc), s.procs[w]? = some p →
    p.worker.pc.Between k → (p.worker.hold k = true ↔ s.mutexes k = some w)
  /-- A worker that is about to unlock a mutex owns it. -/
  unlocks : ∀ k < servers.count, ∀ (w : Nat) (p : Proc), s.procs[w]? = some p →
    p.worker.pc = .postloop k → p.worker.hold k = true → s.mutexes k = some w
  /-- A worker that is about to try a mutex does not own it. -/
  trylocks : ∀ k < servers.count, ∀ (w : Nat) (p : Proc), s.procs[w]? = some p →
    p.worker.pc = .preloop k → s.mutexes k ≠ some w

/-- In a wired state a mutex is owned where the worker believes it. -/
theorem Prefork.Wired.mutex_iff {servers : ServerList} {s : Prefork} (h : s.Wired servers)
    {w : Nat} {p : Proc} (hw : s.procs[w]? = some p) (k : Nat) :
    s.mutexes k = some w ↔ p.worker.Owns servers k :=
  (h.agrees w k).trans (Prefork.owns_self servers hw k)

/-- A wired state is exclusive. -/
theorem Prefork.Wired.exclusive {servers : ServerList} {s : Prefork} (h : s.Wired servers) :
    s.ExclusiveAccept servers := by
  have hheld : ∀ k < servers.count, ∀ (w : Nat) (p : Proc), s.procs[w]? = some p →
      p.worker.pc.Between k → (p.worker.hold k = true ↔ s.mutexes k = some w) := by
    intro k hk w p hw hbetween
    rw [h.mutex_iff hw, Worker.owns_between hk hbetween]
  refine ⟨?_, hheld, ?_, ?_⟩
  · intro k hk w w' p p' hw hw' hbetween hlistens hbetween' hlistens'
    have hhold := (h.tuned w p hw k hk).mp hlistens
    have hhold' := (h.tuned w' p' hw' k hk).mp hlistens'
    have howner := (hheld k hk w p hw hbetween).mp hhold
    have howner' := (hheld k hk w' p' hw' hbetween').mp hhold'
    exact Option.some.inj (howner.symm.trans howner')
  · intro k hk w p hw hpc hhold
    have hbetween : p.worker.pc.Between k := by
      rw [hpc]
      exact Nat.le_refl k
    exact (hheld k hk w p hw hbetween).mp hhold
  · intro k hk w p hw hpc howns
    obtain ⟨_, hmatch⟩ := (h.mutex_iff hw k).mp howns
    rw [hpc] at hmatch
    exact absurd hmatch.1 (Nat.lt_irrefl k)

/-- **Exclusive accept**, in every state of every run, for any number of workers and
servers. -/
theorem exclusive_accept {servers : ServerList} {procs : Nat} {s : Prefork}
    {es : List PreforkEvent}
    (h : Run (Prefork.step servers) anyStep (Prefork.start procs) es s) :
    s.ExclusiveAccept servers :=
  (Prefork.wired_of_run h).exclusive

/-- One server. -/
def oneServer : ServerList := ⟨[3], List.nodup_singleton 3⟩

/-- Two workers are forked. -/
def forkEvents : List PreforkEvent := [.fork (some 10), .fork (some 11), .ready]

/-- Both try the mutex; the first gets it and is in `spe_epoll_process`, the second has been
refused. -/
theorem exclusive_accept_two : ∃ s,
    Run (Prefork.step oneServer) anyStep (Prefork.start 2)
      (forkEvents ++ [.loop 0, .loop 1, .loop 0, .loop 1, .loop 0]) s ∧
    s.mutexes 0 = some 0 ∧ s.ExclusiveAccept oneServer := by
  have hlast : (exec (Prefork.step oneServer) (Prefork.start 2)
      (forkEvents ++ [.loop 0, .loop 1, .loop 0, .loop 1, .loop 0])).map
      (fun s => s.mutexes 0) = some (some 0) := by decide +kernel
  obtain ⟨s, hexec, hmutex⟩ := Option.map_eq_some_iff.mp hlast
  have hrun := run_iff_exec.mpr hexec
  exact ⟨s, hrun, hmutex, exclusive_accept hrun⟩

end Spe
