import Spe.ServerAccept

/-!
# Mutexes of dead workers

The mutexes of `spe_shm_mutex_create` are not robust, and neither
`spe_worker_reset` nor the forked worker touches them: what a worker owns when it
crashes it owns for ever.  Where no worker crashes between a successful `trylock` and
its `unlock`, every mutex is owned by a running worker or free, and some running
worker can lock it.
-/

namespace Spe

open Transition

/-- No worker crashes between a successful `trylock` and its `unlock`. -/
def Prefork.CrashesFree (servers : ServerList) (s : Prefork) (ev : PreforkEvent) : Prop :=
  ∀ (w : Nat) (p : Proc) (k : Nat), ev = .crash w → s.procs[w]? = some p →
    ¬ p.worker.Owns servers k

/-- No worker that has crashed owns a mutex, whether the master has reaped it or not. -/
def Prefork.DeadOwnNothing (s : Prefork) : Prop :=
  ∀ (w : Nat) (p : Proc) (k : Nat), s.procs[w]? = some p → p.life ≠ .running →
    s.mutexes k ≠ some w

/-- In a wired state no dead worker owns a mutex if none believes to. -/
theorem Prefork.Wired.dead_iff {servers : ServerList} {s : Prefork} (h : s.Wired servers) :
    s.DeadOwnNothing ↔ ∀ (w : Nat) (p : Proc) (k : Nat), s.procs[w]? = some p →
      p.life ≠ .running → ¬ p.worker.Owns servers k := by
  constructor
  · intro hdead w p k hw hlife howns
    exact hdead w p k hw hlife ((h.mutex_iff hw k).mpr howns)
  · intro hdead w p k hw hlife howns
    exact hdead w p k hw hlife ((h.mutex_iff hw k).mp howns)

/-- An event that is no crash meets the condition. -/
theorem Prefork.crashesFree_of_ne {servers : ServerList} {s : Prefork} {ev : PreforkEvent}
    (h : ∀ w, ev ≠ .crash w) : s.CrashesFree servers ev :=
  fun w _ _ hev => absurd hev (h w)

/-- **Step lemma.**  From a state in which no dead worker owns a mutex a step leads to
another exactly under the condition. -/
theorem Prefork.Wired.dead_step_iff {servers : ServerList} {s s' : Prefork}
    (h : s.Wired servers) (hdead : s.DeadOwnNothing) {ev : PreforkEvent}
    (hstep : s.step servers ev = some s') :
    s'.DeadOwnNothing ↔ s.CrashesFree servers ev := by
  have hdead := h.dead_iff.mp hdead
  rw [(h.step hstep).dead_iff]
  -- a dead worker of the new state was dead before, or has just crashed
  have hset : ∀ {w : Nat} {p q : Proc}, s.procs[w]? = some p →
      s'.procs = s.procs.set w q →
      ((∀ (v : Nat) (r : Proc) (k : Nat), s'.procs[v]? = some r → r.life ≠ .running →
          ¬ r.worker.Owns servers k) ↔
        (q.life ≠ .running → ∀ k, ¬ q.worker.Owns servers k)) := by
    intro w p q hw hprocs
    rw [hprocs]
    constructor
    · intro hall hlife k
      refine hall w q k ?_ hlife
      rw [Prefork.getElem?_set hw, if_pos rfl]
    · intro hnew v r k hr hlife
      rw [Prefork.getElem?_set hw] at hr
      by_cases hv : v = w
      · rw [if_pos hv] at hr
        obtain rfl := Option.some.inj hr
        exact hnew hlife k
      · rw [if_neg hv] at hr
        exact hdead v r k hr hlife
  cases Prefork.moved hstep with
  | loop w p hw hlife hprocs hmutexes =>
      rw [hset hw hprocs]
      exact iff_of_true (fun hnot => absurd hlife hnot)
        (Prefork.crashesFree_of_ne (by rintro _ ⟨⟩))
  | entry w fd e p hw hlife hfd hprocs hmutexes =>
      rw [hset hw hprocs]
      exact iff_of_true (fun hnot => absurd hlife hnot)
        (Prefork.crashesFree_of_ne (by rintro _ ⟨⟩))
  | crash w p hw hlife hprocs hmutexes =>
      rw [hset hw hprocs]
      constructor
      · intro hnew v q k hev hq
        cases hev
        obtain rfl := Option.some.inj (hw.symm.trans hq)
        exact hnew nofun k
      · intro hfree _ k
        exact hfree w p k rfl hw
  | reap w p hw hlife hprocs hmutexes =>
      rw [hset hw hprocs]
      refine iff_of_true ?_ (Prefork.crashesFree_of_ne (by rintro _ ⟨⟩))
      intro _ k
      exact hdead w p k hw (by rw [hlife]; exact nofun)
  | idle _ hquiet hprocs hmutexes =>
      rw [hprocs]
      exact iff_of_true hdead (Prefork.crashesFree_of_ne hquiet)
  | fork pid hprocs hmutexes =>
      rw [hprocs]
      refine iff_of_true ?_ (Prefork.crashesFree_of_ne (by rintro _ ⟨⟩))
      intro w p k hp hlife
      rcases Prefork.getElem?_fork hp with hold | ⟨_, rfl⟩
      · exact hdead w p k hold hlife
      · exact absurd rfl hlife

/-- At the start nobody has crashed. -/
theorem Prefork.dead_start (procs : Nat) : (Prefork.start procs).DeadOwnNothing := by
  intro w p k hw
  simp [Prefork.start] at hw

/-- **Run lemma.**  In a run whose crashes all meet the condition no dead worker owns a
mutex. -/
theorem Prefork.dead_of_run {servers : ServerList} {procs : Nat} {s : Prefork}
    {es : List PreforkEvent}
    (h : Run (Prefork.step servers) (Prefork.CrashesFree servers) (Prefork.start procs) es s) :
    s.DeadOwnNothing := by
  refine (h.invariant (fun s => s.Wired servers ∧ s.DeadOwnNothing)
    ⟨Prefork.wired_start servers procs, Prefork.dead_start procs⟩ ?_).2
  intro s ev s' hboth hok hstep
  obtain ⟨hwired, hdead⟩ := hboth
  exact ⟨hwired.step hstep, (hwired.dead_step_iff hdead hstep).mpr hok⟩

/-- **The condition is exact.**  No dead worker owns a mutex in any state of a run if and
only if no worker crashes between a successful `trylock` and its `unlock`. -/
theorem Prefork.dead_exact {servers : ServerList} {procs : Nat} {s : Prefork}
    {es : List PreforkEvent}
    (h : Run (Prefork.step servers) anyStep (Prefork.start procs) es s) :
    (∀ fs gs m, es = fs ++ gs →
      Run (Prefork.step servers) anyStep (Prefork.start procs) fs m → m.DeadOwnNothing) ↔
    Run (Prefork.step servers) (Prefork.CrashesFree servers) (Prefork.start procs) es s :=
  h.exact (Prefork.Wired servers) Prefork.DeadOwnNothing (Prefork.wired_start servers procs)
    (Prefork.dead_start procs) (fun _ _ _ hwired _ hstep => hwired.step hstep)
    (fun _ _ _ hwired hdead hstep => hwired.dead_step_iff hdead hstep)

/-- How far a worker is from the end of its round of the loop. -/
def WorkerPc.left (n : Nat) : WorkerPc → Nat
  | .preloop j => n + 4 + 2 * (n - j)
  | .acquired j => n + 5 + 2 * (n - (j + 1))
  | .refused j => n + 5 + 2 * (n - (j + 1))
  | .epollProcess => n + 3
  | .postloop j => n - j + 2
  | .taskProcess => 1
  | .signalProcess => 0

/-- A step brings a worker nearer to the end of its round. -/
theorem Worker.step_left (servers : ServerList) (p : Worker) (w : Nat) (m : AcceptMutexes)
    (hpc : p.pc ≠ .signalProcess) :
    (p.step servers w m).2.pc.left servers.count < p.pc.left servers.count := by
  unfold Worker.step
  cases h : p.pc with
  | preloop j =>
      dsimp only
      by_cases hj : j < servers.count
      · rw [if_pos hj]
        dsimp only
        split <;> simp only [WorkerPc.left] <;> omega
      · rw [if_neg hj]
        simp only [WorkerPc.left]
        omega
  | acquired j =>
      dsimp only [Worker.acquire]
      split <;> simp only [WorkerPc.left] <;> omega
  | refused j =>
      dsimp only [Worker.refuse]
      split <;> simp only [WorkerPc.left] <;> omega
  | epollProcess =>
      simp only [WorkerPc.left]
      omega
  | postloop j =>
      dsimp only
      split <;> simp only [WorkerPc.left] <;> omega
  | taskProcess =>
      simp only [WorkerPc.left]
      omega
  | signalProcess => exact absurd h hpc

/-- Worker `w` runs alone, from one state to another. -/
structure Prefork.Solo (servers : ServerList) (w : Nat) (s s' : Prefork) : Prop where
  run : ∃ n, Run (Prefork.step servers) (Prefork.CrashesFree servers) s
    (List.replicate n (.loop w)) s'
  others : ∀ v, v ≠ w → s'.procs[v]? = s.procs[v]?

/-- Nothing happens. -/
theorem Prefork.Solo.refl (servers : ServerList) (w : Nat) (s : Prefork) :
    s.Solo servers w s :=
  ⟨⟨0, Run.nil s⟩, fun _ _ => rfl⟩

/-- The worker runs on. -/
theorem Prefork.Solo.trans {servers : ServerList} {w : Nat} {s m s' : Prefork}
    (h : s.Solo servers w m) (h' : m.Solo servers w s') : s.Solo servers w s' := by
  obtain ⟨⟨n, hn⟩, hothers⟩ := h
  obtain ⟨⟨n', hn'⟩, hothers'⟩ := h'
  refine ⟨⟨n + n', ?_⟩, fun v hv => (hothers' v hv).trans (hothers v hv)⟩
  rw [List.replicate_add]
  exact hn.append hn'

/-- A worker that runs alone stays in a wired program. -/
theorem Prefork.Solo.wired {servers : ServerList} {w : Nat} {s s' : Prefork}
    (h : s.Solo servers w s') (hs : s.Wired servers) : s'.Wired servers := by
  obtain ⟨⟨_, hrun⟩, _⟩ := h
  exact hrun.invariant (Prefork.Wired servers) hs (fun _ _ _ hinv _ hstep => hinv.step hstep)

/-- A running worker takes a step. -/
theorem Prefork.solo_step (servers : ServerList) {w : Nat} {s : Prefork} {p : Proc}
    (hw : s.procs[w]? = some p) (hlife : p.life = .running) :
    ∃ s' p', s.Solo servers w s' ∧ s'.procs[w]? = some p' ∧ p'.life = .running ∧
      p'.worker = (p.worker.step servers w s.mutexes).2 ∧
      s'.mutexes = (p.worker.step servers w s.mutexes).1 := by
  let q : Proc := { p with worker := (p.worker.step servers w s.mutexes).2 }
  let s' : Prefork :=
    { s with procs := s.procs.set w q, mutexes := (p.worker.step servers w s.mutexes).1 }
  have hstep : s.step servers (.loop w) = some s' := by
    unfold Prefork.step
    dsimp only
    rw [hw]
    exact if_pos hlife
  have hprocs := Prefork.getElem?_set (q := q) hw
  refine ⟨s', q, ⟨⟨1, Run.single hstep ?_⟩, ?_⟩, ?_, hlife, rfl, rfl⟩
  · intro v r k hev
    cases hev
  · intro v hv
    exact (hprocs v).trans (if_neg hv)
  · exact (hprocs w).trans (if_pos rfl)

/-- A running worker reaches the end of its round. -/
theorem Prefork.solo_round (servers : ServerList) {w : Nat} (n : Nat) :
    ∀ {s : Prefork} {p : Proc}, s.procs[w]? = some p → p.life = .running →
      p.worker.pc.left servers.count = n →
      ∃ s' p', s.Solo servers w s' ∧ s'.procs[w]? = some p' ∧ p'.life = .running ∧
        p'.worker.pc = .signalProcess := by
  induction n using Nat.strongRecOn with
  | _ n ih =>
      intro s p hw hlife hleft
      by_cases hpc : p.worker.pc = .signalProcess
      · exact ⟨s, p, Prefork.Solo.refl servers w s, hw, hlife, hpc⟩
      · obtain ⟨m, q, hsolo, hq, hqlife, hqworker, _⟩ := Prefork.solo_step servers hw hlife
        have hlt := p.worker.step_left servers w s.mutexes hpc
        rw [← hqworker, hleft] at hlt
        obtain ⟨s', p', hsolo', hp', hlife', hpc'⟩ := ih _ hlt hq hqlife rfl
        exact ⟨s', p', hsolo.trans hsolo', hp', hlife', hpc'⟩

/-- A running worker comes to try the mutex of a server. -/
theorem Prefork.solo_preloop (servers : ServerList) {w : Nat} {s : Prefork} {p : Proc}
    (hw : s.procs[w]? = some p) (hlife : p.life = .running) {k : Nat}
    (hk : k ≤ servers.count) :
    ∃ s' p', s.Solo servers w s' ∧ s'.procs[w]? = some p' ∧ p'.life = .running ∧
      p'.worker.pc = .preloop k := by
  induction k with
  | zero =>
      obtain ⟨m, q, hsolo, hq, hqlife, hqpc⟩ := Prefork.solo_round servers _ hw hlife rfl
      obtain ⟨s', p', hsolo', hp', hlife', hworker', _⟩ :=
        Prefork.solo_step servers hq hqlife
      refine ⟨s', p', hsolo.trans hsolo', hp', hlife', ?_⟩
      rw [hworker', Worker.step, hqpc]
  | succ k ih =>
      obtain ⟨m, q, hsolo, hq, hqlife, hqpc⟩ := ih (by omega)
      obtain ⟨m', q', hsolo', hq', hqlife', hqworker', _⟩ :=
        Prefork.solo_step servers hq hqlife
      obtain ⟨s', p', hsolo'', hp', hlife', hworker', _⟩ :=
        Prefork.solo_step servers hq' hqlife'
      refine ⟨s', p', (hsolo.trans hsolo').trans hsolo'', hp', hlife', ?_⟩
      have htried : q'.worker.pc = .acquired k ∨ q'.worker.pc = .refused k := by
        rw [hqworker', Worker.step, hqpc]
        dsimp only
        rw [if_pos (by omega)]
        dsimp only
        split
        · exact Or.inl rfl
        · exact Or.inr rfl
      rcases htried with hpc | hpc
      · rw [hworker', Worker.step, hpc]
        dsimp only [Worker.acquire]
        split <;> rfl
      · rw [hworker', Worker.step, hpc]
        dsimp only [Worker.refuse]
        split <;> rfl

/-- A running worker locks a mutex that no other worker owns. -/
theorem Prefork.Wired.solo_lock {servers : ServerList} {s : Prefork} (h : s.Wired servers)
    {w : Nat} {p : Proc} (hw : s.procs[w]? = some p) (hlife : p.life = .running) {k : Nat}
    (hk : k < servers.count) (hother : ∀ v, v ≠ w → s.mutexes k ≠ some v) :
    ∃ s' p', s.Solo servers w s' ∧ s'.procs[w]? = some p' ∧ p'.life = .running ∧
      p'.worker.pc = .acquired k ∧ s'.mutexes k = some w := by
  obtain ⟨m, q, hsolo, hq, hqlife, hqpc⟩ :=
    Prefork.solo_preloop servers hw hlife (Nat.le_of_lt hk)
  have hm := hsolo.wired h
  have hfree : m.mutexes k = none := by
    rw [Option.eq_none_iff_forall_ne_some]
    intro v hv
    by_cases heq : v = w
    · subst heq
      exact hm.exclusive.trylocks k hk v q hq hqpc hv
    · obtain ⟨r, hr, howns⟩ := (hm.agrees v k).mp hv
      rw [hsolo.others v heq] at hr
      exact hother v heq ((h.agrees v k).mpr ⟨r, hr, howns⟩)
  obtain ⟨s', p', hsolo', hp', hlife', hworker', hmutexes'⟩ :=
    Prefork.solo_step servers hq hqlife
  have htry : q.worker.step servers w m.mutexes =
      (Function.update m.mutexes k (some w), { q.worker with pc := .acquired k }) := by
    rw [Worker.step, hqpc]
    dsimp only
    rw [if_pos hk, Mutex.trylock_free hfree]
    rfl
  rw [htry] at hworker' hmutexes'
  refine ⟨s', p', hsolo.trans hsolo', hp', hlife', ?_, ?_⟩
  · rw [hworker']
  · rw [hmutexes']
    exact Function.update_self k (some w) m.mutexes

/-- In a program whose dead workers own nothing some running worker can lock the mutex of a
server. -/
theorem Prefork.Wired.can_lock {servers : ServerList} {s : Prefork} (h : s.Wired servers)
    (hdead : s.DeadOwnNothing) {k : Nat} (hk : k < servers.count)
    (hrunning : ∃ (v : Nat) (p : Proc), s.procs[v]? = some p ∧ p.life = .running) :
    ∃ (w : Nat) (s' : Prefork) (p' : Proc), s.Solo servers w s' ∧ s'.procs[w]? = some p' ∧
      p'.life = .running ∧ p'.worker.pc = .acquired k ∧ s'.mutexes k = some w := by
  cases howner : s.mutexes k with
  | none =>
      obtain ⟨v, p, hv, hlife⟩ := hrunning
      obtain ⟨s', p', hsolo⟩ := h.solo_lock hv hlife hk (by
        intro u _ hu
        cases howner.symm.trans hu)
      exact ⟨v, s', p', hsolo⟩
  | some w =>
      obtain ⟨p, hp, _⟩ := (h.agrees w k).mp howner
      have hlife : p.life = .running := by
        by_contra hnot
        exact hdead w p k hp hnot howner
      obtain ⟨s', p', hsolo⟩ := h.solo_lock hp hlife hk (by
        intro u hne hu
        exact hne (Option.some.inj (hu.symm.trans howner)))
      exact ⟨w, s', p', hsolo⟩

/-- A process that is dead and believes to own a mutex stays so. -/
theorem Prefork.dead_owner_step {servers : ServerList} {s s' : Prefork} {ev : PreforkEvent}
    (hstep : s.step servers ev = some s') {w k : Nat}
    (h : ∃ p, s.procs[w]? = some p ∧ p.life ≠ .running ∧ p.worker.Owns servers k) :
    ∃ p, s'.procs[w]? = some p ∧ p.life ≠ .running ∧ p.worker.Owns servers k := by
  obtain ⟨p, hw, hlife, howns⟩ := h
  have hset : ∀ {v : Nat} {r q : Proc}, s.procs[v]? = some r → s'.procs = s.procs.set v q →
      (v = w → q.life ≠ .running ∧ q.worker = r.worker) →
      ∃ p, s'.procs[w]? = some p ∧ p.life ≠ .running ∧ p.worker.Owns servers k := by
    intro v r q hv hprocs hdead
    by_cases hvw : v = w
    · obtain ⟨hqlife, hqworker⟩ := hdead hvw
      subst hvw
      obtain rfl := Option.some.inj (hv.symm.trans hw)
      refine ⟨q, ?_, hqlife, ?_⟩
      · rw [hprocs, Prefork.getElem?_set hv, if_pos rfl]
      · rw [hqworker]
        exact howns
    · refine ⟨p, ?_, hlife, howns⟩
      rw [hprocs, Prefork.getElem?_set hv, if_neg (Ne.symm hvw)]
      exact hw
  have hrunning : ∀ {v : Nat} {r : Proc}, s.procs[v]? = some r → r.life = .running →
      v ≠ w := by
    intro v r hv hr hvw
    subst hvw
    obtain rfl := Option.some.inj (hv.symm.trans hw)
    exact hlife hr
  cases Prefork.moved hstep with
  | loop v r hv hr hprocs hmutexes =>
      exact hset hv hprocs (fun hvw => absurd hvw (hrunning hv hr))
  | entry v fd e r hv hr hfd hprocs hmutexes =>
      exact hset hv hprocs (fun hvw => absurd hvw (hrunning hv hr))
  | crash v r hv hr hprocs hmutexes =>
      exact hset hv hprocs (fun hvw => absurd hvw (hrunning hv hr))
  | reap v r hv hr hprocs hmutexes => exact hset hv hprocs (fun _ => ⟨nofun, rfl⟩)
  | idle _ hquiet hprocs hmutexes =>
      rw [hprocs]
      exact ⟨p, hw, hlife, howns⟩
  | fork pid hprocs hmutexes =>
      obtain ⟨hlt, _⟩ := List.getElem?_eq_some_iff.mp hw
      refine ⟨p, ?_, hlife, howns⟩
      rw [hprocs, List.getElem?_append_left hlt]
      exact hw

/-- **What a dead worker owns is never released.** -/
theorem Prefork.Wired.dead_owner_stays {servers : ServerList} {s s' : Prefork}
    (hs : s.Wired servers) {es : List PreforkEvent}
    (h : Run (Prefork.step servers) anyStep s es s') {w k : Nat} {p : Proc}
    (hw : s.procs[w]? = some p) (hlife : p.life ≠ .running) (howns : s.mutexes k = some w) :
    s'.mutexes k = some w := by
  have hstays := h.invariant
    (fun s => s.Wired servers ∧
      ∃ p, s.procs[w]? = some p ∧ p.life ≠ .running ∧ p.worker.Owns servers k)
    ⟨hs, p, hw, hlife, (hs.mutex_iff hw k).mp howns⟩
    (fun _ _ _ hboth _ hstep => ⟨hboth.1.step hstep, Prefork.dead_owner_step hstep hboth.2⟩)
  obtain ⟨hwired, q, hq, _, hqowns⟩ := hstays
  exact (hwired.mutex_iff hq k).mpr hqowns

/-- **A dead worker owns no mutex**, and some running worker can lock each of them, in
every run in which no worker crashes between a successful `trylock` and its `unlock`. -/
theorem dead_workers_own_nothing {servers : ServerList} {procs : Nat} {s : Prefork}
    {es : List PreforkEvent}
    (h : Run (Prefork.step servers) (Prefork.CrashesFree servers) (Prefork.start procs) es s) :
    (∀ (w : Nat) (p : Proc) (k : Nat), s.procs[w]? = some p → p.life = .reaped →
      s.mutexes k ≠ some w) ∧
    (∀ k < servers.count, (∃ (v : Nat) (p : Proc), s.procs[v]? = some p ∧ p.life = .running) →
      ∃ (w n : Nat) (s' : Prefork) (p' : Proc),
        Run (Prefork.step servers) (Prefork.CrashesFree servers) s
          (List.replicate n (.loop w)) s' ∧
        s'.procs[w]? = some p' ∧ p'.life = .running ∧ p'.worker.pc = .acquired k ∧
        s'.mutexes k = some w) := by
  have hdead := Prefork.dead_of_run h
  have hwired := Prefork.wired_of_run h
  constructor
  · intro w p k hw hlife
    exact hdead w p k hw (by rw [hlife]; exact nofun)
  · intro k hk hrunning
    obtain ⟨w, s', p', ⟨⟨n, hrun⟩, _⟩, hlock⟩ := hwired.can_lock hdead hk hrunning
    exact ⟨w, n, s', p', hrun, hlock⟩

/-- The first worker goes through a round of its loop. -/
def roundEvents : List PreforkEvent := forkEvents ++ List.replicate 8 (.loop 0)

/-- It crashes before the next, and is replaced. -/
def quietCrash : List PreforkEvent := [.crash 0, .reap 0, .fork (some 12)]

/-- Then the mutex is free, and some worker can lock it. -/
theorem dead_workers_own_nothing_quiet : ∃ s,
    Run (Prefork.step oneServer) (Prefork.CrashesFree oneServer) (Prefork.start 2)
      (roundEvents ++ quietCrash) s ∧
    s.mutexes 0 ≠ some 0 ∧
    ∃ (w n : Nat) (s' : Prefork) (p' : Proc),
      Run (Prefork.step oneServer) (Prefork.CrashesFree oneServer) s
        (List.replicate n (.loop w)) s' ∧
      s'.procs[w]? = some p' ∧ p'.life = .running ∧ p'.worker.pc = .acquired 0 ∧
      s'.mutexes 0 = some w := by
  have hround : (exec (Prefork.step oneServer) (Prefork.start 2) roundEvents).map
      (fun s => s.procs[0]?.map (fun p => p.worker.pc)) = some (some (.preloop 0)) := by
    decide +kernel
  obtain ⟨m, hm, hpc⟩ := Option.map_eq_some_iff.mp hround
  have hlast : (exec (Prefork.step oneServer) (Prefork.start 2)
      (roundEvents ++ quietCrash)).map
      (fun s => (s.procs[0]?.map Proc.life, s.procs[1]?.map Proc.life)) =
        some (some .reaped, some .running) := by decide +kernel
  obtain ⟨s, hexec, hfields⟩ := Option.map_eq_some_iff.mp hlast
  obtain ⟨hfirst, hsecond⟩ := Prod.mk.inj hfields
  obtain ⟨p, hp, hdead⟩ := Option.map_eq_some_iff.mp hfirst
  obtain ⟨q, hq, hlive⟩ := Option.map_eq_some_iff.mp hsecond
  obtain ⟨_, hright⟩ := (run_iff_exec.mpr hexec).through (run_iff_exec.mpr hm)
  have hbefore : Run (Prefork.step oneServer) (Prefork.CrashesFree oneServer)
      (Prefork.start 2) roundEvents m := by
    refine run_of_exec ?_ hm
    intro ev hev s
    apply Prefork.crashesFree_of_ne
    intro w heq
    subst heq
    simp [roundEvents, forkEvents] at hev
  have hafter : Run (Prefork.step oneServer) (Prefork.CrashesFree oneServer) m quietCrash s := by
    cases hright with
    | cons hstep _ tail =>
        refine Run.cons hstep ?_ (run_of_exec ?_ (run_iff_exec.mp tail))
        · -- the worker has left its round, and owns nothing
          intro w r k hev hr howns
          cases hev
          rw [hr] at hpc
          obtain ⟨_, hmatch⟩ := howns
          have hloop : r.worker.pc = .preloop 0 := Option.some.inj hpc
          rw [hloop] at hmatch
          exact absurd hmatch.1 (Nat.not_lt_zero k)
        · intro ev hev s
          apply Prefork.crashesFree_of_ne
          intro w heq
          subst heq
          simp at hev
  have hrun := hbefore.append hafter
  obtain ⟨hnone, hlock⟩ := dead_workers_own_nothing hrun
  exact ⟨s, hrun, hnone 0 p 0 hp hdead, hlock 0 Nat.zero_lt_one ⟨1, q, hq, hlive⟩⟩

/-- **A crash with the mutex stops the server.**  A worker locks the mutex and crashes; the
master reaps it and forks another, and nobody ever gets the mutex. -/
theorem dead_workers_own_nothing_fails : ∃ s,
    Run (Prefork.step oneServer) anyStep (Prefork.start 2)
      (forkEvents ++ [.loop 0, .crash 0, .reap 0, .fork (some 12)]) s ∧
    (∃ p, s.procs[0]? = some p ∧ p.life = .reaped ∧ s.mutexes 0 = some 0) ∧
    (∀ es s', Run (Prefork.step oneServer) anyStep s es s' → s'.mutexes 0 = some 0) := by
  have hlast : (exec (Prefork.step oneServer) (Prefork.start 2)
      (forkEvents ++ [.loop 0, .crash 0, .reap 0, .fork (some 12)])).map
      (fun s => (s.mutexes 0, s.procs[0]?.map Proc.life)) =
        some (some 0, some .reaped) := by decide +kernel
  obtain ⟨s, hexec, hfields⟩ := Option.map_eq_some_iff.mp hlast
  obtain ⟨hmutex, hproc⟩ := Prod.mk.inj hfields
  obtain ⟨p, hp, hlife⟩ := Option.map_eq_some_iff.mp hproc
  have hrun := run_iff_exec.mpr hexec
  refine ⟨s, hrun, ⟨p, hp, hlife, hmutex⟩, ?_⟩
  intro es s' h
  exact (Prefork.wired_of_run hrun).dead_owner_stays h hp (by rw [hlife]; exact nofun) hmutex

end Spe
