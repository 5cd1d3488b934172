import Mathlib.Data.List.TakeDrop
import Spe.TaskEffects
import Spe.TimerLaw

/-!
# The order in which timers fire

The timer tree is ordered by `_expire`, and the descent of `spe_task_schedule_timeout` puts a
timer behind those with the same value.  With the number of its last arming beside each
task (`Armings`) the order is complete: earlier `_expire` first, and of equal ones the one
that was armed first (`ArmingOrder`).

The timer phase of `spe_task_process` takes timers from the front of this order as long as
they are due (`timer_order`).
-/

namespace Spe

open Transition

variable {T H : Type} [DecidableEq T]

/-- The armings of a run are numbered; `last` is the number of the last one of each task. -/
structure Armings (T : Type) where
  count : Nat
  last : T → Nat

/-- No timer has been armed. -/
def Armings.none : Armings T := ⟨0, fun _ => 0⟩

/-- `spe_task_schedule_timeout` arms a task that is not queued. -/
def noteArming (m : Machine T H) (ev : MachineEvent T H) (h : Armings T) : Armings T :=
  match ev with
  | .call (.scheduleTimeout t _) =>
      if (m.sched.tasks t).status = .queue then h
      else ⟨h.count + 1, Function.update h.last t h.count⟩
  | _ => h

/-- The timer `a` comes before the timer `b`. -/
def Before (s : Sched T H) (h : Armings T) (a b : T) : Prop :=
  (s.tasks a).expire < (s.tasks b).expire ∨
    ((s.tasks a).expire = (s.tasks b).expire ∧ h.last a < h.last b)

/-- The timers are in the tree in order. -/
structure ArmingOrder (s : Sched T H) (h : Armings T) : Prop where
  sorted : s.timers.Pairwise (Before s h)
  numbered : ∀ t ∈ s.timers, h.last t < h.count

omit [DecidableEq T] in
/-- The order by `_expire` alone. -/
theorem ArmingOrder.ordered {s : Sched T H} {h : Armings T} (hs : ArmingOrder s h) : Ordered s := by
  refine hs.sorted.imp (fun {a b} hab => ?_)
  rcases hab with hlt | ⟨heq, _⟩
  · exact Nat.le_of_lt hlt
  · exact Nat.le_of_eq heq

omit [DecidableEq T] in
/-- A tree that loses timers stays in order. -/
theorem ArmingOrder.shrink {s s' : Sched T H} {h : Armings T} (hs : ArmingOrder s h)
    (hshrinks : Shrinks s s') : ArmingOrder s' h := by
  refine ⟨?_, fun t ht => hs.numbered t (hshrinks.sub.subset ht)⟩
  apply (hs.sorted.sublist hshrinks.sub).imp_of_mem
  intro a b ha hb hab
  unfold Before
  rw [hshrinks.expire a ha, hshrinks.expire b hb]
  exact hab

/-- An armed timer is the last of those that expire no later. -/
theorem ArmingOrder.arm {s : Sched T H} {h : Armings T} (hs : ArmingOrder s h) (hplaced : Placed s)
    (now ms : Nat) {t : T} (hst : (s.tasks t).status ≠ .queue) :
    ArmingOrder (taskScheduleTimeout s now ms t) ⟨h.count + 1, Function.update h.last t h.count⟩ := by
  obtain ⟨pre, post, hsplit, hpre, hpost, htimers⟩ :=
    taskScheduleTimeout_timers hplaced hs.ordered now ms hst
  have hexpire := taskScheduleTimeout_expire s now ms hst
  have hother : ∀ x ∈ pre ++ post, x ≠ t ∧ x ∈ s.timers := by
    intro x hx
    rw [← hsplit] at hx
    refine ⟨?_, List.mem_of_mem_erase hx⟩
    rintro rfl
    exact hplaced.timersOnce.not_mem_erase hx
  have hkept : ∀ x ∈ pre ++ post,
      ((taskScheduleTimeout s now ms t).tasks x).expire = (s.tasks x).expire ∧
        Function.update h.last t h.count x = h.last x := by
    intro x hx
    have hne := (hother x hx).1
    exact ⟨by rw [hexpire x, if_neg hne], Function.update_of_ne hne _ _⟩
  have hself : ((taskScheduleTimeout s now ms t).tasks t).expire = expireAt now ms := by
    rw [hexpire t, if_pos rfl]
  have hlast : Function.update h.last t h.count t = h.count := Function.update_self _ _ _
  have hrest : (pre ++ post).Pairwise (Before (taskScheduleTimeout s now ms t)
      ⟨h.count + 1, Function.update h.last t h.count⟩) := by
    rw [← hsplit]
    refine (hs.sorted.sublist List.erase_sublist).imp_of_mem ?_
    intro a b ha hb hab
    rw [hsplit] at ha hb
    unfold Before
    dsimp only
    rw [(hkept a ha).1, (hkept b hb).1, (hkept a ha).2, (hkept b hb).2]
    exact hab
  constructor
  · rw [htimers]
    obtain ⟨hleft, hright, hcross⟩ := List.pairwise_append.mp hrest
    rw [List.pairwise_append, List.pairwise_cons]
    refine ⟨hleft, ⟨?_, hright⟩, ?_⟩
    · intro b hb
      left
      rw [hself, (hkept b (List.mem_append_right _ hb)).1]
      exact hpost b hb
    · intro a ha b hb
      have hmem := List.mem_append_left post ha
      rcases List.mem_cons.mp hb with rfl | hb
      · -- among equal values the new timer is the one armed last
        have hle := hpre a ha
        have hbefore := hs.numbered a (hother a hmem).2
        unfold Before
        dsimp only
        rw [hself, hlast, (hkept a hmem).1, (hkept a hmem).2]
        omega
      · exact hcross a ha b hb
  · intro x hx
    dsimp only
    by_cases hxt : x = t
    · rw [hxt, hlast]
      exact Nat.lt_succ_self _
    · have hmem : x ∈ pre ++ post := by
        rw [htimers] at hx
        simpa [hxt] using hx
      rw [(hkept x hmem).2]
      exact Nat.lt_succ_of_lt (hs.numbered x (hother x hmem).2)

/-- **Step lemma.**  Every step of the machine keeps the timers in order. -/
theorem ArmingOrder.step {m m' : Machine T H} {a : Armings T} {ev : MachineEvent T H}
    (h : ArmingOrder m.sched a) (hplaced : Placed m.sched) (hstep : m.step ev = some m') :
    ArmingOrder m'.sched (noteArming m ev a) := by
  have hsched := Machine.step_sched hstep
  obtain ⟨_, hev⟩ := Machine.step_cases hstep
  by_cases harms : ∃ t ms, ev = .call (.scheduleTimeout t ms) ∧
      (m.sched.tasks t).status ≠ .queue
  · obtain ⟨t, ms, rfl, hst⟩ := harms
    obtain ⟨_, rfl⟩ := hev
    have hnote : noteArming m (.call (.scheduleTimeout t ms)) a =
        ⟨a.count + 1, Function.update a.last t a.count⟩ := if_neg hst
    rw [hnote]
    exact h.arm hplaced m.now ms hst
  · have hnote : noteArming m ev a = a := by
      unfold noteArming
      split
      · rename_i t ms
        split
        · rfl
        · rename_i hst
          exact absurd ⟨t, ms, rfl, hst⟩ harms
      · rfl
    rw [hnote]
    rcases shrinks_or_arms hplaced hsched with hshrinks | ⟨ms, t, hev, hst, _⟩
    · exact h.shrink hshrinks
    · exact absurd ⟨t, ms, hev, hst⟩ harms

/-- **Run lemma.**  In every run the timers are in order. -/
theorem armingOrder_of_run {ok : Machine T H × Armings T → MachineEvent T H → Prop}
    {m : Machine T H} {a : Armings T} {es : List (MachineEvent T H)}
    (h : Run (noted Machine.step noteArming) ok (Machine.start T H, Armings.none) es (m, a)) :
    ArmingOrder m.sched a := by
  have hinv := h.invariant (fun p => Placed p.1.sched ∧ ArmingOrder p.1.sched p.2)
    ⟨placed_start, List.Pairwise.nil, fun t ht => nomatch ht⟩ (by
      intro p e q hp _ hstep
      obtain ⟨hmachine, hnote⟩ := noted_eq_some.mp hstep
      refine ⟨hp.1.step (Machine.step_sched hmachine), ?_⟩
      rw [hnote]
      exact hp.2.step hp.1 hmachine)
  exact hinv.2

/-- The timer phase that stands so has changed the tasks that it moved, and no others. -/
structure Expiring (s : Sched T H) (curr : Nat) (rest : List (Frame T)) (m : Machine T H)
    (fired : List T) : Prop where
  draining : Draining s curr rest m fired
  tasks : ∀ x, m.sched.tasks x = if x ∈ fired then (s.tasks x).fired else s.tasks x

/-- A step of the timer phase changes the task that it moves. -/
theorem Expiring.step {s : Sched T H} {curr : Nat} {rest : List (Frame T)} {m m' : Machine T H}
    {ev : MachineEvent T H} {fired : List T} (h : Expiring s curr rest m fired)
    (hplaced : Placed s) (hordered : Ordered s) (hphase : InTimerPhase m ev)
    (hstep : m.step ev = some m') : ∃ fired', Expiring s curr rest m' fired' := by
  obtain ⟨fired', hnext⟩ := h.draining.step hordered hphase hstep
  refine ⟨fired', hnext, ?_⟩
  -- the run queue tells which tasks were moved
  have hsame : m'.sched = m.sched → ∀ x, m'.sched.tasks x =
      if x ∈ fired' then (s.tasks x).fired else s.tasks x := by
    intro hsched
    have hhead := hnext.taskHead
    rw [hsched, h.draining.taskHead] at hhead
    rw [hsched, ← List.append_cancel_left hhead]
    exact h.tasks
  obtain ⟨curr', rest', hstack⟩ := hphase
  have hcan : m.canCall = false := by simp [Machine.canCall, hstack]
  obtain ⟨_, hev⟩ := Machine.step_cases hstep
  cases ev with
  | call c => simp [hcan] at hev
  | init t => simp [hcan] at hev
  | process => simp [hcan] at hev
  | ret =>
      dsimp only at hev
      simp [Machine.ret, hstack] at hev
  | tick now =>
      obtain ⟨_, rfl⟩ := hev
      exact hsame rfl
  | loop =>
      cases h.draining.placed.loop_cases hev with
      | drained => exact hsame rfl
      | take _ _ _ htop => cases hstack.symm.trans htop
      | idle _ htop => cases hstack.symm.trans htop
      | fire _ _ t others _ htimers =>
          have hhead := hnext.taskHead
          have hfire : (m.sched.fire t).taskHead = m.sched.taskHead ++ [t] := by
            simp [Sched.fire]
          rw [hfire, h.draining.taskHead, List.append_assoc] at hhead
          rw [← List.append_cancel_left hhead]
          have hfresh : t ∉ fired := by
            have honce := hplaced.timersOnce
            rw [h.draining.timers, htimers] at honce
            exact fun hmem => (List.disjoint_of_nodup_append honce) hmem List.mem_cons_self
          intro x
          change (m.sched.fire t).tasks x = _
          rw [fire_tasks]
          by_cases hx : x = t
          · subst hx
            rw [Function.update_self, h.tasks x, if_neg hfresh, if_pos (by simp)]
          · rw [Function.update_of_ne hx, h.tasks x]
            simp [hx]

/-- What the timer phase does at time `curr`: it moves the longest prefix of the timers that
are due, in their order, behind the tasks that are queued, and sets `timeout` in these. -/
structure Expires (curr : Nat) (s s' : Sched T H) : Prop where
  timers : s'.timers = s.timers.dropWhile (fun t => (s.tasks t).expire ≤ curr)
  taskHead : s'.taskHead =
    s.taskHead ++ s.timers.takeWhile (fun t => (s.tasks t).expire ≤ curr)
  expired : ∀ t ∈ s.timers.takeWhile (fun t => (s.tasks t).expire ≤ curr),
    s'.tasks t = { s.tasks t with timeout := true, status := .queue }
  others : ∀ t ∉ s.timers.takeWhile (fun t => (s.tasks t).expire ≤ curr),
    s'.tasks t = s.tasks t

/-- The end of the timer phase. -/
theorem Expiring.finished {s : Sched T H} {curr : Nat} {rest : List (Frame T)}
    {m : Machine T H} {fired : List T} (h : Expiring s curr rest m fired)
    (hdone : m.stack = .runLoop :: rest) : Expires curr s m.sched := by
  obtain ⟨hdraining, htasks⟩ := h
  have hlater : ∀ t ∈ m.sched.timers, ¬ (s.tasks t).expire ≤ curr := by
    rcases hdraining.stack with hstack | ⟨_, hlater⟩
    · cases hdone.symm.trans hstack
    · exact hlater
  have hdue : ∀ t ∈ fired, decide ((s.tasks t).expire ≤ curr) = true :=
    fun t ht => decide_eq_true (hdraining.due t ht)
  have htake : m.sched.timers.takeWhile (fun t => (s.tasks t).expire ≤ curr) = [] := by
    cases htimers : m.sched.timers with
    | nil => rfl
    | cons t others => exact List.takeWhile_cons_of_neg (by simpa using hlater t (by simp [htimers]))
  have hdrop : m.sched.timers.dropWhile (fun t => (s.tasks t).expire ≤ curr) =
      m.sched.timers := by
    cases htimers : m.sched.timers with
    | nil => rfl
    | cons t others => exact List.dropWhile_cons_of_neg (by simpa using hlater t (by simp [htimers]))
  have hfront : s.timers.takeWhile (fun t => (s.tasks t).expire ≤ curr) = fired := by
    rw [hdraining.timers, List.takeWhile_append_of_pos hdue, htake, List.append_nil]
  constructor
  · rw [hdraining.timers, List.dropWhile_append_of_pos hdue, hdrop]
  · rw [hfront, hdraining.taskHead]
  · intro t ht
    rw [hfront] at ht
    rw [htasks t, if_pos ht]
    rfl
  · intro t ht
    rw [hfront] at ht
    rw [htasks t, if_neg ht]

/-- **Timer order.**  In every run the timers are in the tree by `_expire`, and equal values in
the order in which they were armed.  A call of `spe_task_process` gets to its run loop, and
by then it has moved exactly the longest prefix of timers that are due. -/
theorem timer_order {m : Machine T H} {es : List (MachineEvent T H)}
    (h : Run Machine.step anyStep (Machine.start T H) es m) :
    (∃ a, Run (noted Machine.step noteArming) anyStep (Machine.start T H, Armings.none) es (m, a) ∧
      m.sched.timers.Pairwise (Before m.sched a)) ∧
    ∀ m₁, m.step .process = some m₁ →
      (∃ k m', Run Machine.step InTimerPhase m₁ (List.replicate k .loop) m' ∧
        m'.stack = .runLoop :: m.stack) ∧
      ∀ fs m', Run Machine.step InTimerPhase m₁ fs m' → m'.stack = .runLoop :: m.stack →
        Expires m.now m.sched m'.sched := by
  obtain ⟨a, hrun⟩ := h.noted noteArming Armings.none
  have horder := armingOrder_of_run hrun
  obtain ⟨hplaced, _⟩ := placed_of_run h
  refine ⟨⟨a, hrun, horder.sorted⟩, ?_⟩
  intro m₁ hproc
  obtain ⟨hgoes, _, rfl⟩ := Machine.step_cases hproc
  have hstart := draining_start hplaced
  constructor
  · exact Draining.reaches hstart horder.ordered hgoes
  · intro fs m' hphase hdone
    obtain ⟨fired, hend⟩ := hphase.invariant
      (fun m' => ∃ fired, Expiring m.sched m.now m.stack m' fired)
      ⟨[], hstart, fun x => by rw [m.process_keeps.1]; rfl⟩
      (fun _ _ _ hs hphase hstep =>
        hs.elim fun _ hs => hs.step hplaced horder.ordered hphase hstep)
    exact hend.finished hdone

/-- Two timers with the same value and one that is armed again. -/
theorem timer_order_again :
    ∃ m : Machine Nat Unit,
      Run Machine.step anyStep (Machine.start Nat Unit)
        [.call (.scheduleTimeout 1 5), .call (.scheduleTimeout 2 5),
          .call (.scheduleTimeout 1 5), .tick 5] m ∧
      m.sched.timers = [2, 1] ∧
      ∃ a, Run (noted Machine.step noteArming) anyStep (Machine.start Nat Unit, Armings.none)
        [.call (.scheduleTimeout 1 5), .call (.scheduleTimeout 2 5),
          .call (.scheduleTimeout 1 5), .tick 5] (m, a) ∧
        m.sched.timers.Pairwise (Before m.sched a) := by
  obtain ⟨m, hm, htimers⟩ : ∃ m, exec Machine.step (Machine.start Nat Unit)
      [.call (.scheduleTimeout 1 5), .call (.scheduleTimeout 2 5),
        .call (.scheduleTimeout 1 5), .tick 5] = some m ∧ m.sched.timers = [2, 1] :=
    ⟨_, rfl, rfl⟩
  have hrun := run_iff_exec.mpr hm
  exact ⟨m, hrun, htimers, (timer_order hrun).1⟩

end Spe
