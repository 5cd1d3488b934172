import Spe.TaskPlacement

/-!
# When timers fire

A timer armed at time `now` for `ms` milliseconds is due from `now + ms` on
(`Sched.deadline`).  The scheduler keeps the deadline in the field `_expire`
of 32 bits and compares it with the clock of 64 bits.

`ArmFits` says of a step that the field can stand for the deadline: the
deadline is below 2^32, or the delay is 0, in which case the timer is due at
once and the truncated value is, too.  In runs all of whose armings satisfy it
the timer tree is ordered by deadlines as far as the clock can tell (`Timely`),
and the timer phase of `spe_task_process` moves exactly the due timers to the
run queue.  With the clock in milliseconds since 1970 no other delay fits: a
timer armed for a second fires at once.
-/

namespace Spe

open Transition

variable {T H : Type} [DecidableEq T]

/-- The timer tree is ordered by `_expire`. -/
def Ordered (s : Sched T H) : Prop :=
  s.timers.Pairwise (fun a b => (s.tasks a).expire ≤ (s.tasks b).expire)

/-- No timer enters the tree and none in it is changed. -/
structure Shrinks (s s' : Sched T H) : Prop where
  sub : s'.timers.Sublist s.timers
  expire : ∀ t ∈ s'.timers, (s'.tasks t).expire = (s.tasks t).expire
  deadline : s'.deadline = s.deadline

/-- Arming is the only operation by which a timer enters the tree. -/
theorem shrinks_or_arms {now : Nat} {arms : Nat → T → Prop} {s s' : Sched T H}
    (h : Placed s) (hstep : SchedStep now arms s s') :
    Shrinks s s' ∨ ∃ ms t, arms ms t ∧ (s.tasks t).status ≠ .queue ∧
      s' = taskScheduleTimeout s now ms t := by
  cases hstep with
  | keep => exact Or.inl ⟨List.Sublist.refl _, fun _ _ => rfl, rfl⟩
  | setHandler t handler fast =>
      refine Or.inl ⟨List.Sublist.refl _, fun x _ => ?_, rfl⟩
      by_cases hx : x = t <;> simp [taskSetHandler, hx]
  | init t hfree =>
      have hnot : t ∉ s.timers := by
        rw [← h.timed t, hfree]
        simp
      refine Or.inl ⟨List.Sublist.refl _, fun x hx => ?_, rfl⟩
      have hne : x ≠ t := fun heq => hnot (heq ▸ hx)
      simp [taskInit, hne]
  | schedule t =>
      left
      unfold taskSchedule
      by_cases hst : (s.tasks t).status = .queue
      · rw [if_pos hst]
        exact ⟨List.Sublist.refl _, fun _ _ => rfl, rfl⟩
      · have htimers := h.disarm_timers t
        rw [if_neg hst]
        dsimp only
        split
        · constructor <;> simp [htimers, List.erase_sublist]
        · constructor <;> simp [htimers, List.erase_sublist]
  | scheduleTimeout ms t harms =>
      by_cases hst : (s.tasks t).status = .queue
      · left
        simp only [taskScheduleTimeout, if_pos hst]
        exact ⟨List.Sublist.refl _, fun _ _ => rfl, rfl⟩
      · exact Or.inr ⟨ms, t, harms, hst, rfl⟩
  | dequeue t =>
      left
      unfold taskDequeue
      split
      · exact ⟨List.Sublist.refl _, fun _ _ => rfl, rfl⟩
      · constructor <;> simp
      · constructor <;> simp [List.erase_sublist]
  | timerRound _ curr hround =>
      obtain ⟨t, _, _, _, _, rfl⟩ := h.timerRound_next hround
      left
      refine ⟨by simp [Sched.fire, List.erase_sublist], fun x _ => ?_, by simp [Sched.fire]⟩
      by_cases hx : x = t <;> simp [Sched.fire, hx]
  | runRound _ t hround =>
      obtain ⟨_, _, _, rfl⟩ := h.runRound_next hround
      left
      constructor <;> simp [Sched.take]

/-- Arming puts the timer behind those that expire no later and before the
others. -/
theorem taskScheduleTimeout_timers {s : Sched T H} (h : Placed s) (hordered : Ordered s)
    (now ms : Nat) {t : T} (hst : (s.tasks t).status ≠ .queue) :
    ∃ pre post, s.timers.erase t = pre ++ post ∧
      (∀ a ∈ pre, (s.tasks a).expire ≤ expireAt now ms) ∧
      (∀ b ∈ post, expireAt now ms < (s.tasks b).expire) ∧
      (taskScheduleTimeout s now ms t).timers = pre ++ t :: post := by
  obtain ⟨tasks, htasks⟩ : ∃ tasks : T → Task H, tasks = Function.update s.tasks t
      { s.tasks t with expire := expireAt now ms, timeout := false } := ⟨_, rfl⟩
  have hself : (tasks t).expire = expireAt now ms := by simp [htasks]
  have hothers : ∀ x ∈ s.timers.erase t, (tasks x).expire = (s.tasks x).expire := by
    intro x hx
    have hne : x ≠ t := fun heq => h.timersOnce.not_mem_erase (heq ▸ hx)
    simp [htasks, hne]
  have htree : (s.disarm t).timerHead.toList = s.timers.erase t := h.disarm_timers t
  have hmono : (s.disarm t).timerHead.toList.Pairwise (fun a b =>
      decide ((tasks t).expire < (tasks a).expire) →
      decide ((tasks t).expire < (tasks b).expire)) := by
    rw [htree]
    apply (hordered.sublist List.erase_sublist).imp_of_mem
    intro a b ha hb hab
    rw [hothers a ha, hothers b hb]
    simp only [decide_eq_true_eq]
    omega
  obtain ⟨pre, post, hsplit, hpre, hpost, hinsert⟩ := RedBlack.toList_insert t hmono
  rw [htree] at hsplit
  refine ⟨pre, post, hsplit, ?_, ?_, ?_⟩
  · intro a ha
    have hnot := hpre a ha
    rw [hself, hothers a (by simp [hsplit, ha])] at hnot
    simpa using hnot
  · intro b hb
    have hlt := hpost b hb
    rw [hself, hothers b (by simp [hsplit, hb])] at hlt
    simpa using hlt
  · rw [← hinsert]
    simp [taskScheduleTimeout, hst, Sched.timers, Sched.setTask, htasks]

/-- Arming touches the field of its timer only. -/
theorem taskScheduleTimeout_expire (s : Sched T H) (now ms : Nat) {t : T}
    (hst : (s.tasks t).status ≠ .queue) (x : T) :
    ((taskScheduleTimeout s now ms t).tasks x).expire =
      if x = t then expireAt now ms else (s.tasks x).expire := by
  by_cases hx : x = t <;> simp [taskScheduleTimeout, hst, hx]

omit [DecidableEq T] in
/-- A tree that loses timers stays ordered. -/
theorem Ordered.shrink {s s' : Sched T H} (h : Ordered s) (hshrinks : Shrinks s s') :
    Ordered s' := by
  apply (h.sublist hshrinks.sub).imp_of_mem
  intro a b ha hb hab
  rw [hshrinks.expire a ha, hshrinks.expire b hb]
  exact hab

/-- An armed timer is put where the tree stays ordered. -/
theorem Ordered.arm {s : Sched T H} (h : Ordered s) (hplaced : Placed s) (now ms : Nat) {t : T}
    (hst : (s.tasks t).status ≠ .queue) : Ordered (taskScheduleTimeout s now ms t) := by
  obtain ⟨pre, post, hsplit, hpre, hpost, htimers⟩ :=
    taskScheduleTimeout_timers hplaced h now ms hst
  have hexpire := taskScheduleTimeout_expire s now ms hst
  have hkept : ∀ x ∈ pre ++ post,
      ((taskScheduleTimeout s now ms t).tasks x).expire = (s.tasks x).expire := by
    intro x hx
    have hne : x ≠ t := by
      intro heq
      subst heq
      rw [← hsplit] at hx
      exact hplaced.timersOnce.not_mem_erase hx
    rw [hexpire x, if_neg hne]
  have hself : ((taskScheduleTimeout s now ms t).tasks t).expire = expireAt now ms := by
    rw [hexpire t, if_pos rfl]
  have hrest : (pre ++ post).Pairwise (fun a b => (s.tasks a).expire ≤ (s.tasks b).expire) := by
    rw [← hsplit]
    exact h.sublist List.erase_sublist
  have hmove : (pre ++ post).Pairwise (fun a b =>
      ((taskScheduleTimeout s now ms t).tasks a).expire ≤
        ((taskScheduleTimeout s now ms t).tasks b).expire) := by
    apply hrest.imp_of_mem
    intro a b ha hb hab
    rw [hkept a ha, hkept b hb]
    exact hab
  rw [Ordered, htimers]
  obtain ⟨hleft, hright, hcross⟩ := List.pairwise_append.mp hmove
  rw [List.pairwise_append, List.pairwise_cons]
  refine ⟨hleft, ⟨?_, hright⟩, ?_⟩
  · intro b hb
    rw [hself, hkept b (List.mem_append_right _ hb)]
    exact Nat.le_of_lt (hpost b hb)
  · intro a ha b hb
    rcases List.mem_cons.mp hb with rfl | hb
    · rw [hself, hkept a (List.mem_append_left _ ha)]
      exact hpre a ha
    · exact hcross a ha b hb

/-- **Step lemma.**  Every operation keeps the tree ordered. -/
theorem Ordered.step {now : Nat} {arms : Nat → T → Prop} {s s' : Sched T H} (h : Ordered s)
    (hplaced : Placed s) (hstep : SchedStep now arms s s') : Ordered s' := by
  rcases shrinks_or_arms hplaced hstep with hshrinks | ⟨ms, t, _, hst, rfl⟩
  · exact h.shrink hshrinks
  · exact h.arm hplaced now ms hst

/-- The field can stand for the deadline of the timer that the step arms. -/
def ArmFits (m : Machine T H) (ev : MachineEvent T H) : Prop :=
  ∀ t ms, ev = .call (.scheduleTimeout t ms) →
    (m.sched.tasks t).status = .queue ∨ m.now + ms < 2 ^ 32 ∨ ms = 0

/-- The tree is ordered, and no later clock can tell the fields in it from the
deadlines. -/
structure Timely (m : Machine T H) : Prop where
  placed : Placed m.sched
  ordered : Ordered m.sched
  agree : ∀ t ∈ m.sched.timers, ∀ clock, m.now ≤ clock →
    ((m.sched.tasks t).expire ≤ clock ↔ m.sched.deadline t ≤ clock)

omit [DecidableEq T] in
/-- A step that adds no timer keeps the tree timely. -/
theorem Timely.shrink {m m' : Machine T H} (h : Timely m) (hplaced : Placed m'.sched)
    (hnow : m.now ≤ m'.now) (hshrinks : Shrinks m.sched m'.sched) : Timely m' := by
  refine ⟨hplaced, h.ordered.shrink hshrinks, ?_⟩
  intro t ht clock hclock
  rw [hshrinks.expire t ht, hshrinks.deadline]
  exact h.agree t (hshrinks.sub.subset ht) clock (by omega)

/-- An armed timer whose deadline fits keeps the tree timely. -/
theorem Timely.arm {m m' : Machine T H} (h : Timely m) (hplaced : Placed m'.sched)
    (hnow : m.now ≤ m'.now) {t : T} {ms : Nat} (hst : (m.sched.tasks t).status ≠ .queue)
    (hfits : m.now + ms < 2 ^ 32 ∨ ms = 0)
    (hsched : m'.sched = taskScheduleTimeout m.sched m.now ms t) : Timely m' := by
  have hdeadline : ∀ x, m'.sched.deadline x =
      if x = t then m.now + ms else m.sched.deadline x := by
    intro x
    rw [hsched]
    by_cases hx : x = t <;> simp [taskScheduleTimeout, hst, hx]
  refine ⟨hplaced, ?_, ?_⟩
  · rw [hsched]
    exact h.ordered.arm h.placed m.now ms hst
  · intro x hx clock hclock
    rw [hdeadline x, hsched, taskScheduleTimeout_expire m.sched m.now ms hst x]
    by_cases hxt : x = t
    · -- a truncated field is compared with a clock that has passed the arming
      rw [if_pos hxt, if_pos hxt]
      unfold expireAt
      rcases hfits with hfits | rfl
      · omega
      · have hle : (m.now + 0) % 2 ^ 64 % 2 ^ 32 ≤ m.now := by omega
        omega
    · rw [if_neg hxt, if_neg hxt]
      obtain ⟨pre, post, hsplit, _, _, htimers⟩ :=
        taskScheduleTimeout_timers h.placed h.ordered m.now ms hst
      have hmem : x ∈ pre ++ post := by
        rw [hsched, htimers] at hx
        simpa [hxt] using hx
      rw [← hsplit] at hmem
      exact h.agree x (List.mem_of_mem_erase hmem) clock (by omega)

/-- **Step lemma.**  A step whose arming fits keeps the tree timely. -/
theorem Timely.step {m m' : Machine T H} {ev : MachineEvent T H} (h : Timely m)
    (hfits : ArmFits m ev) (hstep : m.step ev = some m') : Timely m' := by
  have hsched := Machine.step_sched hstep
  have hplaced := h.placed.step hsched
  have hnow := (h.placed.step_keeps hstep).1
  rcases shrinks_or_arms h.placed hsched with hshrinks | ⟨ms, t, hev, hst, heq⟩
  · exact h.shrink hplaced hnow hshrinks
  · have hfit := (hfits t ms hev).resolve_left hst
    exact h.arm hplaced hnow hst hfit heq

/-- **Run lemma.**  Runs whose armings fit stay timely. -/
theorem timely_of_run {m : Machine T H} {es : List (MachineEvent T H)}
    (h : Run Machine.step ArmFits (Machine.start T H) es m) : Timely m := by
  refine h.invariant Timely ⟨placed_start, ?_, ?_⟩ ?_
  · exact List.Pairwise.nil
  · intro t ht
    cases ht
  · intro s e s' hs hfits hstep
    exact hs.step hfits hstep

/-- The steps of the timer phase: the innermost loop is the timer loop. -/
def InTimerPhase (m : Machine T H) (_ : MachineEvent T H) : Prop :=
  ∃ curr rest, m.stack = .timerLoop curr :: rest

/-- Where the timer phase stands that started in `s` at time `curr`: the due
timers that were first in the tree were moved, and when the loop is over no
timer in the tree is due. -/
structure Draining (s : Sched T H) (curr : Nat) (rest : List (Frame T)) (m : Machine T H)
    (fired : List T) : Prop where
  placed : Placed m.sched
  taskHead : m.sched.taskHead = s.taskHead ++ fired
  timers : s.timers = fired ++ m.sched.timers
  due : ∀ t ∈ fired, (s.tasks t).expire ≤ curr
  expire : ∀ t ∈ m.sched.timers, (m.sched.tasks t).expire = (s.tasks t).expire
  stack : m.stack = .timerLoop curr :: rest ∨
    (m.stack = .runLoop :: rest ∧ ∀ t ∈ m.sched.timers, ¬ (s.tasks t).expire ≤ curr)

/-- A round of the timer loop goes on draining. -/
theorem Draining.loop {s : Sched T H} {curr : Nat} {rest : List (Frame T)}
    {m m' : Machine T H} {fired : List T} (h : Draining s curr rest m fired)
    (hordered : Ordered s) (hstack : m.stack = .timerLoop curr :: rest)
    (hloop : m.loop = some m') :
    ∃ fired', Draining s curr rest m' fired' ∧
      (m'.stack = .runLoop :: rest ∨ m'.sched.timers.length < m.sched.timers.length) := by
  have hsorted : m.sched.timers.Pairwise
      (fun a b => (s.tasks a).expire ≤ (s.tasks b).expire) := by
    have hall := hordered
    rw [Ordered, h.timers] at hall
    exact (List.pairwise_append.mp hall).2.1
  cases h.placed.loop_cases hloop with
  | fire curr' rest' t others htop htimers hst hdue =>
      -- the first timer is due: it is moved
      cases hstack.symm.trans htop
      have hexpire := h.expire t (by simp [htimers])
      have hothers : (m.sched.fire t).timers = others := by simp [Sched.fire, htimers]
      refine ⟨fired ++ [t], ⟨h.placed.relocate (fire_relocates h.placed hst), ?_, ?_, ?_, ?_,
        Or.inl hstack⟩, Or.inr ?_⟩
      · simp [Sched.fire, h.taskHead]
      · rw [hothers, h.timers, htimers]
        simp
      · intro x hx
        rcases List.mem_append.mp hx with hx | hx
        · exact h.due x hx
        · obtain rfl := List.mem_singleton.mp hx
          omega
      · intro x hx
        rw [hothers] at hx
        rw [← h.expire x (by simp [htimers, hx])]
        by_cases hxt : x = t <;> simp [Sched.fire, hxt]
      · rw [hothers, htimers]
        simp
  | drained curr' rest' htop hlater =>
      cases hstack.symm.trans htop
      refine ⟨fired, ⟨h.placed, h.taskHead, h.timers, h.due, h.expire, Or.inr ⟨rfl, ?_⟩⟩,
        Or.inl rfl⟩
      intro x hx
      -- the tree is ordered: when the first timer is not due, none is
      cases htimers : m.sched.timers with
      | nil => simp [htimers] at hx
      | cons t others =>
          have hnot := hlater t others htimers
          have hexpire := h.expire t (by simp [htimers])
          rw [htimers, List.pairwise_cons] at hsorted
          rw [htimers] at hx
          rcases List.mem_cons.mp hx with rfl | hx
          · omega
          · have hle := hsorted.1 x hx
            omega
  | take _ _ _ htop => cases hstack.symm.trans htop
  | idle _ htop => cases hstack.symm.trans htop

/-- A step of the timer phase goes on draining. -/
theorem Draining.step {s : Sched T H} {curr : Nat} {rest : List (Frame T)}
    {m m' : Machine T H} {ev : MachineEvent T H} {fired : List T}
    (h : Draining s curr rest m fired) (hordered : Ordered s) (hphase : InTimerPhase m ev)
    (hstep : m.step ev = some m') : ∃ fired', Draining s curr rest m' fired' := by
  have hstack : m.stack = .timerLoop curr :: rest := by
    rcases h.stack with hstack | ⟨hstack, _⟩
    · exact hstack
    · obtain ⟨c, r, hphase⟩ := hphase
      rw [hstack] at hphase
      simp at hphase
  have hcan : m.canCall = false := by simp [Machine.canCall, hstack]
  obtain ⟨_, hev⟩ := Machine.step_cases hstep
  cases ev with
  | call c => simp [hcan] at hev
  | init t => simp [hcan] at hev
  | process => simp [hcan] at hev
  | loop =>
      obtain ⟨fired', hnext, _⟩ := h.loop hordered hstack hev
      exact ⟨fired', hnext⟩
  | ret =>
      dsimp only at hev
      simp [Machine.ret, hstack] at hev
  | tick now =>
      obtain ⟨_, rfl⟩ := hev
      exact ⟨fired, h.placed, h.taskHead, h.timers, h.due, h.expire, h.stack⟩

/-- The timer phase ends: each round that does not end it takes a timer out of
the tree. -/
theorem Draining.terminates {s : Sched T H} {curr : Nat} {rest : List (Frame T)}
    (hordered : Ordered s) (n : Nat) :
    ∀ (m : Machine T H) (fired : List T), Draining s curr rest m fired →
      m.aborted = false → m.stack = .timerLoop curr :: rest → m.sched.timers.length < n →
      ∃ k m', Run Machine.step InTimerPhase m (List.replicate k .loop) m' ∧
        m'.stack = .runLoop :: rest := by
  induction n with
  | zero =>
      intro m fired _ _ _ hlt
      omega
  | succ n ih =>
      intro m fired h hgoes hstack hlt
      obtain ⟨m', hloop⟩ : ∃ m', m.loop = some m' := by
        rw [h.placed.loop_timer hstack]
        split
        · exact ⟨_, rfl⟩
        · split <;> exact ⟨_, rfl⟩
      have hstep : m.step .loop = some m' := by simp [Machine.step, hgoes, hloop]
      have hphase : InTimerPhase m (MachineEvent.loop : MachineEvent T H) :=
        ⟨curr, rest, hstack⟩
      obtain ⟨fired', hnext, hdone | hless⟩ := h.loop hordered hstack hloop
      · exact ⟨1, m', Run.single hstep hphase, hdone⟩
      · rcases hnext.stack with hstack' | ⟨hdone, _⟩
        · have hgoes' := (h.placed.step_keeps hstep).2
          obtain ⟨k, m'', hrun, hdone⟩ := ih m' fired' hnext hgoes' hstack' (by omega)
          exact ⟨k + 1, m'', Run.cons hstep hphase hrun, hdone⟩
        · exact ⟨1, m', Run.single hstep hphase, hdone⟩

omit [DecidableEq T] in
/-- What the end of the timer phase has moved: the due timers, in the order of
the tree. -/
theorem Draining.finished {s : Sched T H} {curr : Nat} {rest : List (Frame T)}
    {m : Machine T H} {fired : List T} (h : Draining s curr rest m fired)
    (hdone : m.stack = .runLoop :: rest) :
    m.sched.taskHead = s.taskHead ++ s.timers.filter (fun t => (s.tasks t).expire ≤ curr) ∧
    m.sched.timers = s.timers.filter (fun t => curr < (s.tasks t).expire) := by
  have hkept : ∀ t ∈ m.sched.timers, ¬ (s.tasks t).expire ≤ curr := by
    rcases h.stack with hstack | ⟨_, hkept⟩
    · rw [hstack] at hdone
      simp at hdone
    · exact hkept
  have hfired : fired.filter (fun t => (s.tasks t).expire ≤ curr) = fired :=
    List.filter_eq_self.mpr (fun t ht => by simpa using h.due t ht)
  have hnone : m.sched.timers.filter (fun t => (s.tasks t).expire ≤ curr) = [] :=
    List.filter_eq_nil_iff.mpr (fun t ht => by simpa using hkept t ht)
  have hfired' : fired.filter (fun t => curr < (s.tasks t).expire) = [] :=
    List.filter_eq_nil_iff.mpr (fun t ht => by simpa using h.due t ht)
  have hrest : m.sched.timers.filter (fun t => curr < (s.tasks t).expire) = m.sched.timers :=
    List.filter_eq_self.mpr (fun t ht => by simpa using hkept t ht)
  rw [h.taskHead, h.timers, List.filter_append, List.filter_append, hfired, hnone, hfired',
    hrest]
  simp

omit [DecidableEq T] in
/-- The start of `spe_task_process` is the start of the timer phase. -/
theorem draining_start {m : Machine T H} (h : Placed m.sched) :
    Draining m.sched m.now m.stack m.process [] := by
  obtain ⟨hsched, _, _⟩ := m.process_keeps
  refine ⟨by rw [hsched]; exact h, by rw [hsched]; simp, by rw [hsched]; rfl, ?_, ?_, ?_⟩
  · intro t ht
    cases ht
  · intro t _
    rw [hsched]
  · unfold Machine.process
    split
    · rename_i hempty
      have hnil : m.sched.timers = [] := (RedBlack.Tree.isEmpty_iff _).mp hempty
      exact Or.inr ⟨rfl, by simp [hnil]⟩
    · exact Or.inl rfl

/-- `spe_task_process` gets to its run loop. -/
theorem Draining.reaches {m : Machine T H}
    (h : Draining m.sched m.now m.stack m.process []) (hordered : Ordered m.sched)
    (hgoes : m.aborted = false) :
    ∃ k m', Run Machine.step InTimerPhase m.process (List.replicate k .loop) m' ∧
      m'.stack = .runLoop :: m.stack := by
  rcases h.stack with hstack | ⟨hstack, _⟩
  · obtain ⟨_, _, habort⟩ := m.process_keeps
    exact Draining.terminates hordered _ m.process [] h (habort.trans hgoes) hstack
      (Nat.lt_succ_self _)
  · exact ⟨0, m.process, Run.nil _, hstack⟩

/-- **Timer law.**  In every run whose armings fit, the timer phase of
`spe_task_process` ends, and however it ends it has moved to the run queue
exactly the timers that were in the tree and were due at the time it read. -/
theorem timer_law {m m₁ : Machine T H} {es : List (MachineEvent T H)}
    (h : Run Machine.step ArmFits (Machine.start T H) es m) (hproc : m.step .process = some m₁) :
    (∃ k m', Run Machine.step InTimerPhase m₁ (List.replicate k .loop) m' ∧
      m'.stack = .runLoop :: m.stack) ∧
    ∀ fs m', Run Machine.step InTimerPhase m₁ fs m' → m'.stack = .runLoop :: m.stack →
      m'.sched.taskHead = m.sched.taskHead ++
        m.sched.timers.filter (fun t => m.sched.deadline t ≤ m.now) ∧
      m'.sched.timers = m.sched.timers.filter (fun t => m.now < m.sched.deadline t) := by
  have htimely := timely_of_run h
  obtain ⟨hgoes, _, rfl⟩ := Machine.step_cases hproc
  have hstart := draining_start htimely.placed
  have hagree : ∀ t ∈ m.sched.timers,
      ((m.sched.tasks t).expire ≤ m.now ↔ m.sched.deadline t ≤ m.now) :=
    fun t ht => htimely.agree t ht m.now (Nat.le_refl _)
  constructor
  · exact hstart.reaches htimely.ordered hgoes
  · intro fs m' hrun hdone
    obtain ⟨fired, hend⟩ := hrun.invariant
      (fun m' => ∃ fired, Draining m.sched m.now m.stack m' fired) ⟨[], hstart⟩
      (fun _ _ _ hs hphase hstep => hs.elim fun _ hs => hs.step htimely.ordered hphase hstep)
    obtain ⟨hhead, htimers⟩ := hend.finished hdone
    constructor
    · rw [hhead]
      congr 1
      apply List.filter_congr
      intro t ht
      simp [hagree t ht]
    · rw [htimers]
      apply List.filter_congr
      intro t ht
      have hiff := hagree t ht
      simp only [decide_eq_decide]
      omega

/-- Two timers are armed; one is due at the time of the second process. -/
theorem timer_law_two :
    ∃ m m₁ : Machine Nat Unit,
      Run Machine.step ArmFits (Machine.start Nat Unit)
        [.tick 100, .call (.scheduleTimeout 1 50), .call (.scheduleTimeout 2 10), .tick 120] m ∧
      m.step .process = some m₁ ∧
      ∀ fs m', Run Machine.step InTimerPhase m₁ fs m' → m'.stack = .runLoop :: m.stack →
        m'.sched.taskHead = m.sched.taskHead ++
          m.sched.timers.filter (fun t => m.sched.deadline t ≤ m.now) ∧
        m'.sched.timers = m.sched.timers.filter (fun t => m.now < m.sched.deadline t) := by
  have hrun : ∃ m, Run Machine.step ArmFits (Machine.start Nat Unit)
      [.tick 100, .call (.scheduleTimeout 1 50), .call (.scheduleTimeout 2 10), .tick 120] m ∧
      ∃ m₁, m.step .process = some m₁ := by
    refine ⟨_, Run.cons rfl ?_ (Run.cons rfl ?_ (Run.cons rfl ?_ (Run.cons rfl ?_
      (Run.nil _)))), _, rfl⟩
    · intro t ms heq
      cases heq
    · intro t ms heq
      cases heq
      exact Or.inr (Or.inl (by decide))
    · intro t ms heq
      cases heq
      exact Or.inr (Or.inl (by decide))
    · intro t ms heq
      cases heq
  obtain ⟨m, hrun, m₁, hproc⟩ := hrun
  exact ⟨m, m₁, hrun, hproc, (timer_law hrun hproc).2⟩

/-- **Early timer.**  At 1700000000000 milliseconds a timer is armed for a
second; the process that starts in the same millisecond moves it to the run
queue. -/
theorem timer_fires_early :
    ∃ m m₁ m' : Machine Nat Unit,
      Run Machine.step anyStep (Machine.start Nat Unit)
        [.tick 1700000000000, .call (.scheduleTimeout 7 1000)] m ∧
      m.step .process = some m₁ ∧
      Run Machine.step InTimerPhase m₁ [.loop, .loop] m' ∧ m'.stack = .runLoop :: m.stack ∧
      7 ∈ m.sched.timers ∧ 7 ∈ m'.sched.taskHead ∧
      ¬ m.sched.deadline 7 ≤ m.now := by
  refine ⟨_, _, _, run_iff_exec.mpr rfl, rfl,
    Run.cons rfl ⟨_, _, rfl⟩ (Run.cons rfl ⟨_, _, rfl⟩ (Run.nil _)), rfl, ?_, ?_, ?_⟩
  · decide
  · decide
  · decide

end Spe
