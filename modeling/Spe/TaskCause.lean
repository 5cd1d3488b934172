import Spe.TaskEffects

/-!
# Why a task runs

A handler reads `task->timeout` to tell the expiry of its timer from a call of
`spe_task_schedule`.  The bit is set when the timer loop moves the task to the run queue, and
cleared by `spe_task_schedule_timeout` and `spe_task_init` only.  `spe_task_schedule` leaves
it as it is: a task whose timer has expired once and that is scheduled afterwards runs with
the bit set (`cause_known_fails`).

`Cause` is what put a task into the run queue last.  A handler that is executed finds the
bit of this cause, so it can tell exactly if the task was not scheduled with its bit set
(`cause_known`).
-/

namespace Spe

open Transition

variable {T H : Type} [DecidableEq T]

/-- Why a task is executed: its timer has expired, or `spe_task_schedule` was called and
found `timeout` so. -/
inductive Cause
  | expiry
  | schedule (timeout : Bool)
  deriving DecidableEq

/-- The bit that comes with a cause. -/
def Cause.bit : Cause → Bool
  | .expiry => true
  | .schedule timeout => timeout

/-- The last cause for each task. -/
def noteCause (m : Machine T H) (ev : MachineEvent T H) (h : T → Cause) : T → Cause :=
  match ev with
  | .call (.schedule t) =>
      if (m.sched.tasks t).status = .queue then h
      else Function.update h t (.schedule (m.sched.tasks t).timeout)
  | .loop =>
      match m.stack, m.sched.timers with
      | .timerLoop curr :: _, t :: _ =>
          if (m.sched.tasks t).expire ≤ curr then Function.update h t .expiry else h
      | _, _ => h
  | _ => h

/-- No task has been in the run queue. -/
def noCause : T → Cause := fun _ => .schedule false

/-- The machine with the causes. -/
def causeStep : Machine T H × (T → Cause) → MachineEvent T H → Option (Machine T H × (T → Cause)) :=
  noted Machine.step noteCause

/-- A step executes the handler of `t`. -/
def Executes (p q : Machine T H × (T → Cause)) (t : T) : Prop :=
  q.1.stack = .handler t :: p.1.stack

/-- A handler that the step executes finds `timeout` set if and only if its timer has
expired. -/
def Tells (p : Machine T H × (T → Cause)) (ev : MachineEvent T H) : Prop :=
  ∀ q t, causeStep p ev = some q → Executes p q t →
    ((q.1.sched.tasks t).timeout = true ↔ q.2 t = .expiry)

/-- No handler that the step executes belongs to a task that `spe_task_schedule` was called
for with `timeout` set. -/
def Fresh (p : Machine T H × (T → Cause)) (ev : MachineEvent T H) : Prop :=
  ∀ q t, causeStep p ev = some q → Executes p q t → q.2 t ≠ .schedule true

/-- The bit of a queued task is that of its cause. -/
def Caused (s : Sched T H) (h : T → Cause) : Prop :=
  ∀ t, (s.tasks t).status = .queue → (s.tasks t).timeout = (h t).bit

/-- A step that changes one task and does not queue it keeps the causes. -/
theorem Caused.keep {s s' : Sched T H} {h : T → Cause} (hs : Caused s h) {t : T} {k : Task H}
    (htasks : s'.tasks = Function.update s.tasks t k)
    (hself : k.status = .queue →
      (s.tasks t).status = .queue ∧ k.timeout = (s.tasks t).timeout) : Caused s' h := by
  intro x hx
  rw [htasks] at hx ⊢
  by_cases hxt : x = t
  · subst hxt
    rw [Function.update_self] at hx ⊢
    obtain ⟨hold, hsame⟩ := hself hx
    rw [hsame]
    exact hs x hold
  · rw [Function.update_of_ne hxt] at hx ⊢
    exact hs x hx

/-- So does a step that queues one task, with the bit of its cause. -/
theorem Caused.queue {s s' : Sched T H} {h : T → Cause} (hs : Caused s h) {t : T} {k : Task H}
    {c : Cause} (htasks : s'.tasks = Function.update s.tasks t k) (hself : k.timeout = c.bit) :
    Caused s' (Function.update h t c) := by
  intro x hx
  rw [htasks] at hx ⊢
  by_cases hxt : x = t
  · subst hxt
    rw [Function.update_self, Function.update_self]
    exact hself
  · rw [Function.update_of_ne hxt] at hx
    rw [Function.update_of_ne hxt, Function.update_of_ne hxt]
    exact hs x hx

/-- `spe_task_schedule` leaves the bit as it is. -/
theorem Task.scheduled_timeout (k : Task H) : k.scheduled.timeout = k.timeout := by
  unfold Task.scheduled
  split <;> rfl

/-- A call keeps the causes. -/
theorem Caused.call {m : Machine T H} {h : T → Cause} (hs : Caused m.sched h) (c : Call T H) :
    Caused (m.call c).sched (noteCause m (.call c) h) := by
  have htasks := m.call_tasks c
  cases c with
  | setHandler t handler fast => exact hs.keep htasks (fun hqueue => ⟨hqueue, rfl⟩)
  | schedule t =>
      by_cases hst : (m.sched.tasks t).status = .queue
      · have hnote : noteCause m (.call (.schedule t)) h = h := if_pos hst
        rw [hnote]
        exact hs.keep htasks (fun _ => ⟨hst, (m.sched.tasks t).scheduled_timeout⟩)
      · have hnote : noteCause m (.call (.schedule t)) h =
            Function.update h t (.schedule (m.sched.tasks t).timeout) := if_neg hst
        rw [hnote]
        exact hs.queue htasks (m.sched.tasks t).scheduled_timeout
  | scheduleTimeout t ms =>
      refine hs.keep htasks (fun hqueue => ?_)
      change ((m.sched.tasks t).armed m.now ms).status = .queue at hqueue
      change _ ∧ ((m.sched.tasks t).armed m.now ms).timeout = _
      unfold Task.armed at hqueue ⊢
      by_cases hst : (m.sched.tasks t).status = .queue
      · rw [if_pos hst]
        exact ⟨hst, rfl⟩
      · rw [if_neg hst] at hqueue
        cases hqueue
  | dequeue t => exact hs.keep htasks (by rintro ⟨⟩)

/-- A round of a loop keeps the causes. -/
theorem Caused.loop {m m' : Machine T H} {h : T → Cause} (hs : Caused m.sched h)
    (hmove : LoopMove m m') : Caused m'.sched (noteCause m .loop h) := by
  cases hmove with
  | fire curr rest t others hstack htimers hstatus hdue =>
      have hnote : noteCause m .loop h = Function.update h t .expiry := by
        simp [noteCause, hstack, htimers, hdue]
      rw [hnote]
      exact hs.queue (fire_tasks m.sched t) rfl
  | drained curr rest hstack hlater =>
      have hnote : noteCause m .loop h = h := by
        cases htimers : m.sched.timers with
        | nil => simp [noteCause, hstack, htimers]
        | cons t others => simp [noteCause, hstack, htimers, hlater t others htimers]
      rw [hnote]
      exact hs
  | take rest t others hstack hqueue =>
      have hnote : noteCause m .loop h = h := by simp [noteCause, hstack]
      rw [hnote]
      exact hs.keep (take_tasks m.sched t) (by rintro ⟨⟩)
  | idle rest hstack hqueue =>
      have hnote : noteCause m .loop h = h := by simp [noteCause, hstack]
      rw [hnote]
      exact hs

/-- **Step lemma.**  A queued task keeps the bit of its cause. -/
theorem Caused.step {m m' : Machine T H} {ev : MachineEvent T H} {h : T → Cause}
    (hs : Caused m.sched h) (hplaced : Placed m.sched) (hstep : m.step ev = some m') :
    Caused m'.sched (noteCause m ev h) := by
  obtain ⟨_, hev⟩ := Machine.step_cases hstep
  cases ev with
  | call c =>
      obtain ⟨_, rfl⟩ := hev
      exact hs.call c
  | init t =>
      obtain ⟨_, _, rfl⟩ := hev
      exact hs.keep rfl (by rintro ⟨⟩)
  | process =>
      obtain ⟨_, rfl⟩ := hev
      rw [m.process_keeps.1]
      exact hs
  | loop => exact hs.loop (hplaced.loop_cases hev)
  | ret =>
      rw [← (Machine.ret_keeps hev).1]
      exact hs
  | tick now =>
      obtain ⟨_, rfl⟩ := hev
      exact hs

/-- A call executes a handler only if it schedules a fast task that is not queued. -/
theorem call_executes {m : Machine T H} {c : Call T H} {t : T}
    (h : (m.call c).stack = .handler t :: m.stack) :
    c = .schedule t ∧ (m.sched.tasks t).status ≠ .queue := by
  rcases m.call_stack c with hsame | ⟨heq, hst, hpush⟩
  · rw [hsame] at h
    exact absurd h List.ne_cons_self
  · rw [hpush] at h
    simp only [List.cons.injEq, Frame.handler.injEq, and_true] at h
    subst h
    exact ⟨heq, hst⟩

/-- **The bit that a handler finds** is that of the cause of its execution. -/
theorem executed_bit {p q : Machine T H × (T → Cause)} {ev : MachineEvent T H} {t : T}
    (hplaced : Placed p.1.sched) (hcaused : Caused p.1.sched p.2)
    (hstep : causeStep p ev = some q) (hexec : Executes p q t) :
    (q.1.sched.tasks t).timeout = (q.2 t).bit := by
  obtain ⟨m, h⟩ := p
  obtain ⟨m', h'⟩ := q
  obtain ⟨hmachine, hnote⟩ := noted_eq_some.mp hstep
  dsimp only at hmachine hnote hplaced hcaused ⊢
  change m'.stack = .handler t :: m.stack at hexec
  have hnone : ∀ x : Frame T, m.stack ≠ x :: m.stack := fun x => List.ne_cons_self
  obtain ⟨_, hev⟩ := Machine.step_cases hmachine
  cases ev with
  | call c =>
      obtain ⟨_, rfl⟩ := hev
      obtain ⟨rfl, hst⟩ := call_executes hexec
      have hcause : h' t = .schedule (m.sched.tasks t).timeout := by
        rw [hnote]
        exact (congrFun (if_neg hst) t).trans (Function.update_self _ _ _)
      have htask : (m.call (.schedule t)).sched.tasks t = (m.sched.tasks t).scheduled := by
        rw [m.call_tasks]
        exact Function.update_self _ _ _
      rw [hcause, htask]
      exact (m.sched.tasks t).scheduled_timeout
  | init x =>
      obtain ⟨_, _, rfl⟩ := hev
      exact absurd hexec (hnone _)
  | process =>
      obtain ⟨_, rfl⟩ := hev
      unfold Machine.process at hexec
      split at hexec <;> cases hexec
  | ret =>
      have hshort := congrArg List.length hexec
      dsimp only at hev
      unfold Machine.ret at hev
      split at hev
      · rename_i hstack
        obtain rfl := Option.some.inj hev
        simp only [hstack, List.length_cons] at hshort
        omega
      · cases hev
  | tick now =>
      obtain ⟨_, rfl⟩ := hev
      exact absurd hexec (hnone _)
  | loop =>
      have hnext := hcaused.loop (hplaced.loop_cases hev)
      cases hplaced.loop_cases hev with
      | fire => exact absurd hexec (hnone _)
      | drained curr rest hstack =>
          rw [hstack] at hexec
          cases hexec
      | idle rest hstack =>
          have hshort := congrArg List.length hexec
          simp only [hstack, List.length_cons] at hshort
          omega
      | take rest x others hstack hqueue hstatus =>
          rw [hstack] at hexec
          cases hexec
          have hcause : h' = h := by rw [hnote]; simp [noteCause, hstack]
          have htask : (m.sched.take t).tasks t = (m.sched.tasks t).freed := by
            rw [take_tasks]
            exact Function.update_self _ _ _
          rw [hcause, htask]
          exact hcaused t hstatus

/-- What holds of the machine with the causes between any two steps. -/
def CauseInv (p : Machine T H × (T → Cause)) : Prop := Placed p.1.sched ∧ Caused p.1.sched p.2

/-- Every step keeps it. -/
theorem CauseInv.step {p q : Machine T H × (T → Cause)} {ev : MachineEvent T H} (h : CauseInv p)
    (hstep : causeStep p ev = some q) : CauseInv q := by
  obtain ⟨hmachine, hnote⟩ := noted_eq_some.mp hstep
  refine ⟨h.1.step (Machine.step_sched hmachine), ?_⟩
  rw [hnote]
  exact h.2.step h.1 hmachine

omit [DecidableEq T] in
/-- It holds at the start. -/
theorem causeInv_start : CauseInv (Machine.start T H, noCause) :=
  ⟨placed_start, by rintro _ ⟨⟩⟩

omit [DecidableEq T] in
/-- A cause is told from its bit, unless `spe_task_schedule` found the bit set. -/
theorem Cause.bit_iff (c : Cause) : (c.bit = true ↔ c = .expiry) ↔ c ≠ .schedule true := by
  cases c with
  | expiry => simp [Cause.bit]
  | schedule timeout => cases timeout <;> simp [Cause.bit]

/-- **One execution** tells its cause exactly if the task was not scheduled with its bit set. -/
theorem CauseInv.tells_iff {p : Machine T H × (T → Cause)} (h : CauseInv p)
    (ev : MachineEvent T H) : Tells p ev ↔ Fresh p ev := by
  constructor
  · intro htells q t hstep hexec
    rw [← (q.2 t).bit_iff, ← executed_bit h.1 h.2 hstep hexec]
    exact htells q t hstep hexec
  · intro hfresh q t hstep hexec
    rw [executed_bit h.1 h.2 hstep hexec]
    exact (q.2 t).bit_iff.mpr (hfresh q t hstep hexec)

/-- **A task can tell why it runs** in every execution of a run exactly if no execution is
that of a task for which `spe_task_schedule` was called with `timeout` set. -/
theorem cause_known (p : Machine T H × (T → Cause)) (es : List (MachineEvent T H)) :
    Run causeStep Tells (Machine.start T H, noCause) es p ↔
      Run causeStep Fresh (Machine.start T H, noCause) es p := by
  constructor
  · intro htells
    exact htells.strengthen CauseInv causeInv_start (fun _ _ _ h _ hstep => h.step hstep)
      (fun _ ev _ h htells _ => (h.tells_iff ev).mp htells)
  · intro hfresh
    exact hfresh.strengthen CauseInv causeInv_start (fun _ _ _ h _ hstep => h.step hstep)
      (fun _ ev _ h hfresh _ => (h.tells_iff ev).mpr hfresh)

/-- `spe_task_schedule` is called for a task that is queued already or has `timeout` clear. -/
def Cleared (p : Machine T H × (T → Cause)) (ev : MachineEvent T H) : Prop :=
  ∀ t, ev = .call (.schedule t) →
    (p.1.sched.tasks t).status = .queue ∨ (p.1.sched.tasks t).timeout = false

/-- What a step notes. -/
inductive Notes (m : Machine T H) (ev : MachineEvent T H) (h : T → Cause) : (T → Cause) → Prop
  | keep : Notes m ev h h
  | expiry (t : T) : Notes m ev h (Function.update h t .expiry)
  | schedule (t : T) (hev : ev = .call (.schedule t))
      (hst : (m.sched.tasks t).status ≠ .queue) :
      Notes m ev h (Function.update h t (.schedule (m.sched.tasks t).timeout))

/-- Every note is one of these. -/
theorem noteCause_cases (m : Machine T H) (ev : MachineEvent T H) (h : T → Cause) :
    Notes m ev h (noteCause m ev h) := by
  unfold noteCause
  split
  · rename_i t
    split
    · exact .keep
    · rename_i hst
      exact .schedule t rfl hst
  · rcases m.stack with _ | ⟨frame, rest⟩
    · exact .keep
    · cases frame with
      | runLoop => exact .keep
      | handler => exact .keep
      | timerLoop curr =>
          rcases m.sched.timers with _ | ⟨t, others⟩
          · exact .keep
          · dsimp only
            split
            · exact .expiry t
            · exact .keep
  · exact .keep

/-- Such a call notes no cause with the bit set. -/
theorem noteCause_cleared {m : Machine T H} {ev : MachineEvent T H} {h : T → Cause}
    (hcleared : Cleared (m, h) ev) (hnone : ∀ t, h t ≠ .schedule true) (t : T) :
    noteCause m ev h t ≠ .schedule true := by
  have hnotes := noteCause_cases m ev h
  generalize noteCause m ev h = noted at hnotes ⊢
  cases hnotes with
  | keep => exact hnone t
  | expiry x =>
      by_cases ht : t = x
      · subst ht
        rw [Function.update_self]
        simp
      · rw [Function.update_of_ne ht]
        exact hnone t
  | schedule x hev hst =>
      have hclear := (hcleared x hev).resolve_left hst
      by_cases ht : t = x
      · subst ht
        rw [Function.update_self]
        simpa using hclear
      · rw [Function.update_of_ne ht]
        exact hnone t

/-- So a task can tell why it runs when every task is scheduled with `timeout` clear. -/
theorem tells_of_cleared {p : Machine T H × (T → Cause)} {es : List (MachineEvent T H)}
    (h : Run causeStep Cleared (Machine.start T H, noCause) es p) :
    Run causeStep Tells (Machine.start T H, noCause) es p := by
  refine h.strengthen (fun p => CauseInv p ∧ ∀ t, p.2 t ≠ .schedule true)
    ⟨causeInv_start, fun t => by simp [noCause]⟩ ?_ ?_
  · rintro p ev q ⟨hinv, hnone⟩ hcleared hstep
    refine ⟨hinv.step hstep, fun t => ?_⟩
    rw [(noted_eq_some.mp hstep).2]
    exact noteCause_cleared hcleared hnone t
  · rintro p ev q ⟨hinv, hnone⟩ hcleared _
    refine (hinv.tells_iff ev).mpr (fun q' t hstep _ => ?_)
    rw [(noted_eq_some.mp hstep).2]
    exact noteCause_cleared hcleared hnone t

/-- **A task that is scheduled after its timer has expired once** runs with `timeout` set. -/
theorem cause_known_fails :
    ∃ p q : Machine Nat Unit × (Nat → Cause),
      Run causeStep anyStep (Machine.start Nat Unit, noCause)
        [.call (.scheduleTimeout 7 5), .tick 5, .process, .loop, .loop, .loop, .ret, .loop,
          .call (.schedule 7), .process] p ∧
      causeStep p .loop = some q ∧ Executes p q 7 ∧
      (q.1.sched.tasks 7).timeout = true ∧ q.2 7 = .schedule true := by
  obtain ⟨p, hp, q, hq⟩ : ∃ p, exec causeStep (Machine.start Nat Unit, noCause)
      [.call (.scheduleTimeout 7 5), .tick 5, .process, .loop, .loop, .loop, .ret, .loop,
        .call (.schedule 7), .process] = some p ∧ ∃ q, causeStep p .loop = some q ∧
      Executes p q 7 ∧ (q.1.sched.tasks 7).timeout = true ∧ q.2 7 = .schedule true :=
    ⟨_, rfl, _, rfl, rfl, rfl, rfl⟩
  exact ⟨p, q, run_iff_exec.mpr hp, hq⟩

end Spe
