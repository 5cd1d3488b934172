import Spe.RedBlackBalance
import Spe.TaskPlacement

/-!
# The timer tree is balanced

Whatever the scheduler does, it changes `timer_head` by `rb_erase` and by insertions with
`rb_insert_color` only.  Both keep it red-black, so in every state of every run its height is
at most twice the logarithm of the number of armed timers (`timer_tree_balanced`): no walk of
`spe_task_schedule_timeout`, `rb_first` or `rb_erase` takes longer.
-/

namespace Spe

open Transition
open RedBlack

variable {T H : Type} [DecidableEq T] {s s' : Sched T H}

theorem rbErase_redBlack (h : s.timerHead.IsRedBlack) (t : T) :
    (s.rbErase t).timerHead.IsRedBlack := h.erase t

/-- Disarming keeps the timer tree red-black. -/
theorem disarm_redBlack (h : s.timerHead.IsRedBlack) (t : T) :
    (s.disarm t).timerHead.IsRedBlack := by
  unfold Sched.disarm
  split
  · exact rbErase_redBlack h t
  · exact h

/-- So does `spe_task_schedule`. -/
theorem taskSchedule_redBlack (h : s.timerHead.IsRedBlack) (t : T) :
    (taskSchedule s t).1.timerHead.IsRedBlack := by
  have hdisarm := disarm_redBlack h t
  unfold taskSchedule
  split
  · exact h
  · dsimp only
    split
    · exact hdisarm
    · exact hdisarm

/-- So does `spe_task_schedule_timeout`. -/
theorem taskScheduleTimeout_redBlack (h : s.timerHead.IsRedBlack) (now ms : Nat) (t : T) :
    (taskScheduleTimeout s now ms t).timerHead.IsRedBlack := by
  unfold taskScheduleTimeout
  split
  · exact h
  · exact (disarm_redBlack h t).insert _ t

/-- So does `spe_task_dequeue`. -/
theorem taskDequeue_redBlack (h : s.timerHead.IsRedBlack) (t : T) :
    (taskDequeue s t).timerHead.IsRedBlack := by
  unfold taskDequeue
  split
  · exact h
  · exact h
  · exact rbErase_redBlack h t

/-- So does a round of the timer loop. -/
theorem timerRound_redBlack {curr : Nat} (h : s.timerHead.IsRedBlack)
    (hround : timerRound curr s = .next s') : s'.timerHead.IsRedBlack := by
  unfold timerRound at hround
  split at hround
  · cases hround
  · rename_i t _
    split at hround
    · cases hround
    · split at hround
      · cases hround
      · obtain rfl := Round.next.inj hround
        exact rbErase_redBlack h t

/-- So does a round of the run loop. -/
theorem runRound_redBlack {t : T} (h : s.timerHead.IsRedBlack)
    (hround : runRound s = .next (s', t)) : s'.timerHead.IsRedBlack := by
  unfold runRound at hround
  split at hround
  · cases hround
  · split at hround
    · cases hround
    · obtain ⟨rfl, rfl⟩ := Prod.mk.inj (Round.next.inj hround)
      exact h

/-- **Step lemma.**  Every step of the scheduler keeps the timer tree red-black. -/
theorem SchedStep.redBlack {now : Nat} {arms : Nat → T → Prop} (h : SchedStep now arms s s')
    (hs : s.timerHead.IsRedBlack) : s'.timerHead.IsRedBlack := by
  cases h with
  | keep => exact hs
  | setHandler t handler fast => exact hs
  | init t _ => exact hs
  | schedule t => exact taskSchedule_redBlack hs t
  | scheduleTimeout ms t _ => exact taskScheduleTimeout_redBlack hs now ms t
  | dequeue t => exact taskDequeue_redBlack hs t
  | timerRound _ curr hround => exact timerRound_redBlack hs hround
  | runRound _ t hround => exact runRound_redBlack hs hround

/-- **Run lemma.**  Along every run the timer tree is red-black. -/
theorem redBlack_of_run {ok : Machine T H → MachineEvent T H → Prop} {m : Machine T H}
    {es : List (MachineEvent T H)} (h : Run Machine.step ok (Machine.start T H) es m) :
    m.sched.timerHead.IsRedBlack :=
  h.invariant (fun m => m.sched.timerHead.IsRedBlack) ⟨rfl, 0, .nil⟩
    (fun _ _ _ hs _ hstep => (Machine.step_sched hstep).redBlack hs)

/-- **Balance.**  In every state of every run the timer tree is red-black, and its height is
at most twice the logarithm of the number of armed timers. -/
theorem timer_tree_balanced {m : Machine T H} {es : List (MachineEvent T H)}
    (h : Run Machine.step anyStep (Machine.start T H) es m) :
    m.sched.timerHead.IsRedBlack ∧
      m.sched.timerHead.height ≤ 2 * (m.sched.timerHead.toList.length + 1).log2 := by
  have hbalanced := redBlack_of_run h
  exact ⟨hbalanced, hbalanced.height_le⟩

/-- A run in which three timers are armed in the order in which they expire. -/
theorem timer_tree_balanced_ascending :
    ∃ m : Machine Nat Unit,
      Run Machine.step anyStep (Machine.start Nat Unit)
        [.call (.scheduleTimeout 1 10), .call (.scheduleTimeout 2 20),
          .call (.scheduleTimeout 3 30)] m ∧
      m.sched.timerHead.toList = [1, 2, 3] ∧
      m.sched.timerHead.IsRedBlack ∧
      m.sched.timerHead.height ≤ 2 * (m.sched.timerHead.toList.length + 1).log2 := by
  obtain ⟨m, hm⟩ : ∃ m, exec Machine.step (Machine.start Nat Unit)
      [.call (.scheduleTimeout 1 10), .call (.scheduleTimeout 2 20),
        .call (.scheduleTimeout 3 30)] = some m := ⟨_, rfl⟩
  have hrun := run_iff_exec.mpr hm
  refine ⟨m, hrun, ?_, timer_tree_balanced hrun⟩
  obtain rfl := Option.some.inj hm
  rfl

end Spe
