import Mathlib.Logic.Function.Basic
import Spe.Epoll
import Spe.Transition

/-!
# Dispatching events (`spe_epoll_process`)

The task pointers of an entry change before `epoll_ctl` is called, its mask only
after the call has succeeded.  Enabling sets a pointer before its bit; disabling
clears a pointer before its bit, and when `epoll_ctl` fails the bit stays behind
without one.

A batch of events is taken one side of one descriptor at a time, because the handler
of a fast task runs in between and may enable and disable.
-/

namespace Spe

open Transition

variable {T : Type}

/-- A bit that is set has a task. -/
def Epoll.Pointed (e : Epoll T) : Prop :=
  ∀ side, e.wide.has side = true → (e.taskOf side).isSome

/-- The mask that disabling asks for. -/
def Epoll.without (e : Epoll T) (mask : Mask) : Mask := e.wide &&& ~~~mask

/-- Disabling takes a bit away that is set. -/
def Epoll.Takes (e : Epoll T) (mask : Mask) : Prop :=
  ∃ side, mask.has side = true ∧ e.wide.has side = true

/-- Enabling keeps an entry pointed, whatever `epoll_ctl` answers. -/
theorem Epoll.Pointed.enable {e : Epoll T} (h : e.Pointed) (mask : Mask) (task : T)
    (ctl : EpollCtl) : (e.enable mask task ctl).1.Pointed := by
  intro side hside
  rw [Epoll.enable_taskOf]
  by_cases hmask : mask.has side = true
  · rw [if_pos hmask]
    rfl
  · rw [if_neg hmask]
    rw [Epoll.enable_has_if] at hside
    apply h side
    split at hside
    · simpa [hmask] using hside
    · exact hside

/-- Where a bit is to be taken away, the result is that of `epoll_ctl`. -/
theorem Epoll.Takes.result {e : Epoll T} {mask : Mask} (h : e.Takes mask) (ctl : EpollCtl) :
    (e.disable mask ctl).2 = ctl (e.op (e.without mask)) (Epoll.interest (e.without mask)) := by
  have hissued : (e.point mask none).wide ≠ e.without mask := by
    obtain ⟨side, hmask, hwide⟩ := h
    intro heq
    have hbit : e.wide.has side = (e.without mask).has side :=
      congrArg (fun m => Mask.has m side) heq
    simp [Epoll.without, Mask.has_and_not, hmask, hwide] at hbit
  exact (e.point mask none).changeEpoll_result ctl hissued

/-- **Disabling** keeps an entry pointed exactly if `epoll_ctl` succeeds where a bit is to
be taken away. -/
theorem Epoll.Pointed.disable_iff {e : Epoll T} (h : e.Pointed) (mask : Mask)
    (ctl : EpollCtl) :
    (e.disable mask ctl).1.Pointed ↔
      (e.Takes mask → ctl (e.op (e.without mask)) (Epoll.interest (e.without mask)) = true) := by
  constructor
  · intro hpointed htakes
    rw [← htakes.result ctl]
    by_contra hfails
    obtain ⟨side, hmask, hwide⟩ := htakes
    have hpointer := hpointed side (by rw [Epoll.disable_has_if, if_neg hfails]; exact hwide)
    rw [Epoll.disable_taskOf, if_pos hmask] at hpointer
    cases hpointer
  · intro hgood side hside
    rw [Epoll.disable_has_if] at hside
    by_cases hmask : mask.has side = true
    · exfalso
      by_cases hres : (e.disable mask ctl).2 = true
      · simp [hres, hmask] at hside
      · rw [if_neg hres] at hside
        have htakes : e.Takes mask := ⟨side, hmask, hside⟩
        exact hres ((htakes.result ctl).trans (hgood htakes))
    · rw [Epoll.disable_taskOf, if_neg hmask]
      apply h side
      split at hside
      · simpa [hmask] using hside
      · exact hside

/-- The table `epolls`, and whether `spe_task_schedule` has been called with NULL. -/
structure EpollTable (T : Type) where
  maxfd : Nat
  epolls : Nat → Epoll T
  crashed : Bool

/-- What happens to the table: the two calls, and one side of an event of `epoll_wait`. -/
inductive EpollEvent (T : Type)
  | enable (fd : Nat) (mask : Mask) (task : T) (ctl : EpollCtl)
  | disable (fd : Nat) (mask : Mask) (ctl : EpollCtl)
  | ready (fd : Nat) (side : Side)

namespace EpollTable

/-- `init_epoll`. -/
def start (T : Type) (maxfd : Nat) : EpollTable T where
  maxfd := maxfd
  epolls := fun _ => .zero
  crashed := false

variable (t : EpollTable T)

/-- One entry changes. -/
def set (fd : Nat) (e : Epoll T) : EpollTable T :=
  { t with epolls := Function.update t.epolls fd e }

/-- The step of the table; no call follows a NULL task. -/
def step : EpollEvent T → Option (EpollTable T)
  | .enable fd mask task ctl =>
      if t.crashed then none
      else if t.maxfd ≤ fd then some t
      else some (t.set fd ((t.epolls fd).enable mask task ctl).1)
  | .disable fd mask ctl =>
      if t.crashed then none
      else if t.maxfd ≤ fd then some t
      else some (t.set fd ((t.epolls fd).disable mask ctl).1)
  | .ready fd side =>
      if t.crashed then none
      else if (t.epolls fd).wide.has side then
        match (t.epolls fd).taskOf side with
        | none => some { t with crashed := true }
        | some _ => some t
      else some t

/-- No set bit is without a task. -/
def Pointed : Prop := ∀ fd, (t.epolls fd).Pointed

/-- In every `spe_epoll_disable` that takes a set bit away `epoll_ctl` succeeds. -/
def Takes (ev : EpollEvent T) : Prop :=
  ∀ fd mask ctl, ev = .disable fd mask ctl → fd < t.maxfd → (t.epolls fd).Takes mask →
    ctl ((t.epolls fd).op ((t.epolls fd).without mask))
      (Epoll.interest ((t.epolls fd).without mask)) = true

/-- One entry of a pointed table changes. -/
theorem Pointed.set_iff {t : EpollTable T} (h : t.Pointed) (fd : Nat) (e : Epoll T) :
    (t.set fd e).Pointed ↔ e.Pointed := by
  constructor
  · intro hall
    have hself := hall fd
    simpa only [set, Function.update_self] using hself
  · intro he fd'
    by_cases hfd : fd' = fd
    · subst hfd
      simpa only [set, Function.update_self] using he
    · simpa only [set, Function.update_of_ne hfd] using h fd'

/-- **Step lemma.**  A pointed table stays pointed exactly under the condition. -/
theorem Pointed.step_iff {t t' : EpollTable T} (h : t.Pointed) {ev : EpollEvent T}
    (hstep : t.step ev = some t') : t'.Pointed ↔ t.Takes ev := by
  cases ev with
  | enable fd mask task ctl =>
      have htakes : t.Takes (.enable fd mask task ctl) := by
        intro _ _ _ hev
        cases hev
      refine iff_of_true ?_ htakes
      obtain ⟨_, hstep⟩ := Option.ite_none_left_eq_some.mp hstep
      split at hstep
      · obtain rfl := Option.some.inj hstep
        exact h
      · obtain rfl := Option.some.inj hstep
        exact (h.set_iff fd _).mpr ((h fd).enable mask task ctl)
  | disable fd mask ctl =>
      obtain ⟨_, hstep⟩ := Option.ite_none_left_eq_some.mp hstep
      split at hstep
      · rename_i hbound
        obtain rfl := Option.some.inj hstep
        refine iff_of_true h ?_
        intro _ _ _ hev hlt
        cases hev
        exact absurd hlt (Nat.not_lt.mpr hbound)
      · rename_i hbound
        obtain rfl := Option.some.inj hstep
        rw [h.set_iff, (h fd).disable_iff]
        constructor
        · intro hgood _ _ _ hev _ htakes
          cases hev
          exact hgood htakes
        · intro hgood htakes
          exact hgood fd mask ctl rfl (Nat.lt_of_not_le hbound) htakes
  | ready fd side =>
      have htakes : t.Takes (.ready fd side) := by
        intro _ _ _ hev
        cases hev
      refine iff_of_true ?_ htakes
      obtain ⟨_, hstep⟩ := Option.ite_none_left_eq_some.mp hstep
      split at hstep
      · split at hstep
        · obtain rfl := Option.some.inj hstep
          exact h
        · obtain rfl := Option.some.inj hstep
          exact h
      · obtain rfl := Option.some.inj hstep
        exact h

/-- Dispatching in a pointed table follows no NULL task. -/
theorem Pointed.safe {t t' : EpollTable T} (h : t.Pointed) {ev : EpollEvent T}
    (hstep : t.step ev = some t') : t'.crashed = false := by
  have hlive : t.crashed ≠ true := by
    cases ev with
    | enable fd mask task ctl => exact (Option.ite_none_left_eq_some.mp hstep).1
    | disable fd mask ctl => exact (Option.ite_none_left_eq_some.mp hstep).1
    | ready fd side => exact (Option.ite_none_left_eq_some.mp hstep).1
  have hlive := Bool.eq_false_iff.mpr hlive
  cases ev with
  | enable fd mask task ctl =>
      obtain ⟨_, hstep⟩ := Option.ite_none_left_eq_some.mp hstep
      split at hstep <;> exact Option.some.inj hstep ▸ hlive
  | disable fd mask ctl =>
      obtain ⟨_, hstep⟩ := Option.ite_none_left_eq_some.mp hstep
      split at hstep <;> exact Option.some.inj hstep ▸ hlive
  | ready fd side =>
      obtain ⟨_, hstep⟩ := Option.ite_none_left_eq_some.mp hstep
      split at hstep
      · rename_i hside
        split at hstep
        · rename_i hnone
          have hpointer := h fd side hside
          rw [hnone] at hpointer
          cases hpointer
        · exact Option.some.inj hstep ▸ hlive
      · exact Option.some.inj hstep ▸ hlive

/-- Nothing is enabled at the start. -/
theorem pointed_start (maxfd : Nat) : (start T maxfd).Pointed := by
  intro fd side hside
  cases (Epoll.zero_has side).symm.trans hside

end EpollTable

/-- **Dispatch never follows a missing task** in the runs in which `epoll_ctl` succeeds
whenever `spe_epoll_disable` takes a set bit away; and these are exactly the runs in all
states of which every set bit has its task. -/
theorem dispatch_pointed {maxfd : Nat} {t : EpollTable T} {es : List (EpollEvent T)}
    (h : Run EpollTable.step anyStep (EpollTable.start T maxfd) es t) :
    ((∀ fs gs m, es = fs ++ gs →
        Run EpollTable.step anyStep (EpollTable.start T maxfd) fs m → m.Pointed) ↔
      Run EpollTable.step EpollTable.Takes (EpollTable.start T maxfd) es t) ∧
    (Run EpollTable.step EpollTable.Takes (EpollTable.start T maxfd) es t →
      t.crashed = false) := by
  constructor
  · exact h.exact (fun _ => True) EpollTable.Pointed trivial (EpollTable.pointed_start maxfd)
      (fun _ _ _ _ _ _ => trivial) (fun _ _ _ _ hpointed hstep => hpointed.step_iff hstep)
  · intro hrun
    refine (hrun.invariant (fun t => t.Pointed ∧ t.crashed = false)
      ⟨EpollTable.pointed_start maxfd, rfl⟩ ?_).2
    intro t ev t' hboth hok hstep
    exact ⟨(hboth.1.step_iff hstep).mpr hok, hboth.1.safe hstep⟩

/-- Reading is enabled and disabled. -/
def toggle (ctl : EpollCtl) : List (EpollEvent Nat) :=
  [.enable 5 SPE_EPOLL_READ 0 ctlGood, .disable 5 SPE_EPOLL_READ ctl, .ready 5 .read]

/-- With `epoll_ctl` succeeding the late event schedules nothing. -/
theorem dispatch_pointed_toggle : ∃ t,
    Run EpollTable.step anyStep (EpollTable.start Nat 8) (toggle ctlGood) t ∧
    t.crashed = false ∧
    ∀ fs gs m, toggle ctlGood = fs ++ gs →
      Run EpollTable.step anyStep (EpollTable.start Nat 8) fs m → m.Pointed := by
  have hsome : (exec EpollTable.step (EpollTable.start Nat 8) (toggle ctlGood)).isSome := by
    decide
  obtain ⟨t, hexec⟩ := Option.isSome_iff_exists.mp hsome
  have htakes : Run EpollTable.step EpollTable.Takes (EpollTable.start Nat 8) (toggle ctlGood) t := by
    refine run_of_exec ?_ hexec
    intro ev hev t fd mask ctl heq _ _
    subst heq
    simp [toggle] at hev
    rw [hev.2.2]
    exact ctlGood_succeeds _ _
  have hrun := run_iff_exec.mpr hexec
  obtain ⟨hiff, hsafe⟩ := dispatch_pointed hrun
  exact ⟨t, hrun, hsafe htakes, hiff.mpr htakes⟩

/-- **A failing disable leaves a bit without its task.**  The next event of the descriptor
calls `spe_task_schedule` with NULL. -/
theorem dispatch_pointed_fails : ∃ t,
    Run EpollTable.step anyStep (EpollTable.start Nat 8)
      [.enable 5 SPE_EPOLL_READ 0 ctlGood, .disable 5 SPE_EPOLL_READ (fun _ _ => false)] t ∧
    (t.epolls 5).wide.has .read = true ∧ (t.epolls 5).readTask = none ∧
    ∃ t', t.step (.ready 5 .read) = some t' ∧ t'.crashed = true := by
  have hlast : (exec EpollTable.step (EpollTable.start Nat 8)
      [.enable 5 SPE_EPOLL_READ 0 ctlGood, .disable 5 SPE_EPOLL_READ (fun _ _ => false)]).map
      (fun t => ((t.epolls 5).wide.has .read, (t.epolls 5).readTask,
        (t.step (.ready 5 .read)).map EpollTable.crashed)) =
      some (true, none, some true) := by decide
  obtain ⟨t, hexec, hfields⟩ := Option.map_eq_some_iff.mp hlast
  obtain ⟨hbit, hrest⟩ := Prod.mk.inj hfields
  obtain ⟨hpointer, hcrash⟩ := Prod.mk.inj hrest
  obtain ⟨t', hstep, hcrashed⟩ := Option.map_eq_some_iff.mp hcrash
  exact ⟨t, run_iff_exec.mpr hexec, hbit, hpointer, t', hstep, hcrashed⟩

end Spe
