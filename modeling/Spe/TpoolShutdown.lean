import Mathlib.Algebra.Group.Nat.Defs
import Mathlib.Data.List.Nodup
import Spe.Tpool

/-!
# Shutting the thread pool down (`SpeTpoolDeinit`)

`threadRun` counts the threads that have been started and are not past their
`__sync_sub_and_fetch` (`Accounted`).  The loop that is to wait for them runs while
`sleep_cnt` is above ten, and `sleep_cnt` starts at zero: `threadRun` is never polled
(`never_polled`), and the pool is freed whatever the threads do.

A thread of the pool frees its record when it ends, as a thread that a call has allocated
does; but its record is an element of the pool.

The pool is released in time, and only what has been allocated is freed, if and only if all
threads are past their decrement when it is freed, and no thread of the pool ends
(`shutdown_exact`).
-/

namespace Spe

open Transition

/-- The thread is past its `__sync_sub_and_fetch`. -/
def ThreadPc.past : ThreadPc → Bool
  | .destroy | .free | .ended => true
  | _ => false

namespace Tpool

variable {C H : Type}

/-- The threads that have been counted and are not past their decrement. -/
def alive (s : Tpool C) : Nat := s.counted.countP (fun t => !(s.threads t).pc.past)

/-- The shutdown is right: the pool is released when `threadRun` is zero, or after more than
ten polls that have found it non-zero, and all blocks freed have been allocated. -/
structure ShutDown (s : Tpool C) : Prop where
  inTime : ∀ run, s.released = some run →
    run = 0 ∨ 10 < s.polls.length ∧ ∀ p ∈ s.polls, p ≠ 0
  frees : ∀ b ∈ s.freed, b ∈ s.allocated

/-- The pool is released when no thread is on this side of its decrement, as 32 bits count
them, and no thread of the pool frees its record. -/
def Orderly (s : Tpool C) : TpoolEvent C → Prop
  | .deinit => s.deinit = .free → s.alive % 2 ^ 32 = 0
  | .run (.thread (.pool i)) => (s.threads (.pool i)).pc ≠ .free
  | .run _ => True

/-- What the pool counts and allocates. -/
structure Accounted (s : Tpool C) : Prop where
  run : s.threadRun = UInt32.ofNat s.alive
  nodup : s.counted.Nodup
  born : ∀ t, (s.threads t).pc ≠ .unborn → t ∈ s.counted
  own : ∀ c, .once c ∈ s.counted ↔ s.calls c = .create ∨ s.calls c = .spawned
  unborn : ∀ c, (s.threads (.once c)).pc ≠ .unborn → s.calls c = .spawned
  records : ∀ c, s.calls c = .init ∨ s.calls c = .create ∨ s.calls c = .spawned →
    .record (.once c) ∈ s.allocated
  pool : .pool ∈ s.allocated
  interior : ∀ i, .record (.pool i) ∉ s.allocated
  unpolled : s.polls = [] ∧ ∀ k, s.deinit = .poll k → k = 0

variable {s s' : Tpool C}

/-- Nothing that is counted has changed. -/
theorem alive_congr (hcounted : s'.counted = s.counted)
    (hpast : ∀ t, (s'.threads t).pc.past = (s.threads t).pc.past) : s'.alive = s.alive := by
  unfold alive
  rw [hcounted]
  apply List.countP_congr
  intro t _
  rw [hpast]

variable [DecidableEq C]

/-- A thread that is counted passes its decrement. -/
theorem alive_quit (hnodup : s.counted.Nodup) {t : ThreadId C} (ht : t ∈ s.counted)
    (hbefore : (s.threads t).pc.past = false) {pc : ThreadPc} (hafter : pc.past = true) :
    (s.setPc t pc).alive + 1 = s.alive := by
  have hperm : s.counted.Perm (t :: s.counted.erase t) := List.perm_cons_erase ht
  have hothers : (s.counted.erase t).countP
        (fun x => !((s.setPc t pc).threads x).pc.past) =
      (s.counted.erase t).countP (fun x => !(s.threads x).pc.past) := by
    apply List.countP_congr
    intro x hx
    have hne : x ≠ t := (hnodup.mem_erase_iff.mp hx).1
    simp [hne]
  have hnew : (s.setPc t pc).alive =
      (t :: s.counted.erase t).countP (fun x => !((s.setPc t pc).threads x).pc.past) :=
    hperm.countP_eq _
  have hold : s.alive = (t :: s.counted.erase t).countP (fun x => !(s.threads x).pc.past) :=
    hperm.countP_eq _
  rw [hnew, hold, List.countP_cons, List.countP_cons, hothers]
  simp [hbefore, hafter]

/-- The pool that `SpeTpoolInit` leaves. -/
theorem accounted_start (n : Nat) : (start C n).Accounted := by
  rw [start_eq]
  constructor
  · have hall : ∀ t : ThreadId C, (if t ∈ (List.range n).map .pool then ThreadPc.wait
        else ThreadPc.unborn).past = false := by
      intro t
      split <;> rfl
    simp only [alive, hall]
    simp
  · exact List.nodup_range.map (fun _ _ h => ThreadId.pool.inj h)
  · intro t ht
    by_contra hout
    simp [hout] at ht
  · intro c
    simp [zeroed]
  · intro c hc
    simp at hc
  · intro c hc
    simp [zeroed] at hc
  · simp [zeroed]
  · simp [zeroed]
  · simp [zeroed]

omit [DecidableEq C] in
/-- A step of a thread or of `SpeTpoolDeinit`. -/
theorem Accounted.change (h : s.Accounted) (hrun : s'.threadRun = UInt32.ofNat s'.alive)
    (hcounted : s'.counted = s.counted)
    (hborn : ∀ t, (s'.threads t).pc ≠ .unborn → (s.threads t).pc ≠ .unborn)
    (hcalls : s'.calls = s.calls) (hallocated : s'.allocated = s.allocated)
    (hpolls : s'.polls = s.polls) (hdeinit : ∀ k, s'.deinit = .poll k → k = 0) :
    s'.Accounted where
  run := hrun
  nodup := hcounted ▸ h.nodup
  born t ht := hcounted ▸ h.born t (hborn t ht)
  own c := by
    rw [hcalls, hcounted]
    exact h.own c
  unborn c hc := by
    rw [hcalls]
    exact h.unborn c (hborn _ hc)
  records c hc := by
    rw [hcalls] at hc
    rw [hallocated]
    exact h.records c hc
  pool := hallocated ▸ h.pool
  interior i := hallocated ▸ h.interior i
  unpolled := ⟨hpolls.trans h.unpolled.1, hdeinit⟩

/-- A thread goes on, on the same side of its decrement. -/
theorem Accounted.threadStep (h : s.Accounted) {t : ThreadId C} {th : Thread C}
    (hthreads : s'.threads = Function.update s.threads t th)
    (hborn : (s.threads t).pc ≠ .unborn) (hpast : th.pc.past = (s.threads t).pc.past)
    (hrun : s'.threadRun = s.threadRun) (hcounted : s'.counted = s.counted)
    (hcalls : s'.calls = s.calls) (hallocated : s'.allocated = s.allocated)
    (hpolls : s'.polls = s.polls) (hdeinit : s'.deinit = s.deinit) : s'.Accounted := by
  refine h.change ?_ hcounted ?_ hcalls hallocated hpolls (hdeinit ▸ h.unpolled.2)
  · rw [hrun, h.run]
    congr 1
    apply (alive_congr hcounted _).symm
    intro x
    by_cases hx : x = t
    · subst hx
      simp [hthreads, hpast]
    · simp [hthreads, hx]
  · intro x hxborn
    by_cases hx : x = t
    · exact hx ▸ hborn
    · simpa [hthreads, hx] using hxborn

/-- A step of a call that has no thread of its own yet. -/
theorem Accounted.callStep (h : s.Accounted) {c : C} {pc : CallPc}
    (hbefore : s.calls c ≠ .create ∧ s.calls c ≠ .spawned)
    (hafter : pc ≠ .create ∧ pc ≠ .spawned) (hcalls : s'.calls = Function.update s.calls c pc)
    (hpcs : ∀ t, (s'.threads t).pc = (s.threads t).pc) (hrun : s'.threadRun = s.threadRun)
    (hcounted : s'.counted = s.counted) (hmore : s.allocated ⊆ s'.allocated)
    (hrecord : pc = .init → .record (.once c) ∈ s'.allocated)
    (hinterior : ∀ i, .record (.pool i) ∉ s'.allocated) (hpolls : s'.polls = s.polls)
    (hdeinit : s'.deinit = s.deinit) : s'.Accounted where
  run := by
    rw [hrun, h.run, alive_congr hcounted (fun t => by rw [hpcs])]
  nodup := hcounted ▸ h.nodup
  born t ht := hcounted ▸ h.born t (hpcs t ▸ ht)
  own d := by
    rw [hcounted, h.own d, hcalls]
    by_cases hdc : d = c
    · subst hdc
      simp [hbefore, hafter]
    · simp [hdc]
  unborn d hd := by
    have hspawned := h.unborn d (hpcs _ ▸ hd)
    by_cases hdc : d = c
    · exact absurd (hdc ▸ hspawned) hbefore.2
    · simpa [hcalls, hdc] using hspawned
  records d hd := by
    by_cases hdc : d = c
    · subst hdc
      rw [hcalls, Function.update_self] at hd
      rcases hd with hd | hd | hd
      · exact hrecord hd
      · exact absurd hd hafter.1
      · exact absurd hd hafter.2
    · rw [hcalls, Function.update_of_ne hdc] at hd
      exact hmore (h.records d hd)
  pool := hmore h.pool
  interior := hinterior
  unpolled := ⟨hpolls.trans h.unpolled.1, hdeinit ▸ h.unpolled.2⟩

/-- A call counts the thread that it has allocated. -/
theorem Accounted.init (h : s.Accounted) {c : C} (hpc : s.calls c = .init) :
    ((s.threadInit (.once c) (some c)).setCall c .create).Accounted := by
  have hout : ThreadId.once c ∉ s.counted := by
    rw [h.own c]
    simp [hpc]
  have hpcs : ∀ t, ((s.threadInit (.once c) (some c)).threads t).pc = (s.threads t).pc := by
    intro t
    by_cases ht : t = .once c
    · subst ht
      simp
    · simp [ht]
  have hunborn : (s.threads (.once c)).pc = .unborn := by
    by_contra hborn
    cases hpc.symm.trans (h.unborn c hborn)
  have halive : ((s.threadInit (.once c) (some c)).setCall c .create).alive = s.alive + 1 := by
    have hcount : ((s.threadInit (.once c) (some c)).setCall c .create).alive =
        (s.counted ++ [ThreadId.once c]).countP
          (fun t => !((s.threadInit (.once c) (some c)).threads t).pc.past) := rfl
    simp only [hcount, hpcs, List.countP_append, List.countP_singleton, hunborn]
    rfl
  constructor
  · change s.threadRun + 1 = _
    rw [halive, h.run]
    simp
  · exact h.nodup.append (List.nodup_singleton _) (by simpa using hout)
  · intro t ht
    exact List.mem_append_left _ (h.born t (hpcs t ▸ ht))
  · intro d
    by_cases hdc : d = c
    · simp [hdc]
    · simpa [hdc] using h.own d
  · intro d hd
    have hspawned := h.unborn d (hpcs (.once d) ▸ hd)
    by_cases hdc : d = c
    · subst hdc
      cases hpc.symm.trans hspawned
    · simpa [hdc] using hspawned
  · intro d hd
    by_cases hdc : d = c
    · exact hdc ▸ h.records c (Or.inl hpc)
    · exact h.records d (by simpa [hdc] using hd)
  · exact h.pool
  · exact h.interior
  · exact h.unpolled

/-- A call is through with the thread that it has counted. -/
theorem Accounted.spawned (h : s.Accounted) {c : C} (hpc : s.calls c = .create) :
    (s.setCall c .spawned).Accounted := by
  refine ⟨h.run, h.nodup, h.born, ?_, ?_, ?_, h.pool, h.interior, h.unpolled⟩
  · intro d
    have hown := h.own d
    by_cases hdc : d = c
    · subst hdc
      simpa [hpc] using hown
    · simpa [hdc] using hown
  · intro d hd
    have hspawned := h.unborn d hd
    by_cases hdc : d = c
    · simp [hdc]
    · simpa [hdc] using hspawned
  · intro d hd
    by_cases hdc : d = c
    · exact hdc ▸ h.records c (Or.inr (Or.inl hpc))
    · exact h.records d (by simpa [hdc] using hd)

/-- The thread that a call has counted begins. -/
theorem Accounted.begins (h : s.Accounted) {c : C} (hspawned : s.calls c = .spawned)
    (hunborn : (s.threads (.once c)).pc = .unborn) : (s.setPc (.once c) .call).Accounted := by
  have hpast : ∀ t, ((s.setPc (.once c) .call).threads t).pc.past = (s.threads t).pc.past := by
    intro t
    by_cases ht : t = .once c
    · subst ht
      simp [hunborn, ThreadPc.past]
    · simp [ht]
  have halive : (s.setPc (.once c) .call).alive = s.alive := alive_congr rfl hpast
  refine ⟨?_, h.nodup, ?_, h.own, ?_, h.records, h.pool, h.interior, h.unpolled⟩
  · rw [halive]
    exact h.run
  · intro t ht
    by_cases htc : t = .once c
    · exact htc ▸ (h.own c).mpr (Or.inr hspawned)
    · exact h.born t (by simpa [htc] using ht)
  · intro d hd
    by_cases hdc : d = c
    · exact hdc ▸ hspawned
    · exact h.unborn d (by simpa [hdc] using hd)

/-- A call starts the thread that it has allocated. -/
theorem Accounted.create (h : s.Accounted) {c : C} {ok : Bool} (hpc : s.calls c = .create) :
    ((if ok then s.setPc (.once c) .call else s).setCall c .spawned).Accounted := by
  have hunborn : (s.threads (.once c)).pc = .unborn := by
    by_contra hborn
    cases hpc.symm.trans (h.unborn c hborn)
  have hspawned := h.spawned hpc
  cases ok with
  | false => exact hspawned
  | true => exact hspawned.begins (by simp) hunborn

/-- A thread passes its decrement. -/
theorem Accounted.quit (h : s.Accounted) {t : ThreadId C} (hpc : (s.threads t).pc = .quit) :
    Accounted { s.setPc t .destroy with threadRun := s.threadRun - 1 } := by
  have halive : (s.setPc t .destroy).alive + 1 = s.alive :=
    alive_quit h.nodup (h.born t (by simp [hpc])) (by simp [hpc, ThreadPc.past]) rfl
  refine h.change ?_ rfl ?_ rfl rfl rfl h.unpolled.2
  · change s.threadRun - 1 = UInt32.ofNat (s.setPc t .destroy).alive
    rw [h.run, ← halive]
    simp
  · intro x hx
    by_cases hxt : x = t
    · subst hxt
      simp [hpc]
    · simpa [hxt] using hx

/-- A step of a call or of a thread. -/
theorem Accounted.poolStep (h : s.Accounted) {arg : C → Option H} {ev : PoolEvent C}
    (hstep : s.poolStep arg ev = some s') : s'.Accounted := by
  cases poolStep_effect hstep with
  | move hpc hnext =>
      refine h.callStep ?_ ?_ rfl (fun _ => rfl) rfl rfl (fun _ hb => hb) ?_ h.interior rfl rfl
      · rcases hpc with hpc | hpc | hpc <;> simp [hpc]
      · rcases hnext with rfl | rfl | rfl | rfl <;> simp
      · rcases hnext with rfl | rfl | rfl | rfl <;> simp
  | take hpc =>
      exact h.callStep (by simp [hpc]) (by simp) rfl (fun _ => rfl) rfl rfl (fun _ hb => hb)
        (by simp) h.interior rfl rfl
  | takeHead hpc =>
      exact h.callStep (by simp [hpc]) (by simp) rfl (fun _ => rfl) rfl rfl (fun _ hb => hb)
        (by simp) h.interior rfl rfl
  | @setHandler c ok i hpc =>
      refine h.callStep (by simp [hpc]) (by simp) rfl ?_ rfl rfl (fun _ hb => hb) (by simp)
        h.interior rfl rfl
      intro t
      by_cases ht : t = .pool i
      · simp [ht]
      · simp [ht]
  | alloc hpc =>
      refine h.callStep (by simp [hpc]) (by simp) rfl (fun _ => rfl) rfl rfl ?_ (by simp) ?_ rfl rfl
      · exact fun _ hb => List.mem_append_left _ hb
      · simpa using h.interior
  | init hpc => exact h.init hpc
  | create hpc => exact h.create hpc
  | wake hpc =>
      exact h.threadStep rfl (by simp [hpc]) (by rw [hpc]; rfl) rfl rfl rfl rfl rfl rfl
  | testStop hpc =>
      refine h.threadStep rfl (by simp [hpc]) ?_ rfl rfl rfl rfl rfl rfl
      rw [hpc]
      dsimp only
      split <;> rfl
  | handlerCall hpc =>
      exact h.threadStep rfl (by simp [hpc]) (by rw [hpc]; rfl) rfl rfl rfl rfl rfl rfl
  | handlerRet hpc =>
      exact h.threadStep rfl (by simp [hpc]) (by rw [hpc]; rfl) rfl rfl rfl rfl rfl rfl
  | onceRet hpc =>
      exact h.threadStep rfl (by simp [hpc]) (by rw [hpc]; rfl) rfl rfl rfl rfl rfl rfl
  | clear hpc =>
      exact h.threadStep rfl (by simp [hpc]) (by rw [hpc]; rfl) rfl rfl rfl rfl rfl rfl
  | giveBack hpc =>
      exact h.threadStep rfl (by simp [hpc]) (by rw [hpc]; rfl) rfl rfl rfl rfl rfl rfl
  | quit hpc => exact h.quit hpc
  | destroy hpc =>
      exact h.threadStep rfl (by simp [hpc]) (by rw [hpc]; rfl) rfl rfl rfl rfl rfl rfl
  | free hpc =>
      exact h.threadStep rfl (by simp [hpc]) (by rw [hpc]; rfl) rfl rfl rfl rfl rfl rfl

/-- A step of `SpeTpoolDeinit`. -/
theorem Accounted.deinitStep (h : s.Accounted) (hstep : s.speTpoolDeinit = some s') :
    s'.Accounted := by
  unfold speTpoolDeinit at hstep
  cases hpc : s.deinit with
  | idle =>
      simp only [hpc] at hstep
      obtain rfl := Option.some.inj hstep
      refine h.change h.run rfl (fun _ ht => ht) rfl rfl rfl ?_
      intro k hk
      dsimp only at hk
      split at hk <;> cases hk
  | stop i =>
      simp only [hpc] at hstep
      split at hstep
      · obtain rfl := Option.some.inj hstep
        have hpcs : ∀ t, ((s.setThread (.pool i) { s.threads (.pool i) with stop := true }).threads
            t).pc = (s.threads t).pc := by
          intro t
          by_cases ht : t = .pool i
          · simp [ht]
          · simp [ht]
        refine h.change ?_ rfl (fun t ht => hpcs t ▸ ht) rfl rfl rfl (fun _ hk => by cases hk)
        refine h.run.trans (congrArg UInt32.ofNat (Eq.symm ?_))
        refine alive_congr rfl ?_
        intro t
        exact congrArg ThreadPc.past (hpcs t)
      · obtain rfl := Option.some.inj hstep
        refine h.change h.run rfl (fun _ ht => ht) rfl rfl rfl ?_
        intro k hk
        exact (DeinitPc.poll.inj hk).symm
  | poll k =>
      obtain rfl := h.unpolled.2 k hpc
      simp only [hpc] at hstep
      obtain rfl := Option.some.inj hstep
      exact h.change h.run rfl (fun _ ht => ht) rfl rfl rfl (fun _ hk => by cases hk)
  | free =>
      simp only [hpc] at hstep
      obtain rfl := Option.some.inj hstep
      exact h.change h.run rfl (fun _ ht => ht) rfl rfl rfl (fun _ hk => by cases hk)
  | reset =>
      simp only [hpc] at hstep
      obtain rfl := Option.some.inj hstep
      exact h.change h.run rfl (fun _ ht => ht) rfl rfl rfl (fun _ hk => by cases hk)
  | done => simp [hpc] at hstep

/-- **Step lemma.**  The pool keeps its accounts in every step. -/
theorem Accounted.step (h : s.Accounted) {arg : C → Option H} {ev : TpoolEvent C}
    (hstep : s.step arg ev = some s') : s'.Accounted := by
  cases ev with
  | run ev => exact h.poolStep hstep
  | deinit => exact h.deinitStep hstep

/-- In every run the pool keeps its accounts. -/
theorem accounted_run {arg : C → Option H} {ok : Tpool C → TpoolEvent C → Prop} {n : Nat}
    {es : List (TpoolEvent C)} (h : Run (step arg) ok (start C n) es s) : s.Accounted :=
  h.invariant Accounted (accounted_start n) (fun _ _ _ hinv _ hstep => hinv.step hstep)

/-- `SpeTpoolDeinit` does not poll `threadRun` once. -/
theorem never_polled {arg : C → Option H} {ok : Tpool C → TpoolEvent C → Prop} {n : Nat}
    {es : List (TpoolEvent C)} (h : Run (step arg) ok (start C n) es s) : s.polls = [] :=
  (accounted_run h).unpolled.1

/-- A step of a call or of a thread releases no pool and polls nothing; a thread that ends
frees its record. -/
theorem poolStep_frees {arg : C → Option H} {ev : PoolEvent C}
    (hstep : s.poolStep arg ev = some s') :
    s'.released = s.released ∧ s'.polls = s.polls ∧ s.allocated ⊆ s'.allocated ∧
    ((∃ t, ev = .thread t ∧ (s.threads t).pc = .free ∧ s'.freed = s.freed ++ [.record t]) ∨
      (∀ t, ev = .thread t → (s.threads t).pc ≠ .free) ∧ s'.freed = s.freed) := by
  have hsame : ∀ b, b ∈ s.allocated → b ∈ s.allocated := fun _ hb => hb
  cases poolStep_effect hstep with
  | @free t hpc => exact ⟨rfl, rfl, hsame, Or.inl ⟨t, rfl, hpc, rfl⟩⟩
  | alloc => exact ⟨rfl, rfl, List.subset_append_left _ _, Or.inr ⟨by simp, rfl⟩⟩
  | @create c ok =>
      cases ok <;> exact ⟨rfl, rfl, hsame, Or.inr ⟨by simp, rfl⟩⟩
  | move => exact ⟨rfl, rfl, hsame, Or.inr ⟨by simp, rfl⟩⟩
  | take => exact ⟨rfl, rfl, hsame, Or.inr ⟨by simp, rfl⟩⟩
  | takeHead => exact ⟨rfl, rfl, hsame, Or.inr ⟨by simp, rfl⟩⟩
  | setHandler => exact ⟨rfl, rfl, hsame, Or.inr ⟨by simp, rfl⟩⟩
  | init => exact ⟨rfl, rfl, hsame, Or.inr ⟨by simp, rfl⟩⟩
  | wake hpc => exact ⟨rfl, rfl, hsame, Or.inr ⟨by simp [hpc], rfl⟩⟩
  | testStop hpc => exact ⟨rfl, rfl, hsame, Or.inr ⟨by simp [hpc], rfl⟩⟩
  | handlerCall hpc => exact ⟨rfl, rfl, hsame, Or.inr ⟨by simp [hpc], rfl⟩⟩
  | handlerRet hpc => exact ⟨rfl, rfl, hsame, Or.inr ⟨by simp [hpc], rfl⟩⟩
  | onceRet hpc => exact ⟨rfl, rfl, hsame, Or.inr ⟨by simp [hpc], rfl⟩⟩
  | clear hpc => exact ⟨rfl, rfl, hsame, Or.inr ⟨by simp [hpc], rfl⟩⟩
  | giveBack hpc => exact ⟨rfl, rfl, hsame, Or.inr ⟨by simp [hpc], rfl⟩⟩
  | quit hpc => exact ⟨rfl, rfl, hsame, Or.inr ⟨by simp [hpc], rfl⟩⟩
  | destroy hpc => exact ⟨rfl, rfl, hsame, Or.inr ⟨by simp [hpc], rfl⟩⟩

/-- A step of `SpeTpoolDeinit` releases the pool, or frees nothing. -/
theorem deinitStep_frees (h : s.Accounted) (hstep : s.speTpoolDeinit = some s') :
    s'.polls = s.polls ∧ s'.allocated = s.allocated ∧
    ((s.deinit = .free ∧ s'.released = some s.threadRun ∧ s'.freed = s.freed ++ [.pool]) ∨
      (s.deinit ≠ .free ∧ s'.released = s.released ∧ s'.freed = s.freed)) := by
  unfold speTpoolDeinit at hstep
  cases hpc : s.deinit with
  | stop i =>
      simp only [hpc] at hstep
      split at hstep <;> obtain rfl := Option.some.inj hstep <;>
        exact ⟨rfl, rfl, Or.inr ⟨by simp, rfl, rfl⟩⟩
  | poll k =>
      obtain rfl := h.unpolled.2 k hpc
      simp only [hpc] at hstep
      obtain rfl := Option.some.inj hstep
      exact ⟨rfl, rfl, Or.inr ⟨by simp, rfl, rfl⟩⟩
  | free =>
      simp only [hpc] at hstep
      obtain rfl := Option.some.inj hstep
      exact ⟨rfl, rfl, Or.inl ⟨rfl, rfl, rfl⟩⟩
  | done => simp [hpc] at hstep
  | _ =>
      simp only [hpc] at hstep
      obtain rfl := Option.some.inj hstep
      exact ⟨rfl, rfl, Or.inr ⟨by simp, rfl, rfl⟩⟩

/-- A step of a call or of a thread, as long as the shutdown is right. -/
theorem shutDown_pool_iff {arg : C → Option H} {ev : PoolEvent C} (h : s.Accounted)
    (hgood : s.ShutDown) (hstep : s.poolStep arg ev = some s') :
    s'.ShutDown ↔ s.Orderly (.run ev) := by
  obtain ⟨hreleased, hpolls, hmore, hends⟩ := poolStep_frees hstep
  have hinTime : ∀ run, s'.released = some run →
      run = 0 ∨ 10 < s'.polls.length ∧ ∀ p ∈ s'.polls, p ≠ 0 := by
    rw [hreleased, hpolls]
    exact hgood.inTime
  rcases hends with ⟨t, rfl, hpc, hfreed⟩ | ⟨hnot, hfreed⟩
  · cases t with
    | pool i =>
        refine iff_of_false ?_ (fun horderly => horderly hpc)
        intro hnext
        exact (h.poolStep hstep).interior i (hnext.frees _ (by simp [hfreed]))
    | once c =>
        refine iff_of_true ⟨hinTime, ?_⟩ trivial
        intro b hb
        rcases List.mem_append.mp (hfreed ▸ hb) with hb | hb
        · exact hmore (hgood.frees b hb)
        · rw [List.mem_singleton.mp hb]
          exact hmore (h.records c (Or.inr (Or.inr (h.unborn c (by simp [hpc])))))
  · refine iff_of_true ⟨hinTime, ?_⟩ ?_
    · rw [hfreed]
      exact fun b hb => hmore (hgood.frees b hb)
    · cases ev with
      | call c ok => trivial
      | thread t =>
          cases t with
          | pool i => exact hnot _ rfl
          | once c => trivial

omit [DecidableEq C] in
/-- The count in `threadRun` is zero. -/
theorem Accounted.threadRun_eq_zero (h : s.Accounted) :
    s.threadRun = 0 ↔ s.alive % 2 ^ 32 = 0 := by
  rw [h.run, ← UInt32.toNat_inj]
  simp

/-- A step of `SpeTpoolDeinit`, as long as the shutdown is right. -/
theorem shutDown_deinit_iff (h : s.Accounted) (hgood : s.ShutDown)
    (hstep : s.speTpoolDeinit = some s') : s'.ShutDown ↔ s.Orderly .deinit := by
  obtain ⟨hpolls, hallocated, hends⟩ := deinitStep_frees h hstep
  have hnone : s'.polls = [] := hpolls.trans h.unpolled.1
  rcases hends with ⟨hpc, hreleased, hfreed⟩ | ⟨hpc, hreleased, hfreed⟩
  · constructor
    · intro hnext _
      rcases hnext.inTime _ hreleased with hzero | ⟨hmany, _⟩
      · exact h.threadRun_eq_zero.mp hzero
      · simp [hnone] at hmany
    · intro horderly
      refine ⟨?_, ?_⟩
      · intro run hrun
        obtain rfl := Option.some.inj (hreleased.symm.trans hrun)
        exact Or.inl (h.threadRun_eq_zero.mpr (horderly hpc))
      · intro b hb
        rw [hallocated]
        rcases List.mem_append.mp (hfreed ▸ hb) with hb | hb
        · exact hgood.frees b hb
        · rw [List.mem_singleton.mp hb]
          exact h.pool
  · refine iff_of_true ⟨?_, ?_⟩ (fun hfree => absurd hfree hpc)
    · rw [hreleased, hpolls]
      exact hgood.inTime
    · rw [hfreed, hallocated]
      exact hgood.frees

/-- **Shutdown.**  In a run of `SpeTpoolDeinit`, of any number of calls and of the threads of a
pool of any size, the shutdown is right in every state reached if and only if all threads
are past their decrement when the pool is freed, and no thread of the pool frees its
record. -/
theorem shutdown_exact {arg : C → Option H} {n : Nat} {es : List (TpoolEvent C)}
    (h : Run (step arg) anyStep (start C n) es s) :
    (∀ fs gs m, es = fs ++ gs → Run (step arg) anyStep (start C n) fs m → m.ShutDown) ↔
      Run (step arg) Orderly (start C n) es s := by
  refine h.exact Accounted ShutDown (accounted_start n) ?_ ?_ ?_
  · rw [start_eq]
    constructor <;> simp [zeroed]
  · exact fun _ _ _ hinv _ hstep => hinv.step hstep
  · intro s ev s' hinv hgood hstep
    cases ev with
    | run ev => exact shutDown_pool_iff hinv hgood hstep
    | deinit => exact shutDown_deinit_iff hinv hgood hstep

/-- No call passes a handler. -/
def noHandlers : Unit → Option Unit := fun _ => none

/-- `SpeTpoolDeinit` frees the pool while its one thread waits, and the thread ends. -/
def shutAtOnce : List (TpoolEvent Unit) :=
  List.replicate 5 .deinit ++ List.replicate 5 (.run (.thread (.pool 0)))

/-- The pool is freed without a poll while a thread runs, and the thread frees an element of
the pool. -/
theorem shutAtOnce_wrong :
    ∃ s, exec (step noHandlers) (start Unit 1) shutAtOnce = some s ∧ s.released = some 1 ∧
      s.polls = [] ∧ s.freed = [.pool, .record (.pool 0)] ∧ s.allocated = [.pool] ∧
      ¬ s.ShutDown := by
  refine ⟨_, rfl, rfl, rfl, rfl, rfl, ?_⟩
  intro h
  rcases h.inTime 1 rfl with hzero | ⟨hmany, _⟩
  · cases hzero
  · exact absurd hmany (by decide)

/-- The thread passes its decrement before the pool is freed. -/
def shutInTime : List (TpoolEvent Unit) :=
  List.replicate 2 .deinit ++ List.replicate 3 (.run (.thread (.pool 0))) ++
    List.replicate 3 .deinit

/-- A shutdown that is right so far. -/
theorem shutInTime_exact :
    ∃ s, exec (step noHandlers) (start Unit 1) shutInTime = some s ∧ s.released = some 0 ∧
      ((∀ fs gs m, shutInTime = fs ++ gs →
        Run (step noHandlers) anyStep (start Unit 1) fs m → m.ShutDown) ↔
      Run (step noHandlers) Orderly (start Unit 1) shutInTime s) :=
  ⟨_, rfl, rfl, shutdown_exact (run_iff_exec.mpr rfl)⟩

end Tpool

end Spe
