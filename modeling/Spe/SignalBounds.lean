import Spe.Signal
import Spe.Transition

/-!
# Indices into `signal_state` and `signal_queue`

`uses` is history: every index with which `signal_common_handler`, `spe_signal_register` and
`spe_signal_process` have used one of the two arrays of `MAX_SIGNAL` elements.  The loop of
`spe_signal_process` goes step by step here: the handlers that it calls may register signals
and call it again (`SignalFrame`).  A call whose handlers do neither is the one of
`Signals.process` (`process_run`).

Both guards compare with `>`, so that 256 passes.  It is the only number that does harm: what
is in the queue has passed the guard, and the queue is guarded with `<` (`bounds_exact`).
-/

namespace Spe

open Transition

/-- The use of an element of one of the arrays. -/
inductive ArrayUse
  | state (sig : Int)
  | queue (i : Nat)
  deriving DecidableEq

/-- The element is there. -/
def ArrayUse.InBounds : ArrayUse → Prop
  | .state sig => 0 ≤ sig ∧ sig < MAX_SIGNAL
  | .queue i => i < MAX_SIGNAL

/-- An active call of `spe_signal_process`: before the test of the loop, or in the handler of
the signal at an index. -/
inductive SignalFrame
  | loop (i : Nat)
  | handling (i : Nat) (sig : Int)
  deriving DecidableEq

/-- The memory of `spe_signal.c` with the active calls of `spe_signal_process`, innermost
first. -/
structure SignalTable (H : Type) where
  signals : Signals H
  frames : List SignalFrame
  uses : List ArrayUse

/-- What can happen: a call of `spe_signal_register`, a signal, a call of
`spe_signal_process`, a round of its loop, or the return of the handler that it has called. -/
inductive TableEvent (H : Type)
  | register (sig : Int) (handler : SigHandler H)
  | deliver (sig : Int)
  | process
  | round
  | ret

/-- The signal that is passed in. -/
def TableEvent.signal {H : Type} : TableEvent H → Option Int
  | .register sig _ => some sig
  | .deliver sig => some sig
  | _ => none

/-- What `spe_signal_register` uses: the counter and the handler. -/
def registerUses (sig : Int) : List ArrayUse :=
  if sig < 0 ∨ sig > MAX_SIGNAL then [] else [.state sig, .state sig]

/-- What `signal_common_handler` uses: the handler, the counter, the element behind the queue if
the signal is put there, and the counter. -/
def commonHandlerUses {H : Type} (s : Signals H) (sig : Int) : List ArrayUse :=
  if sig < 0 ∨ sig > MAX_SIGNAL then [] else
  if (s.signalState sig).handler.isNone then [.state sig] else
  [.state sig, .state sig] ++
    (if (s.signalState sig).cnt = 0 ∧ s.signalQueue.length < MAX_SIGNAL then
      [.queue s.signalQueue.length] else []) ++ [.state sig]

/-- The counter of a signal is set to 0. -/
def Signals.clearCnt {H : Type} (s : Signals H) (sig : Int) : Signals H :=
  { s with signalState := Function.update s.signalState sig { s.signalState sig with cnt := 0 } }

namespace SignalTable

variable {H : Type}

/-- At the start. -/
def start (H : Type) : SignalTable H := { signals := .signalInit, frames := [], uses := [] }

/-- Code that may call the functions is running. -/
def canCall (s : SignalTable H) : Bool :=
  match s.frames with
  | [] => true
  | .handling _ _ :: _ => true
  | .loop _ :: _ => false

/-- A round of the loop of `spe_signal_process`, up to the call of the handler; at the end of
the queue the call returns. -/
def round (s : SignalTable H) : Option (SignalTable H) :=
  match s.frames with
  | .loop i :: rest =>
      match s.signals.signalQueue[i]? with
      | some sig =>
          let s : SignalTable H := { s with uses := s.uses ++ [.queue i, .state sig] }
          let desc := s.signals.signalState sig
          if desc.cnt = 0 then some { s with frames := .loop (i + 1) :: rest } else
          if desc.handler.isSome then some { s with frames := .handling i sig :: rest } else
          some { s with signals := s.signals.clearCnt sig, frames := .loop (i + 1) :: rest }
      | none => some { s with signals := s.signals.clearQueue, frames := rest }
  | _ => none

/-- The handler returns, and the counter is set to 0. -/
def ret (s : SignalTable H) : Option (SignalTable H) :=
  match s.frames with
  | .handling i sig :: rest =>
      some { signals := s.signals.clearCnt sig
             frames := .loop (i + 1) :: rest
             uses := s.uses ++ [.state sig] }
  | _ => none

/-- The step of the table.  Signals are blocked in `spe_signal_process`. -/
def step (s : SignalTable H) : TableEvent H → Option (SignalTable H)
  | .register sig handler =>
      if s.canCall then
        some { s with
          signals := s.signals.register sig handler
          uses := s.uses ++ registerUses sig }
      else none
  | .deliver sig =>
      if s.frames.isEmpty then
        some { s with
          signals := s.signals.commonHandler sig
          uses := s.uses ++ commonHandlerUses s.signals sig }
      else none
  | .process =>
      if s.canCall then
        if s.signals.signalQueue.length = 0 then some s
        else some { s with frames := .loop 0 :: s.frames }
      else none
  | .round => s.round
  | .ret => s.ret

/-- The loop goes on from one state to another with nothing passed in: the handlers that it calls
call none of the functions. -/
def RunsAlone (s s' : SignalTable H) : Prop :=
  ∃ es, Run step (fun _ ev => ev.signal = none) s es s'

/-- A round on a signal is one of `Signals.processOne`. -/
theorem round_run (t : Signals H) {i : Nat} {sig : Int} (hsig : t.signalQueue[i]? = some sig)
    (rest : List SignalFrame) (uses : List ArrayUse) :
    ∃ uses', RunsAlone ⟨t, .loop i :: rest, uses⟩
      ⟨(t.processOne sig).2, .loop (i + 1) :: rest, uses'⟩ := by
  unfold Signals.processOne
  dsimp only
  by_cases hcnt : (t.signalState sig).cnt = 0
  · rw [if_pos hcnt]
    refine ⟨uses ++ [.queue i, .state sig], [.round], Run.single ?_ rfl⟩
    simp [step, SignalTable.round, hsig, hcnt]
  · rw [if_neg hcnt]
    cases hhandler : (t.signalState sig).handler with
    | none =>
        refine ⟨uses ++ [.queue i, .state sig], [.round], Run.single ?_ rfl⟩
        simp [step, SignalTable.round, hsig, hcnt, hhandler, Signals.clearCnt]
    | some f =>
        obtain ⟨called, hcalled⟩ : ∃ called : SignalTable H,
          called = ⟨t, .handling i sig :: rest, uses ++ [.queue i, .state sig]⟩ := ⟨_, rfl⟩
        have hcall : step ⟨t, .loop i :: rest, uses⟩ .round = some called := by
          simp [step, SignalTable.round, hsig, hcnt, hhandler, hcalled]
        refine ⟨uses ++ [.queue i, .state sig] ++ [.state sig], [.round, .ret],
          Run.cons hcall rfl (Run.single ?_ rfl)⟩
        simp [step, SignalTable.ret, Signals.clearCnt, hhandler, hcalled]

/-- The loop over the rest of the queue. -/
theorem loop_run (rest : List SignalFrame) (queue : List Int) (t : Signals H) (i : Nat)
    (uses : List ArrayUse) (hqueue : t.signalQueue.drop i = queue) :
    ∃ uses', RunsAlone ⟨t, .loop i :: rest, uses⟩
      ⟨(Signals.processEach queue t).2.clearQueue, rest, uses'⟩ := by
  induction queue generalizing t i uses with
  | nil =>
      have hend : t.signalQueue[i]? = none :=
        List.getElem?_eq_none (List.drop_eq_nil_iff.mp hqueue)
      refine ⟨uses, [.round], Run.single ?_ rfl⟩
      simp [step, SignalTable.round, hend, Signals.processEach]
  | cons sig queue ih =>
      have hsig : t.signalQueue[i]? = some sig := by
        rw [← Nat.add_zero i, ← List.getElem?_drop, hqueue]
        rfl
      have hnext : (t.processOne sig).2.signalQueue.drop (i + 1) = queue := by
        rw [Signals.processOne_queue, ← List.drop_drop, hqueue]
        rfl
      obtain ⟨uses₁, es, hfirst⟩ := round_run t hsig rest uses
      obtain ⟨uses₂, fs, hothers⟩ := ih (t.processOne sig).2 (i + 1) uses₁ hnext
      exact ⟨uses₂, es ++ fs, hfirst.append hothers⟩

/-- A call of `spe_signal_process` is the one of `Signals.process`. -/
theorem process_run (t : Signals H) (uses : List ArrayUse) :
    ∃ uses', RunsAlone ⟨t, [], uses⟩ ⟨t.process.2, [], uses'⟩ := by
  unfold Signals.process
  by_cases hempty : t.signalQueue.length = 0
  · rw [if_pos hempty]
    refine ⟨uses, [.process], Run.single ?_ rfl⟩
    simp [step, canCall, List.eq_nil_of_length_eq_zero hempty]
  · rw [if_neg hempty]
    obtain ⟨uses', es, hloop⟩ := loop_run [] t.signalQueue t 0 uses rfl
    refine ⟨uses', .process :: es, Run.cons ?_ rfl hloop⟩
    simp only [step, canCall, if_true, if_neg hempty]

/-- All indices so far are in bounds. -/
def InBounds (s : SignalTable H) : Prop := ∀ u ∈ s.uses, u.InBounds

/-- The signals in the queue and in the active calls have an element in `signal_state`, and the
queue is not longer than its array. -/
structure Fits (s : SignalTable H) : Prop where
  queued : ∀ sig ∈ s.signals.signalQueue, 0 ≤ sig ∧ sig < MAX_SIGNAL
  length : s.signals.signalQueue.length ≤ MAX_SIGNAL
  handling : ∀ (i : Nat) (sig : Int), .handling i sig ∈ s.frames → 0 ≤ sig ∧ sig < MAX_SIGNAL

variable {s s' : SignalTable H}

theorem fits_start : (start H).Fits where
  queued := by simp [start, Signals.signalInit]
  length := by simp [start, Signals.signalInit]
  handling := by simp [start]

/-- `signal_common_handler` stays in bounds, unless the signal is 256. -/
theorem commonHandlerUses_inBounds (t : Signals H) (sig : Int) :
    (∀ u ∈ commonHandlerUses t sig, u.InBounds) ↔ sig ≠ MAX_SIGNAL := by
  unfold commonHandlerUses
  by_cases hout : sig < 0 ∨ sig > MAX_SIGNAL
  · rw [if_pos hout]
    refine iff_of_true (by simp) ?_
    rintro rfl
    omega
  · rw [if_neg hout]
    have hstate : (ArrayUse.state sig).InBounds ↔ sig ≠ MAX_SIGNAL := by
      unfold ArrayUse.InBounds
      dsimp only
      omega
    have hqueue : ∀ u ∈ (if (t.signalState sig).cnt = 0 ∧ t.signalQueue.length < MAX_SIGNAL then
        [ArrayUse.queue t.signalQueue.length] else []), u.InBounds := by
      split
      · rename_i hroom
        simpa [ArrayUse.InBounds] using hroom.2
      · simp
    split
    · simpa using hstate
    · rw [List.forall_mem_append, List.forall_mem_append,
        and_iff_left_iff_imp.mpr (fun _ => hqueue)]
      simpa using hstate

/-- `spe_signal_register` stays in bounds, unless the signal is 256. -/
theorem registerUses_inBounds (sig : Int) :
    (∀ u ∈ registerUses sig, u.InBounds) ↔ sig ≠ MAX_SIGNAL := by
  unfold registerUses
  by_cases hout : sig < 0 ∨ sig > MAX_SIGNAL
  · rw [if_pos hout]
    refine iff_of_true (by simp) ?_
    rintro rfl
    omega
  · rw [if_neg hout]
    simp only [List.forall_mem_cons, ArrayUse.InBounds]
    simp
    omega

/-- The signal 256 is not passed in. -/
def Tame (_ : SignalTable H) (ev : TableEvent H) : Prop := ev.signal ≠ some MAX_SIGNAL

/-- **Inversion.**  A round of the loop passes a signal of the queue or calls its handler, or
the call returns at the end of the queue. -/
theorem round_cases (hstep : s.round = some s') :
    ∃ i rest, s.frames = .loop i :: rest ∧
      ((∃ sig, s.signals.signalQueue[i]? = some sig ∧
          s'.uses = s.uses ++ [.queue i, .state sig] ∧
          s'.signals.signalQueue = s.signals.signalQueue ∧
          (s'.frames = .loop (i + 1) :: rest ∨ s'.frames = .handling i sig :: rest)) ∨
        (s'.uses = s.uses ∧ s'.signals.signalQueue = [] ∧ s'.frames = rest)) := by
  unfold SignalTable.round at hstep
  split at hstep
  · rename_i i rest hframes
    refine ⟨i, rest, hframes, ?_⟩
    split at hstep
    · rename_i sig hsig
      dsimp only at hstep
      split at hstep
      · obtain rfl := Option.some.inj hstep
        exact Or.inl ⟨sig, hsig, rfl, rfl, Or.inl rfl⟩
      split at hstep
      · obtain rfl := Option.some.inj hstep
        exact Or.inl ⟨sig, hsig, rfl, rfl, Or.inr rfl⟩
      · obtain rfl := Option.some.inj hstep
        exact Or.inl ⟨sig, hsig, rfl, rfl, Or.inl rfl⟩
    · obtain rfl := Option.some.inj hstep
      exact Or.inr ⟨rfl, rfl, rfl⟩
  · cases hstep

/-- **Inversion.**  A handler returns to the loop that has called it. -/
theorem ret_cases (hstep : s.ret = some s') :
    ∃ i sig rest, s.frames = .handling i sig :: rest ∧ s'.uses = s.uses ++ [.state sig] ∧
      s'.signals.signalQueue = s.signals.signalQueue ∧ s'.frames = .loop (i + 1) :: rest := by
  unfold SignalTable.ret at hstep
  split at hstep
  · rename_i i sig rest hframes
    obtain rfl := Option.some.inj hstep
    exact ⟨i, sig, rest, hframes, rfl, rfl, rfl⟩
  · cases hstep

/-- A round of the loop. -/
theorem Fits.round (h : s.Fits) (hstep : s.round = some s') :
    s'.Fits ∧ ∃ uses, s'.uses = s.uses ++ uses ∧ ∀ u ∈ uses, u.InBounds := by
  obtain ⟨i, rest, hframes, hcases⟩ := round_cases hstep
  have hrest : ∀ j sig, SignalFrame.handling j sig ∈ rest → 0 ≤ sig ∧ sig < MAX_SIGNAL :=
    fun j sig hmem => h.handling j sig (by simp [hframes, hmem])
  rcases hcases with ⟨sig, hsig, huses, hqueue, hnext⟩ | ⟨huses, hqueue, hreturn⟩
  · obtain ⟨hi, hget⟩ := List.getElem?_eq_some_iff.mp hsig
    have hqueued := h.queued sig (hget ▸ List.getElem_mem hi)
    have hlength := h.length
    refine ⟨⟨hqueue ▸ h.queued, hqueue ▸ h.length, ?_⟩, _, huses, ?_⟩
    · intro j x hx
      rcases hnext with hloop | hcall
      · rw [hloop] at hx
        exact hrest j x (by simpa using hx)
      · rw [hcall] at hx
        rcases List.mem_cons.mp hx with heq | hx
        · obtain ⟨_, rfl⟩ := SignalFrame.handling.inj heq
          exact hqueued
        · exact hrest j x hx
    · simpa [ArrayUse.InBounds, hqueued] using Nat.lt_of_lt_of_le hi hlength
  · refine ⟨⟨?_, ?_, ?_⟩, [], ?_, ?_⟩
    · simp [hqueue]
    · simp [hqueue]
    · rw [hreturn]
      exact hrest
    · rw [huses, List.append_nil]
    · simp

/-- The return of a handler. -/
theorem Fits.ret (h : s.Fits) (hstep : s.ret = some s') :
    s'.Fits ∧ ∃ uses, s'.uses = s.uses ++ uses ∧ ∀ u ∈ uses, u.InBounds := by
  obtain ⟨i, sig, rest, hframes, huses, hqueue, hnext⟩ := ret_cases hstep
  refine ⟨⟨hqueue ▸ h.queued, hqueue ▸ h.length, ?_⟩, _, huses, ?_⟩
  · intro j x hx
    rw [hnext] at hx
    exact h.handling j x (by simpa [hframes] using Or.inr hx)
  · simpa [ArrayUse.InBounds] using h.handling i sig (by simp [hframes])

/-- **Step lemma.**  A step uses elements that are there exactly if it is not passed the signal
256, and then what is in the queue still fits. -/
theorem Fits.step (h : s.Fits) {ev : TableEvent H} (hstep : s.step ev = some s') :
    (s.Tame ev → s'.Fits) ∧
    ∃ uses, s'.uses = s.uses ++ uses ∧ ((∀ u ∈ uses, u.InBounds) ↔ s.Tame ev) := by
  cases ev with
  | register sig handler =>
      obtain ⟨_, ⟨⟩⟩ := Option.ite_none_right_eq_some.mp hstep
      refine ⟨fun _ => ⟨?_, ?_, h.handling⟩, _, rfl, ?_⟩
      · simpa using h.queued
      · simpa using h.length
      · rw [registerUses_inBounds]
        simp [Tame, TableEvent.signal]
  | deliver sig =>
      obtain ⟨_, ⟨⟩⟩ := Option.ite_none_right_eq_some.mp hstep
      refine ⟨fun htame => ?_, _, rfl, ?_⟩
      · have hne : sig ≠ MAX_SIGNAL := fun heq => htame (congrArg some heq)
        rcases s.signals.commonHandler_queue sig with hsame | ⟨hqueued, hlow, hhigh, hroom⟩
        · exact ⟨by simpa [hsame] using h.queued, by simpa [hsame] using h.length, h.handling⟩
        · refine ⟨?_, ?_, h.handling⟩
          · intro x hx
            rcases List.mem_append.mp (hqueued ▸ hx) with hx | hx
            · exact h.queued x hx
            · rw [List.mem_singleton.mp hx]
              omega
          · simp only [hqueued, List.length_append, List.length_singleton]
            omega
      · rw [commonHandlerUses_inBounds]
        simp [Tame, TableEvent.signal]
  | process =>
      obtain ⟨_, hstep⟩ := Option.ite_none_right_eq_some.mp hstep
      have htame : s.Tame .process := by simp [Tame, TableEvent.signal]
      split at hstep
      · obtain rfl := Option.some.inj hstep
        exact ⟨fun _ => h, [], (List.append_nil _).symm, iff_of_true (by simp) htame⟩
      · obtain rfl := Option.some.inj hstep
        refine ⟨fun _ => ⟨h.queued, h.length, ?_⟩, [], (List.append_nil _).symm,
          iff_of_true (by simp) htame⟩
        simpa using h.handling
  | round =>
      obtain ⟨hfits, uses, huses, hin⟩ := h.round hstep
      exact ⟨fun _ => hfits, uses, huses, iff_of_true hin (by simp [Tame, TableEvent.signal])⟩
  | ret =>
      obtain ⟨hfits, uses, huses, hin⟩ := h.ret hstep
      exact ⟨fun _ => hfits, uses, huses, iff_of_true hin (by simp [Tame, TableEvent.signal])⟩

/-- A step records its uses behind those so far. -/
theorem step_uses {ev : TableEvent H} (hstep : s.step ev = some s') :
    ∃ uses, s'.uses = s.uses ++ uses := by
  cases ev with
  | register sig handler =>
      obtain ⟨_, ⟨⟩⟩ := Option.ite_none_right_eq_some.mp hstep
      exact ⟨_, rfl⟩
  | deliver sig =>
      obtain ⟨_, ⟨⟩⟩ := Option.ite_none_right_eq_some.mp hstep
      exact ⟨_, rfl⟩
  | process =>
      obtain ⟨_, hstep⟩ := Option.ite_none_right_eq_some.mp hstep
      refine ⟨[], ?_⟩
      split at hstep <;> obtain rfl := Option.some.inj hstep <;> simp
  | round =>
      obtain ⟨_, _, _, hcases⟩ := round_cases hstep
      rcases hcases with ⟨_, _, huses, _⟩ | ⟨huses, _⟩
      · exact ⟨_, huses⟩
      · exact ⟨[], huses.trans (List.append_nil _).symm⟩
  | ret =>
      obtain ⟨_, _, _, _, huses, _⟩ := ret_cases hstep
      exact ⟨_, huses⟩

/-- **Bounds.**  In a run of registrations, signals and calls of `spe_signal_process` every index
is in bounds if and only if the signal 256 is not passed in. -/
theorem bounds_exact {es : List (TableEvent H)} (h : Run step anyStep (start H) es s) :
    (∀ u ∈ s.uses, u.InBounds) ↔ ∀ ev ∈ es, ev.signal ≠ some MAX_SIGNAL := by
  have hexact : s.InBounds ↔ Run step Tame (start H) es s := by
    refine h.exact_last Fits InBounds fits_start (fun _ hu => absurd hu List.not_mem_nil) ?_ ?_ ?_
    · intro t ev t' hstep hin
      obtain ⟨uses, huses⟩ := step_uses hstep
      exact fun u hu => hin u (huses ▸ List.mem_append_left uses hu)
    · exact fun _ _ _ hfits htame hstep => (hfits.step hstep).1 htame
    · intro t ev t' hfits hin hstep
      obtain ⟨_, uses, huses, hiff⟩ := hfits.step hstep
      rw [← hiff, InBounds, huses, List.forall_mem_append]
      exact and_iff_right hin
  have htame : Run step Tame (start H) es s ↔ ∀ ev ∈ es, ev.signal ≠ some MAX_SIGNAL := by
    have hboth := @Run.forall_iff _ _ (step (H := H)) (fun ev => ev.signal ≠ some MAX_SIGNAL)
      (start H) s es
    exact hboth.trans (and_iff_right h)
  exact hexact.trans htame

/-- The signal 256 is registered. -/
theorem register_256 :
    ∃ s, exec step (start Unit) [.register 256 (.handler ())] = some s ∧
      s.uses = [.state 256, .state 256] ∧ ¬ ∀ u ∈ s.uses, u.InBounds := by
  refine ⟨_, rfl, rfl, ?_⟩
  intro h
  exact absurd (h (.state 256) (by decide)).2 (by decide)

/-- A signal is registered, delivered and handled; its handler registers another one. -/
def handled : List (TableEvent Unit) :=
  [.register 17 (.handler ()), .deliver 17, .process, .round, .register 255 .SIG_IGN, .ret, .round]

theorem handled_exact :
    ∃ s, exec step (start Unit) handled = some s ∧ s.uses.length = 11 ∧
      ((∀ u ∈ s.uses, u.InBounds) ↔ ∀ ev ∈ handled, ev.signal ≠ some MAX_SIGNAL) :=
  ⟨_, rfl, by decide, bounds_exact (run_iff_exec.mpr rfl)⟩

end SignalTable

end Spe
