import Mathlib.Data.Int.Notation
import Mathlib.Logic.Function.Basic

/-!
# Signals (`spe_signal.c`)

A signal that arrives is only noted: `signal_common_handler` puts its number into
`signal_queue`, and `spe_signal_process` later calls the handlers that were registered,
with all signals blocked.  One run of `signal_common_handler` is one step here: a second
signal does not interrupt it.

`H` is the type of the handlers.  The counters are `unsigned`, in 32 bits.
-/

namespace Spe

/-- `MAX_SIGNAL`. -/
def MAX_SIGNAL : Nat := 256

/-- `spe_signal_t`; no handler is `NULL`. -/
structure SignalState (H : Type) where
  cnt : UInt32
  handler : Option H

/-- What the kernel does with a signal that arrives: the action that `signal` has set. -/
inductive SigAction
  | SIG_DFL
  | SIG_IGN
  | signalCommonHandler
  deriving DecidableEq

/-- The argument of `spe_signal_register`; `SIG_DFL` is the null pointer. -/
inductive SigHandler (H : Type)
  | SIG_DFL
  | SIG_IGN
  | handler (h : H)

/-- The memory of `spe_signal.c`, `signalQueue` up to `signal_queue_len`, and the actions
that the kernel knows. -/
structure Signals (H : Type) where
  signalQueue : List Int
  signalState : Int → SignalState H
  action : Int → SigAction

namespace Signals

variable {H : Type} (s : Signals H)

/-- `signal_init`; a process starts with the default actions. -/
def signalInit : Signals H where
  signalQueue := []
  signalState := fun _ => ⟨0, none⟩
  action := fun _ => .SIG_DFL

/-- `signal`. -/
def setAction (sig : Int) (action : SigAction) : Signals H :=
  { s with action := Function.update s.action sig action }

/-- `signal_common_handler`. -/
def commonHandler (sig : Int) : Signals H :=
  if sig < 0 ∨ sig > MAX_SIGNAL ∨ (s.signalState sig).handler.isNone then
    s.setAction sig .SIG_IGN
  else
    let desc := s.signalState sig
    let queued : Signals H :=
      if desc.cnt = 0 ∧ s.signalQueue.length < MAX_SIGNAL then
        { s with signalQueue := s.signalQueue ++ [sig] }
      else s
    let counted : Signals H :=
      { queued with
        signalState := Function.update s.signalState sig { desc with cnt := desc.cnt + 1 } }
    counted.setAction sig .signalCommonHandler

/-- `spe_signal_register`.  A null handler is taken for `SIG_IGN`, and so is `SIG_DFL`. -/
def register (sig : Int) (handler : SigHandler H) : Signals H :=
  if sig < 0 ∨ sig > MAX_SIGNAL then s
  else
    match handler with
    | .handler h =>
        { s with
          signalState := Function.update s.signalState sig ⟨0, some h⟩ }.setAction sig
            .signalCommonHandler
    | _ =>
        { s with
          signalState := Function.update s.signalState sig ⟨0, none⟩ }.setAction sig .SIG_IGN

/-- A round of the loop of `spe_signal_process`, on one signal of the queue, with the
handler that it calls. -/
def processOne (sig : Int) : Option H × Signals H :=
  let desc := s.signalState sig
  if desc.cnt = 0 then (none, s)
  else
    (desc.handler,
      { s with signalState := Function.update s.signalState sig { desc with cnt := 0 } })

/-- `signal_queue_len = 0`. -/
def clearQueue : Signals H := { s with signalQueue := [] }

/-- The loop of `spe_signal_process` over the signals of the queue, with the calls of handlers. -/
def processEach : List Int → Signals H → List (Int × H) × Signals H
  | [], s => ([], s)
  | sig :: queue, s =>
      let (handler, s) := s.processOne sig
      let (calls, s) := processEach queue s
      ((handler.map (sig, ·)).toList ++ calls, s)

/-- `spe_signal_process`, with the calls of handlers.  All signals are blocked in the loop, so that
the queue stays as it is. -/
def process : List (Int × H) × Signals H :=
  if s.signalQueue.length = 0 then ([], s)
  else
    let (calls, s) := processEach s.signalQueue s
    (calls, s.clearQueue)

/-- A signal that arrives leaves the queue as it is, or is one with a number in range that adds
itself to a queue with room. -/
theorem commonHandler_queue (sig : Int) :
    (s.commonHandler sig).signalQueue = s.signalQueue ∨
    ((s.commonHandler sig).signalQueue = s.signalQueue ++ [sig] ∧ 0 ≤ sig ∧ sig ≤ MAX_SIGNAL ∧
      s.signalQueue.length < MAX_SIGNAL) := by
  unfold commonHandler
  split
  · exact Or.inl rfl
  · rename_i hin
    have hlow : ¬ sig < 0 := fun h => hin (Or.inl h)
    have hhigh : ¬ sig > MAX_SIGNAL := fun h => hin (Or.inr (Or.inl h))
    dsimp only [setAction]
    split
    · rename_i hroom
      exact Or.inr ⟨rfl, by omega, by omega, hroom.2⟩
    · exact Or.inl rfl

/-- A signal that has a handler is counted, and put into the queue if it was not counted yet and
there is room. -/
theorem commonHandler_registered {sig : Int} (hsig : 0 ≤ sig ∧ sig ≤ MAX_SIGNAL)
    (hhandler : (s.signalState sig).handler.isSome) :
    (s.commonHandler sig).signalQueue =
      (if (s.signalState sig).cnt = 0 ∧ s.signalQueue.length < MAX_SIGNAL then
        s.signalQueue ++ [sig] else s.signalQueue) ∧
    (s.commonHandler sig).signalState = Function.update s.signalState sig
      ⟨(s.signalState sig).cnt + 1, (s.signalState sig).handler⟩ ∧
    (s.commonHandler sig).action = Function.update s.action sig .signalCommonHandler := by
  have hnot : ¬ (sig < 0 ∨ sig > MAX_SIGNAL ∨ (s.signalState sig).handler.isNone) := by
    rintro (hlow | hhigh | hnone)
    · omega
    · omega
    · rw [Option.isNone_iff_eq_none.mp hnone] at hhandler
      cases hhandler
  unfold commonHandler
  rw [if_neg hnot]
  dsimp only [setAction]
  by_cases hroom : (s.signalState sig).cnt = 0 ∧ s.signalQueue.length < MAX_SIGNAL
  · rw [if_pos hroom, if_pos hroom]
    exact ⟨rfl, rfl, rfl⟩
  · rw [if_neg hroom, if_neg hroom]
    exact ⟨rfl, rfl, rfl⟩

/-- A registered signal that was not counted yet is put into the queue, if there is room. -/
theorem commonHandler_queued {sig : Int} (hsig : 0 ≤ sig ∧ sig ≤ MAX_SIGNAL)
    (hhandler : (s.signalState sig).handler.isSome) (hcnt : (s.signalState sig).cnt = 0)
    (hroom : s.signalQueue.length < MAX_SIGNAL) :
    (s.commonHandler sig).signalQueue = s.signalQueue ++ [sig] := by
  rw [(s.commonHandler_registered hsig hhandler).1, if_pos ⟨hcnt, hroom⟩]

/-- A signal that was counted before is not put into the queue again. -/
theorem commonHandler_counted {sig : Int} (hcnt : (s.signalState sig).cnt ≠ 0) :
    (s.commonHandler sig).signalQueue = s.signalQueue := by
  unfold commonHandler
  split
  · rfl
  · dsimp only [setAction]
    rw [if_neg (fun h => hcnt h.1)]

/-- Handling a signal leaves the queue as it is. -/
@[simp] theorem processOne_queue (sig : Int) :
    (s.processOne sig).2.signalQueue = s.signalQueue := by
  unfold processOne
  dsimp only
  split <;> rfl

/-- Nor does registering one change it. -/
@[simp] theorem register_queue (sig : Int) (handler : SigHandler H) :
    (s.register sig handler).signalQueue = s.signalQueue := by
  unfold register
  split
  · rfl
  · cases handler <;> rfl

/-- `signal_common_handler` is installed for signals that have a handler. -/
def Installed : Prop :=
  ∀ sig, s.action sig = .signalCommonHandler →
    0 ≤ sig ∧ sig ≤ MAX_SIGNAL ∧ (s.signalState sig).handler.isSome = true

variable {s}

/-- At the start. -/
theorem installed_init : (signalInit : Signals H).Installed := by
  rintro sig ⟨⟩

/-- The action and the handler of one signal change, and agree again. -/
theorem Installed.update (h : s.Installed) {t : Signals H} {sig : Int}
    (hother : ∀ x, x ≠ sig → t.action x = s.action x ∧ t.signalState x = s.signalState x)
    (hsig : t.action sig = .signalCommonHandler →
      0 ≤ sig ∧ sig ≤ MAX_SIGNAL ∧ (t.signalState sig).handler.isSome = true) :
    t.Installed := by
  intro x hx
  by_cases hxs : x = sig
  · subst hxs
    exact hsig hx
  · obtain ⟨haction, hstate⟩ := hother x hxs
    rw [haction] at hx
    rw [hstate]
    exact h x hx

/-- A signal arrives. -/
theorem Installed.commonHandler (h : s.Installed) (sig : Int) :
    (s.commonHandler sig).Installed := by
  unfold Signals.commonHandler
  by_cases hnone : sig < 0 ∨ sig > MAX_SIGNAL ∨ (s.signalState sig).handler.isNone
  · rw [if_pos hnone]
    refine h.update (fun x hx => ⟨Function.update_of_ne hx _ _, rfl⟩) ?_
    intro hset
    cases (Function.update_self sig _ _).symm.trans hset
  · rw [if_neg hnone]
    have hlow : 0 ≤ sig := Int.not_lt.mp (fun hlt => hnone (Or.inl hlt))
    have hhigh : sig ≤ MAX_SIGNAL := Int.not_lt.mp (fun hlt => hnone (Or.inr (Or.inl hlt)))
    have hsome : (s.signalState sig).handler.isSome = true := by
      rw [Option.isSome_iff_ne_none]
      exact fun heq => hnone (Or.inr (Or.inr (Option.isNone_iff_eq_none.mpr heq)))
    dsimp only [setAction]
    split
    · refine h.update (fun x hx => ⟨Function.update_of_ne hx _ _, Function.update_of_ne hx _ _⟩) ?_
      exact fun _ => ⟨hlow, hhigh, by simpa using hsome⟩
    · refine h.update (fun x hx => ⟨Function.update_of_ne hx _ _, Function.update_of_ne hx _ _⟩) ?_
      exact fun _ => ⟨hlow, hhigh, by simpa using hsome⟩

/-- A handler is registered. -/
theorem Installed.register (h : s.Installed) (sig : Int) (handler : SigHandler H) :
    (s.register sig handler).Installed := by
  unfold Signals.register
  by_cases hout : sig < 0 ∨ sig > MAX_SIGNAL
  · rw [if_pos hout]
    exact h
  · rw [if_neg hout]
    cases handler with
    | handler f =>
        refine h.update
          (fun x hx => ⟨Function.update_of_ne hx _ _, Function.update_of_ne hx _ _⟩) ?_
        exact fun _ => ⟨by omega, by omega, by simp [setAction]⟩
    | SIG_DFL =>
        refine h.update
          (fun x hx => ⟨Function.update_of_ne hx _ _, Function.update_of_ne hx _ _⟩) ?_
        intro hset
        cases (Function.update_self sig _ _).symm.trans hset
    | SIG_IGN =>
        refine h.update
          (fun x hx => ⟨Function.update_of_ne hx _ _, Function.update_of_ne hx _ _⟩) ?_
        intro hset
        cases (Function.update_self sig _ _).symm.trans hset

/-- A signal is handled. -/
theorem Installed.processOne (h : s.Installed) (sig : Int) : (s.processOne sig).2.Installed := by
  unfold Signals.processOne
  dsimp only
  split
  · exact h
  · refine h.update (fun x hx => ⟨rfl, Function.update_of_ne hx _ _⟩) ?_
    intro hset
    simpa using h sig hset

end Signals

end Spe
