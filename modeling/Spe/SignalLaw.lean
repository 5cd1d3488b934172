import Mathlib.Algebra.Group.Nat.Defs
import Spe.Signal
import Spe.Transition

/-!
# What `spe_signal_process` owes

Handlers are registered, signals are delivered and the queue is processed, in any order.  A signal
is owed when it has been delivered since the last `spe_signal_process` and since its last
registration (`Owed`), and `spe_signal_process` should call the handlers of exactly those
(`ProcessLaw`).

The queue has no signal twice as long as the counters say which signals are in it.  But
`spe_signal_register` sets the counter to 0 and leaves the signal in the queue: registered again
and delivered again it is queued again, and a full queue takes no other signal.  The counters
are `unsigned`, and one that wraps forgets the signal.
-/

namespace Spe

open Transition

/-- What happens: a call of `spe_signal_register`, a signal, or a call of `spe_signal_process`. -/
inductive SignalEvent (H : Type)
  | register (sig : Int) (handler : SigHandler H)
  | deliver (sig : Int)
  | process

namespace Signals

variable {H : Type} {s s' : Signals H} {before : List (SignalEvent H)}

/-- A signal is delivered: `signal_common_handler` runs if the kernel has it as the action.  The
other actions do not touch this memory. -/
def deliver (s : Signals H) (sig : Int) : Signals H :=
  if s.action sig = .signalCommonHandler then s.commonHandler sig else s

/-- One event.  The arrays have no cell 256, which `spe_signal_register` would write. -/
def step (s : Signals H) : SignalEvent H → Option (Signals H)
  | .register sig handler => if sig = MAX_SIGNAL then none else some (s.register sig handler)
  | .deliver sig => if 0 ≤ sig ∧ sig < MAX_SIGNAL then some (s.deliver sig) else none
  | .process => some s.process.2

/-- The signal has been delivered since the last `spe_signal_process` and since its last
registration. -/
def Owed (before : List (SignalEvent H)) (sig : Int) : Prop :=
  ∃ earlier later, before = earlier ++ .deliver sig :: later ∧ .process ∉ later ∧
    ∀ handler, .register sig handler ∉ later

/-- `spe_signal_process` calls the registered handlers of exactly the signals that are owed, each
once, and leaves the queue empty and the counters 0. -/
structure ProcessLaw (before : List (SignalEvent H)) (s : Signals H) : Prop where
  calls : ∀ sig h, (sig, h) ∈ s.process.1 ↔
    Owed before sig ∧ (s.signalState sig).handler = some h
  once : (s.process.1.map Prod.fst).Nodup
  queue : s.process.2.signalQueue = []
  counters : ∀ sig, (s.process.2.signalState sig).cnt = 0

/-- A signal that has a handler finds itself in the queue, or room there, and its counter does
not wrap. -/
def Noted (s : Signals H) : SignalEvent H → Prop
  | .deliver sig => (s.signalState sig).handler.isSome = true →
      (sig ∈ s.signalQueue ∨ s.signalQueue.length < MAX_SIGNAL) ∧
        (s.signalState sig).cnt.toNat + 1 < 2 ^ 32
  | _ => True

/-- Nothing is owed at the start. -/
theorem not_owed_nil (sig : Int) : ¬ Owed ([] : List (SignalEvent H)) sig := by
  rintro ⟨earlier, later, hsplit, _⟩
  cases earlier <;> cases hsplit

/-- What one more event makes of what is owed. -/
theorem owed_append (before : List (SignalEvent H)) (e : SignalEvent H) (sig : Int) :
    Owed (before ++ [e]) sig ↔
      e = .deliver sig ∨ (e ≠ .process ∧ (∀ handler, e ≠ .register sig handler) ∧
        Owed before sig) := by
  constructor
  · rintro ⟨earlier, later, hsplit, hprocess, hregister⟩
    rcases List.eq_nil_or_concat later with rfl | ⟨later, last, rfl⟩
    · obtain ⟨_, hlast⟩ := List.append_inj' hsplit rfl
      exact Or.inl (List.cons.inj hlast).1
    · rw [List.concat_eq_append] at hsplit hprocess hregister
      rw [← List.cons_append, ← List.append_assoc] at hsplit
      obtain ⟨hbefore, hlast⟩ := List.append_inj' hsplit rfl
      obtain rfl := (List.cons.inj hlast).1
      simp only [List.mem_append, List.mem_singleton, not_or] at hprocess hregister
      exact Or.inr ⟨fun h => hprocess.2 h.symm, fun handler h => (hregister handler).2 h.symm,
        earlier, later, hbefore, hprocess.1, fun handler => (hregister handler).1⟩
  · rintro (rfl | ⟨hprocess, hregister, earlier, later, rfl, hnone, hnot⟩)
    · exact ⟨before, [], rfl, List.not_mem_nil, fun _ => List.not_mem_nil⟩
    · refine ⟨earlier, later ++ [e], by simp, ?_, ?_⟩
      · simp only [List.mem_append, List.mem_singleton, not_or]
        exact ⟨hnone, hprocess.symm⟩
      · intro handler
        simp only [List.mem_append, List.mem_singleton, not_or]
        exact ⟨hnot handler, (hregister handler).symm⟩

/-- What a round of the loop does to another signal. -/
theorem processOne_of_ne {sig x : Int} (hx : x ≠ sig) :
    (s.processOne sig).2.signalState x = s.signalState x := by
  unfold processOne
  dsimp only
  split
  · rfl
  · exact Function.update_of_ne hx _ _

/-- What it does to its signal, and the handler that it calls. -/
theorem processOne_self (s : Signals H) (sig : Int) :
    (s.processOne sig).2.signalState sig = { s.signalState sig with cnt := 0 } ∧
      (s.processOne sig).1 =
        if (s.signalState sig).cnt = 0 then none else (s.signalState sig).handler := by
  unfold processOne
  dsimp only
  by_cases hcnt : (s.signalState sig).cnt = 0
  · rw [if_pos hcnt, if_pos hcnt]
    refine ⟨?_, rfl⟩
    rw [← hcnt]
  · rw [if_neg hcnt, if_neg hcnt]
    exact ⟨Function.update_self _ _ _, rfl⟩

/-- The loop sets the counters of the signals in the queue to 0, and changes nothing else. -/
theorem processEach_state (queue : List Int) (s : Signals H) (sig : Int) :
    (processEach queue s).2.signalState sig =
      if sig ∈ queue then { s.signalState sig with cnt := 0 } else s.signalState sig := by
  induction queue generalizing s with
  | nil => rw [if_neg List.not_mem_nil, processEach]
  | cons x queue ih =>
      rw [processEach]
      dsimp only
      rw [ih]
      by_cases hx : sig = x
      · subst hx
        rw [(processOne_self s sig).1, if_pos List.mem_cons_self]
        exact ite_self _
      · rw [processOne_of_ne hx]
        simp only [List.mem_cons, hx, false_or]

/-- The loop leaves the queue and the actions as they are. -/
theorem processEach_frame (queue : List Int) (s : Signals H) :
    (processEach queue s).2.signalQueue = s.signalQueue ∧
      (processEach queue s).2.action = s.action := by
  induction queue generalizing s with
  | nil => exact ⟨rfl, rfl⟩
  | cons x queue ih =>
      have haction : (s.processOne x).2.action = s.action := by
        unfold processOne
        dsimp only
        split <;> rfl
      rw [processEach]
      obtain ⟨hqueue, hsame⟩ := ih (s.processOne x).2
      exact ⟨hqueue.trans (processOne_queue s x), hsame.trans haction⟩

/-- The loop calls the handlers of the signals in the queue that are counted, each once. -/
theorem processEach_calls (queue : List Int) (s : Signals H) :
    (∀ sig h, (sig, h) ∈ (processEach queue s).1 ↔
      sig ∈ queue ∧ (s.signalState sig).cnt ≠ 0 ∧ (s.signalState sig).handler = some h) ∧
    ((processEach queue s).1.map Prod.fst).Nodup := by
  induction queue generalizing s with
  | nil => simp [processEach]
  | cons x queue ih =>
      obtain ⟨hmem, hnodup⟩ := ih (s.processOne x).2
      obtain ⟨hself, hcall⟩ := processOne_self s x
      -- the first round has set the counter of its signal to 0: it is not called again
      have hlater : ∀ h, (x, h) ∉ (processEach queue (s.processOne x).2).1 := by
        intro h hin
        have hcnt := ((hmem x h).mp hin).2.1
        rw [hself] at hcnt
        exact hcnt rfl
      have hfirst : ∀ sig h, (sig, h) ∈ ((s.processOne x).1.map (x, ·)).toList ↔
          sig = x ∧ (s.signalState x).cnt ≠ 0 ∧ (s.signalState x).handler = some h := by
        intro sig h
        rw [hcall, Option.mem_toList, Option.map_eq_some_iff]
        by_cases hcnt : (s.signalState x).cnt = 0
        · simp [hcnt]
        · simp only [if_neg hcnt, Prod.mk.injEq]
          constructor
          · rintro ⟨h', hhandler, rfl, rfl⟩
            exact ⟨rfl, hcnt, hhandler⟩
          · rintro ⟨rfl, _, hhandler⟩
            exact ⟨h, hhandler, rfl, rfl⟩
      rw [processEach]
      dsimp only
      constructor
      · intro sig h
        rw [List.mem_append, hfirst, hmem, List.mem_cons]
        by_cases hx : sig = x
        · subst hx
          simp [hself]
        · rw [processOne_of_ne hx]
          simp [hx]
      · rw [List.map_append, List.nodup_append]
        refine ⟨?_, hnodup, ?_⟩
        · cases (s.processOne x).1 <;> simp
        · rintro sig hsig _ hin rfl
          obtain ⟨⟨_, h⟩, hcalled, rfl⟩ := List.mem_map.mp hsig
          obtain ⟨rfl, _⟩ := (hfirst _ _).mp hcalled
          obtain ⟨⟨_, h'⟩, hagain, rfl⟩ := List.mem_map.mp hin
          exact hlater h' hagain

/-- **`spe_signal_process`.** -/
theorem process_spec (s : Signals H) :
    (∀ sig h, (sig, h) ∈ s.process.1 ↔ sig ∈ s.signalQueue ∧
      (s.signalState sig).cnt ≠ 0 ∧ (s.signalState sig).handler = some h) ∧
    (s.process.1.map Prod.fst).Nodup ∧ s.process.2.signalQueue = [] ∧
    s.process.2.action = s.action ∧
    ∀ sig, s.process.2.signalState sig =
      if sig ∈ s.signalQueue then { s.signalState sig with cnt := 0 } else s.signalState sig := by
  unfold process
  by_cases hempty : s.signalQueue.length = 0
  · have hnil := List.length_eq_zero_iff.mp hempty
    rw [if_pos hempty]
    simp [hnil]
  · rw [if_neg hempty]
    obtain ⟨hcalls, hnodup⟩ := processEach_calls s.signalQueue s
    exact ⟨hcalls, hnodup, rfl, (processEach_frame _ _).2, processEach_state _ _⟩

/-- What holds while no delivery is lost: a signal with a handler is caught, it is counted when it
is owed, and every signal that is counted is in the queue. -/
structure Kept (before : List (SignalEvent H)) (s : Signals H) : Prop where
  known : ∀ sig, (s.signalState sig).handler.isSome = true → 0 ≤ sig ∧ sig ≤ MAX_SIGNAL
  caught : ∀ sig, (s.signalState sig).handler.isSome = true →
    s.action sig = .signalCommonHandler
  counted : ∀ sig, (s.signalState sig).cnt ≠ 0 ↔
    Owed before sig ∧ (s.signalState sig).handler.isSome = true
  queued : ∀ sig, (s.signalState sig).cnt ≠ 0 → sig ∈ s.signalQueue

/-- At the start. -/
theorem kept_init : Kept ([] : List (SignalEvent H)) signalInit := by
  constructor
  · rintro sig ⟨⟩
  · rintro sig ⟨⟩
  · intro sig
    exact ⟨fun h => absurd rfl h, fun h => absurd h.1 (not_owed_nil sig)⟩
  · intro sig h
    exact absurd rfl h

/-- **The law.** -/
theorem Kept.law (h : Kept before s) : ProcessLaw before s := by
  obtain ⟨hcalls, honce, hqueue, _, hstate⟩ := process_spec s
  refine ⟨?_, honce, hqueue, ?_⟩
  · intro sig f
    rw [hcalls]
    constructor
    · rintro ⟨_, hcnt, hhandler⟩
      exact ⟨((h.counted sig).mp hcnt).1, hhandler⟩
    · rintro ⟨howed, hhandler⟩
      have hcnt := (h.counted sig).mpr ⟨howed, by rw [hhandler]; rfl⟩
      exact ⟨h.queued sig hcnt, hcnt, hhandler⟩
  · intro sig
    rw [hstate]
    by_cases hmem : sig ∈ s.signalQueue
    · rw [if_pos hmem]
    · rw [if_neg hmem]
      by_contra hcnt
      exact hmem (h.queued sig hcnt)

/-- `spe_signal_process` keeps it. -/
theorem Kept.process (h : Kept before s) : Kept (before ++ [.process]) s.process.2 := by
  obtain ⟨_, _, _, haction, hstate⟩ := process_spec s
  have hzero := h.law.counters
  have hhandler : ∀ sig, (s.process.2.signalState sig).handler = (s.signalState sig).handler := by
    intro sig
    rw [hstate]
    split <;> rfl
  constructor
  · intro sig
    rw [hhandler]
    exact h.known sig
  · intro sig
    rw [hhandler, haction]
    exact h.caught sig
  · intro sig
    rw [owed_append]
    constructor
    · exact fun hcnt => absurd (hzero sig) hcnt
    · rintro ⟨heq | ⟨hne, _⟩, _⟩
      · cases heq
      · exact absurd rfl hne
  · intro sig hcnt
    exact absurd (hzero sig) hcnt

/-- What `spe_signal_register` does. -/
theorem register_spec (s : Signals H) {sig : Int} (handler : SigHandler H)
    (hsig : 0 ≤ sig ∧ sig ≤ MAX_SIGNAL) :
    (s.register sig handler).signalQueue = s.signalQueue ∧
    ((s.register sig handler).signalState sig).cnt = 0 ∧
    (((s.register sig handler).signalState sig).handler.isSome = true →
      (s.register sig handler).action sig = .signalCommonHandler) ∧
    ∀ x, x ≠ sig → (s.register sig handler).signalState x = s.signalState x ∧
      (s.register sig handler).action x = s.action x := by
  have hin : ¬ (sig < 0 ∨ sig > MAX_SIGNAL) := by omega
  unfold register
  rw [if_neg hin]
  cases handler with
  | handler f =>
      refine ⟨rfl, ?_, fun _ => Function.update_self _ _ _,
        fun x hx => ⟨Function.update_of_ne hx _ _, Function.update_of_ne hx _ _⟩⟩
      simp [setAction]
  | _ =>
      refine ⟨rfl, ?_, ?_,
        fun x hx => ⟨Function.update_of_ne hx _ _, Function.update_of_ne hx _ _⟩⟩
      · simp [setAction]
      · simp [setAction]

/-- `spe_signal_register` keeps it: the signal is not owed any more. -/
theorem Kept.register (h : Kept before s) {sig : Int} (handler : SigHandler H)
    (hsig : 0 ≤ sig ∧ sig ≤ MAX_SIGNAL) :
    Kept (before ++ [.register sig handler]) (s.register sig handler) := by
  obtain ⟨hqueue, hcnt, hcaught, hother⟩ := register_spec s handler hsig
  have howed : ∀ x, Owed (before ++ [.register sig handler]) x ↔ x ≠ sig ∧ Owed before x := by
    intro x
    rw [owed_append]
    constructor
    · rintro (heq | ⟨_, hne, hx⟩)
      · cases heq
      · exact ⟨fun heq => hne handler (by rw [heq]), hx⟩
    · rintro ⟨hne, hx⟩
      refine Or.inr ⟨by simp, ?_, hx⟩
      rintro handler' heq
      exact hne (SignalEvent.register.inj heq).1.symm
  constructor
  · intro x hx
    by_cases heq : x = sig
    · subst heq
      exact hsig
    · rw [(hother x heq).1] at hx
      exact h.known x hx
  · intro x hx
    by_cases heq : x = sig
    · subst heq
      exact hcaught hx
    · rw [(hother x heq).1] at hx
      rw [(hother x heq).2]
      exact h.caught x hx
  · intro x
    rw [howed]
    by_cases heq : x = sig
    · subst heq
      simp [hcnt]
    · rw [(hother x heq).1, h.counted, and_iff_right heq]
  · intro x hx
    rw [hqueue]
    by_cases heq : x = sig
    · subst heq
      exact absurd hcnt hx
    · rw [(hother x heq).1] at hx
      exact h.queued x hx

/-- The counter of a signal that is delivered does not wrap exactly when it stays above 0. -/
theorem cnt_succ_ne_zero (cnt : UInt32) : cnt + 1 ≠ 0 ↔ cnt.toNat + 1 < 2 ^ 32 := by
  have hlt := cnt.toNat_lt
  rw [Ne, ← UInt32.toNat_inj, UInt32.toNat_add]
  simp only [UInt32.toNat_ofNat, Nat.reducePow]
  omega

/-- A delivery is owed until the signal is registered again, or processed. -/
theorem owed_deliver (before : List (SignalEvent H)) (sig x : Int) :
    Owed (before ++ [.deliver sig]) x ↔ x = sig ∨ Owed before x := by
  rw [owed_append]
  simp [eq_comm]

/-- A signal without a handler is discarded, at the latest by `signal_common_handler`. -/
theorem deliver_discarded {sig : Int} (hnone : (s.signalState sig).handler.isSome = false) :
    (s.deliver sig).signalQueue = s.signalQueue ∧
      (s.deliver sig).signalState = s.signalState ∧
      ∀ x, x ≠ sig → (s.deliver sig).action x = s.action x := by
  by_cases haction : s.action sig = .signalCommonHandler
  · have hdeliver : s.deliver sig = s.setAction sig .SIG_IGN := by
      have hempty : (s.signalState sig).handler.isNone = true := by
        rw [Option.isNone_iff_eq_none, ← Option.not_isSome_iff_eq_none, hnone]
        exact Bool.false_ne_true
      exact (if_pos haction).trans (if_pos (Or.inr (Or.inr hempty)))
    rw [hdeliver]
    exact ⟨rfl, rfl, fun x hx => Function.update_of_ne hx _ _⟩
  · have hdeliver : s.deliver sig = s := if_neg haction
    rw [hdeliver]
    exact ⟨rfl, rfl, fun _ _ => rfl⟩

/-- A delivery that is discarded keeps it. -/
theorem Kept.discarded (h : Kept before s) {sig : Int}
    (hnone : (s.signalState sig).handler.isSome = false) :
    Kept (before ++ [.deliver sig]) (s.deliver sig) := by
  obtain ⟨hqueue, hstate, hother⟩ := deliver_discarded hnone
  constructor
  · rw [hstate]
    exact h.known
  · intro x hx
    rw [hstate] at hx
    by_cases heq : x = sig
    · rw [heq, hnone] at hx
      cases hx
    · rw [hother x heq]
      exact h.caught x hx
  · intro x
    rw [hstate, h.counted, owed_deliver]
    refine ⟨fun hx => ⟨Or.inr hx.1, hx.2⟩, ?_⟩
    rintro ⟨heq | hx, hsome⟩
    · rw [heq, hnone] at hsome
      cases hsome
    · exact ⟨hx, hsome⟩
  · rw [hstate, hqueue]
    exact h.queued

/-- A delivery to a handler keeps it, when it is noted. -/
theorem Kept.handled (h : Kept before s) {sig : Int} (hsig : 0 ≤ sig ∧ sig < MAX_SIGNAL)
    (hhandler : (s.signalState sig).handler.isSome = true) (hnoted : s.Noted (.deliver sig)) :
    Kept (before ++ [.deliver sig]) (s.deliver sig) := by
  obtain ⟨hroom, hwrap⟩ := hnoted hhandler
  obtain ⟨hqueue, hstate, haction⟩ :=
    s.commonHandler_registered ⟨hsig.1, Int.le_of_lt hsig.2⟩ hhandler
  have hdeliver : s.deliver sig = s.commonHandler sig := if_pos (h.caught sig hhandler)
  rw [hdeliver]
  have hself : (s.commonHandler sig).signalState sig =
      ⟨(s.signalState sig).cnt + 1, (s.signalState sig).handler⟩ := by
    rw [hstate, Function.update_self]
  have hother : ∀ x, x ≠ sig →
      (s.commonHandler sig).signalState x = s.signalState x ∧
        (s.commonHandler sig).action x = s.action x := by
    intro x hx
    rw [hstate, haction]
    exact ⟨Function.update_of_ne hx _ _, Function.update_of_ne hx _ _⟩
  have hkeeps : ∀ x, x ∈ s.signalQueue → x ∈ (s.commonHandler sig).signalQueue := by
    intro x hx
    rw [hqueue]
    split
    · exact List.mem_append_left _ hx
    · exact hx
  constructor
  · intro x hx
    by_cases heq : x = sig
    · rw [heq]
      exact h.known sig hhandler
    · rw [(hother x heq).1] at hx
      exact h.known x hx
  · intro x hx
    by_cases heq : x = sig
    · rw [haction, heq, Function.update_self]
    · rw [(hother x heq).1] at hx
      rw [(hother x heq).2]
      exact h.caught x hx
  · intro x
    rw [owed_deliver]
    by_cases heq : x = sig
    · subst heq
      rw [hself]
      simpa [hhandler] using (cnt_succ_ne_zero _).mpr hwrap
    · rw [(hother x heq).1, h.counted]
      simp [heq]
  · intro x hx
    by_cases heq : x = sig
    · subst heq
      by_cases hcnt : (s.signalState x).cnt = 0
      · rcases hroom with hin | hlt
        · exact hkeeps x hin
        · rw [hqueue, if_pos ⟨hcnt, hlt⟩]
          exact List.mem_append_right _ (List.mem_singleton_self x)
      · exact hkeeps x (h.queued x hcnt)
    · rw [(hother x heq).1] at hx
      exact hkeeps x (h.queued x hx)

/-- A step that is noted keeps it. -/
theorem Kept.step (h : Kept before s) {e : SignalEvent H} (hnoted : s.Noted e)
    (hstep : s.step e = some s') : Kept (before ++ [e]) s' := by
  unfold Signals.step at hstep
  cases e with
  | register sig handler =>
      dsimp only at hstep
      split at hstep
      · cases hstep
      · obtain rfl := Option.some.inj hstep
        by_cases hsig : 0 ≤ sig ∧ sig ≤ MAX_SIGNAL
        · exact h.register handler hsig
        · -- `spe_signal_register` returns at once
          have hsame : s.register sig handler = s := if_pos (by omega)
          rw [hsame]
          refine ⟨h.known, h.caught, ?_, h.queued⟩
          intro x
          rw [h.counted, owed_append]
          refine and_congr_left fun hx => ?_
          have hne : ∀ handler', SignalEvent.register sig handler ≠ .register x handler' := by
            rintro handler' ⟨⟩
            exact hsig (h.known sig hx)
          constructor
          · exact fun howed => Or.inr ⟨by rintro ⟨⟩, hne, howed⟩
          · rintro (heq | ⟨_, _, howed⟩)
            · cases heq
            · exact howed
  | deliver sig =>
      dsimp only at hstep
      split at hstep
      · obtain rfl := Option.some.inj hstep
        cases hhandler : (s.signalState sig).handler.isSome with
        | false => exact h.discarded hhandler
        | true => exact h.handled ‹_› hhandler hnoted
      · cases hstep
  | process =>
      obtain rfl := Option.some.inj hstep
      exact h.process

/-- A delivery that is not noted breaks the law. -/
theorem Kept.noted_of_law (h : Kept before s) {e : SignalEvent H} (hstep : s.step e = some s')
    (hlaw : ProcessLaw (before ++ [e]) s') : s.Noted e := by
  cases e with
  | deliver sig =>
      intro hhandler
      unfold Signals.step at hstep
      dsimp only at hstep
      split at hstep
      · rename_i hsig
        obtain rfl := Option.some.inj hstep
        obtain ⟨hqueue, hstate, _⟩ :=
          s.commonHandler_registered ⟨hsig.1, Int.le_of_lt hsig.2⟩ hhandler
        have hdeliver : s.deliver sig = s.commonHandler sig := if_pos (h.caught sig hhandler)
        obtain ⟨f, hf⟩ := Option.isSome_iff_exists.mp hhandler
        have hself : (s.deliver sig).signalState sig = ⟨(s.signalState sig).cnt + 1, some f⟩ := by
          rw [hdeliver, hstate, Function.update_self, hf]
        have howed : Owed (before ++ [.deliver sig]) sig :=
          (owed_append before _ sig).mpr (Or.inl rfl)
        have hcalled := (hlaw.calls sig f).mpr ⟨howed, by rw [hself]⟩
        obtain ⟨hmem, hcnt, _⟩ := ((process_spec _).1 sig f).mp hcalled
        rw [hself] at hcnt
        refine ⟨?_, (cnt_succ_ne_zero _).mp hcnt⟩
        rw [hdeliver, hqueue] at hmem
        split at hmem
        · rename_i hroom
          exact Or.inr hroom.2
        · exact Or.inl hmem
      · cases hstep
  | _ => trivial

/-- **No signal is dropped**, wherever `spe_signal_process` is called in a run, exactly when every
delivery finds its signal in the queue or room there, and a counter below `UINT_MAX`. -/
theorem no_signal_dropped {es : List (SignalEvent H)}
    (hrun : Run step anyStep (signalInit : Signals H) es s) :
    (∀ before after s, es = before ++ after → Run step anyStep (signalInit : Signals H) before s →
        ProcessLaw before s) ↔
      Run step Noted (signalInit : Signals H) es s := by
  refine Run.exact_past Kept ProcessLaw hrun kept_init kept_init.law ?_ ?_
  · intro before s e s' h hnoted hstep
    exact h.step hnoted hstep
  · intro before s e s' h _ hstep
    exact ⟨h.noted_of_law hstep, fun hnoted => (h.step hnoted hstep).law⟩

/-- Two deliveries, `spe_signal_process`, and another delivery. -/
theorem no_signal_dropped_again :
    ∃ s, Run step Noted (signalInit : Signals Unit)
        [.register 15 (.handler ()), .deliver 15, .deliver 15, .process, .deliver 15] s ∧
      ProcessLaw
        [.register 15 (.handler ()), .deliver 15, .deliver 15, .process, .deliver 15] s := by
  have hnoted : ∃ s, Run step Noted (signalInit : Signals Unit)
      [.register 15 (.handler ()), .deliver 15, .deliver 15, .process, .deliver 15] s := by
    refine ⟨_, Run.cons rfl trivial (Run.cons rfl ?_ (Run.cons rfl ?_ (Run.cons rfl trivial
      (Run.cons rfl ?_ (Run.nil _)))))⟩
    · exact fun _ => ⟨Or.inr (by decide), by decide⟩
    · exact fun _ => ⟨Or.inl (by decide), by decide⟩
    · exact fun _ => ⟨Or.inr (by decide), by decide⟩
  obtain ⟨s, hnoted⟩ := hnoted
  have hrun : Run step anyStep (signalInit : Signals Unit) _ s :=
    hnoted.mono fun _ _ _ => trivial
  exact ⟨s, hnoted,
    (no_signal_dropped hrun).mpr hnoted _ [] s (List.append_nil _).symm hrun⟩

/-- SIGHUP is registered again after each of 256 deliveries: the queue is full of it, and a SIGTERM
that comes then is never handled. -/
theorem no_signal_dropped_fails :
    ¬ ∀ (es : List (SignalEvent Unit)) (s : Signals Unit),
      Run step anyStep (signalInit : Signals Unit) es s → ProcessLaw es s := by
  intro hall
  have hexec : (exec step (signalInit : Signals Unit)
      (.register 15 (.handler ()) :: .register 1 (.handler ()) ::
        (List.replicate 256 [.deliver 1, .register 1 (.handler ())]).flatten ++
        [.deliver 15])).map (fun s => (s.process.1, (s.signalState 15).handler)) =
      some ([], some ()) := by
    decide +kernel
  obtain ⟨s, hrun, hout⟩ := Option.map_eq_some_iff.mp hexec
  obtain ⟨hcalls, hhandler⟩ := Prod.mk.inj hout
  have hlaw := hall _ s (run_iff_exec.mpr hrun)
  have hcalled := (hlaw.calls 15 ()).mpr
    ⟨(owed_append _ _ _).mpr (Or.inl rfl), hhandler⟩
  rw [hcalls] at hcalled
  cases hcalled

end Signals

end Spe
