import Mathlib.Data.List.Nodup
import Spe.Tpool

/-!
# Handing handlers to pool threads

Before `SpeTpoolDeinit`.  `SpeTpoolDo` tests the free list outside of the lock and takes its
first entry inside of it: between the two another call may take the last thread, and then the
entry is the list head (`last_thread_taken`).

In runs in which every call that takes an entry finds one, the free list holds threads that
nobody has been handed, a thread that is not on it has been handed to one call, and the
handler of that call is in its record until the thread has executed it (`handOff_exact`).
`Phase` follows a thread from the list to its holder and back, `CallOk` a call to its end.
-/

namespace Spe

open Transition

/-- The thread is not created yet, or waits. -/
def ThreadPc.Resting (pc : ThreadPc) : Prop := pc = .unborn ∨ pc = .wait

/-- The call takes no entry of the free list. -/
def CallPc.Alone (pc : CallPc) : Prop := (∀ e, pc ≠ .store e) ∧ ∀ i, pc ≠ .handedOff i

namespace Tpool

variable {C H : Type}

/-- The hand-off is right: what has been taken from the free list are threads of the pool; a
thread is handed to one call at a time, and on the list to none; no handler is executed
twice; and a handler that a call has been promised is executed or still in the record of a
thread. -/
structure HandOff (s : Tpool C) : Prop where
  real : ∀ e ∈ s.taken, ∃ i, e = .thread i ∧ i < s.threadNum
  exclusive : ∀ i, (s.handed i).length ≤ 1
  listed : ∀ i ∈ s.freeList, s.handed i = []
  once : s.executed.Nodup
  kept : ∀ c, (s.calls c).returned = some true →
    c ∈ s.executed ∨ ∃ t, (s.threads t).handler = some c

/-- A call that takes an entry finds one. -/
def FindsThread (s : Tpool C) : PoolEvent C → Prop
  | .call c _ => s.calls c = .pop → s.freeList ≠ []
  | .thread _ => True

/-- A thread that has been handed to a call: where the call is, the handler in the record,
where the thread is, and whether the handler has been executed. -/
inductive Phase (arg : C → Option H) (i : Nat) (c : C) : CallPc → Option C → ThreadPc → Prop → Prop
  | reserved {pc : ThreadPc} {done : Prop} (hpc : pc.Resting) :
      Phase arg i c (.store (.thread i)) none pc done
  | loaded {pc : ThreadPc} {done : Prop}
      (hpc : pc.Resting ∨ (arg c).isSome ∧ (pc = .woken ∨ pc = .call)) (hdone : ¬ done) :
      Phase arg i c (.handedOff i) (some c) pc done
  | serving {pc : ThreadPc} {done : Prop} (hpc : pc = .running ∨ pc = .clear) (hdone : done) :
      Phase arg i c (.handedOff i) (some c) pc done
  | spent {done : Prop} (hdone : done) : Phase arg i c (.handedOff i) none .giveBack done

/-- A pool thread is handed to nobody and waits, or it is in a phase of one call. -/
def PoolOk (arg : C → Option H) (s : Tpool C) (i : Nat) : Prop :=
  (s.handed i = [] ∧ (s.threads (.pool i)).handler = none ∧ (s.threads (.pool i)).pc.Resting) ∨
  ∃ c, i < s.threadNum ∧ s.handed i = [c] ∧
    Phase arg i c (s.calls c) (s.threads (.pool i)).handler (s.threads (.pool i)).pc
      (c ∈ s.executed)

/-- What holds of a call and of the thread of its own. -/
structure CallOk (s : Tpool C) (c : C) : Prop where
  executed : c ∈ s.executed → (s.calls c).returned = some true
  unborn : (s.threads (.once c)).pc ≠ .unborn → s.calls c = .spawned
  record : s.calls c = .create ∨ s.calls c = .spawned → (s.threads (.once c)).handler = some c
  fresh : (s.threads (.once c)).pc = .call → c ∉ s.executed
  store : ∀ e, s.calls c = .store e → ∃ i, e = .thread i ∧ s.handed i = [c]
  handedOff : ∀ i, s.calls c = .handedOff i →
    c ∈ s.executed ∨ s.handed i = [c] ∧ (s.threads (.pool i)).handler = some c

/-- The invariant of the hand-off. -/
structure Inv (arg : C → Option H) (s : Tpool C) : Prop where
  nodup : s.freeList.Nodup
  listed : ∀ i ∈ s.freeList, i < s.threadNum ∧ s.handed i = []
  pool : ∀ i, PoolOk arg s i
  call : ∀ c, CallOk s c
  once : s.executed.Nodup
  real : ∀ e ∈ s.taken, ∃ i, e = .thread i ∧ i < s.threadNum
  nostop : ∀ t, (s.threads t).stop = false

variable {arg : C → Option H} {s s' : Tpool C}

/-- The call that a thread has been handed to knows it. -/
theorem Phase.call {i : Nat} {c : C} {pc : CallPc} {handler : Option C} {tpc : ThreadPc}
    {done : Prop} (h : Phase arg i c pc handler tpc done) :
    pc = .store (.thread i) ∨ pc = .handedOff i := by
  cases h with
  | reserved => exact Or.inl rfl
  | _ => exact Or.inr rfl

/-- A call has given its handler to a thread that has one or does not rest. -/
theorem Phase.handedOff {i : Nat} {c : C} {pc : CallPc} {handler : Option C} {tpc : ThreadPc}
    {done : Prop} (h : Phase arg i c pc handler tpc done)
    (hbusy : handler ≠ none ∨ ¬ tpc.Resting) : pc = .handedOff i := by
  cases h with
  | reserved hrest =>
      rcases hbusy with hset | hpc
      · exact absurd rfl hset
      · exact absurd hrest hpc
  | _ => rfl

/-- The phase of a thread that has been handed over. -/
theorem PoolOk.phase {i : Nat} {c : C} (h : PoolOk arg s i) (hhanded : s.handed i = [c]) :
    i < s.threadNum ∧
    Phase arg i c (s.calls c) (s.threads (.pool i)).handler (s.threads (.pool i)).pc
      (c ∈ s.executed) := by
  rcases h with ⟨hnone, _⟩ | ⟨d, hbound, hd, hphase⟩
  · simp [hnone] at hhanded
  · obtain rfl : d = c := by simpa [hd] using hhanded
    exact ⟨hbound, hphase⟩

/-- The invariant gives the property. -/
theorem Inv.handOff (h : Inv arg s) : s.HandOff where
  real := h.real
  exclusive i := by
    rcases h.pool i with ⟨hnone, _⟩ | ⟨c, _, hc, _⟩
    · simp [hnone]
    · simp [hc]
  listed i hi := (h.listed i hi).2
  once := h.once
  kept c hret := by
    cases hpc : s.calls c with
    | handedOff i =>
        rcases (h.call c).handedOff i hpc with hdone | ⟨_, hkept⟩
        · exact Or.inl hdone
        · exact Or.inr ⟨.pool i, hkept⟩
    | spawned => exact Or.inr ⟨.once c, (h.call c).record (Or.inr hpc)⟩
    | _ => simp [hpc, CallPc.returned] at hret

variable [DecidableEq C]

/-- The pool that `SpeTpoolInit` leaves. -/
theorem inv_start (arg : C → Option H) (n : Nat) : Inv arg (start C n) := by
  rw [start_eq]
  constructor
  · exact List.nodup_range
  · exact fun i hi => ⟨List.mem_range.mp hi, rfl⟩
  · intro i
    refine Or.inl ⟨rfl, rfl, ?_⟩
    dsimp only
    split
    · exact Or.inr rfl
    · exact Or.inl rfl
  · intro c
    constructor <;> simp [zeroed]
  · exact List.nodup_nil
  · simp [zeroed]
  · exact fun _ => rfl

omit [DecidableEq C] in
/-- The invariant when a step changes one thread of the pool at most, and one call with the
thread of its own. -/
theorem Inv.change (h : Inv arg s) (i : Option Nat) (c : C)
    (hnum : s'.threadNum = s.threadNum)
    (hpools : ∀ j, i ≠ some j →
      s'.threads (.pool j) = s.threads (.pool j) ∧ s'.handed j = s.handed j)
    (hcalls : ∀ d, d ≠ c → s'.calls d = s.calls d ∧
      s'.threads (.once d) = s.threads (.once d) ∧ (d ∈ s'.executed ↔ d ∈ s.executed))
    (hheld : ∀ j d, s.handed j = [d] → (i = some j ↔ d = c))
    (hpool : ∀ j, i = some j → PoolOk arg s' j) (hcall : CallOk s' c)
    (hnodup : s'.freeList.Nodup) (hlisted : ∀ j ∈ s'.freeList, j < s.threadNum ∧ s'.handed j = [])
    (honce : s'.executed.Nodup) (hreal : ∀ e ∈ s'.taken, ∃ j, e = .thread j ∧ j < s.threadNum)
    (hstop : ∀ t, (s'.threads t).stop = (s.threads t).stop) : Inv arg s' where
  nodup := hnodup
  listed := hnum ▸ hlisted
  once := honce
  real := hnum ▸ hreal
  nostop t := (hstop t).trans (h.nostop t)
  pool j := by
    by_cases hj : i = some j
    · exact hpool j hj
    · obtain ⟨hthread, hhanded⟩ := hpools j hj
      rcases h.pool j with hfree | ⟨d, hbound, hd, hphase⟩
      · exact Or.inl (by rwa [hthread, hhanded])
      · obtain ⟨hcalld, _, hexec⟩ := hcalls d (fun hdc => hj ((hheld j d hd).mpr hdc))
        refine Or.inr ⟨d, hnum ▸ hbound, hhanded.trans hd, ?_⟩
        rwa [hcalld, hthread, propext hexec]
  call d := by
    by_cases hd : d = c
    · rwa [hd]
    · obtain ⟨hcalld, hthread, hexec⟩ := hcalls d hd
      have hfar : ∀ j, s.handed j = [d] →
          s'.handed j = [d] ∧ s'.threads (.pool j) = s.threads (.pool j) := by
        intro j hj
        obtain ⟨hsame, hhanded⟩ := hpools j (fun hij => hd ((hheld j d hj).mp hij))
        exact ⟨hhanded.trans hj, hsame⟩
      have hok := h.call d
      constructor
      · rw [hexec, hcalld]
        exact hok.executed
      · rw [hthread, hcalld]
        exact hok.unborn
      · rw [hthread, hcalld]
        exact hok.record
      · rw [hthread, hexec]
        exact hok.fresh
      · intro e he
        obtain ⟨j, hej, hj⟩ := hok.store e (hcalld ▸ he)
        exact ⟨j, hej, (hfar j hj).1⟩
      · intro j hj
        rcases hok.handedOff j (hcalld ▸ hj) with hdone | ⟨hhanded, hkept⟩
        · exact Or.inl (hexec.mpr hdone)
        · obtain ⟨hhanded', hsame⟩ := hfar j hhanded
          exact Or.inr ⟨hhanded', hsame ▸ hkept⟩

omit [DecidableEq C] in
/-- A call that takes no entry has been handed no thread. -/
theorem Inv.not_handed (h : Inv arg s) {c : C} (hc : (s.calls c).Alone) (j : Nat) :
    s.handed j ≠ [c] := by
  intro hj
  rcases ((h.pool j).phase hj).2.call with hstore | hoff
  · exact hc.1 _ hstore
  · exact hc.2 _ hoff

omit [DecidableEq C] in
/-- A thread that has a handler or does not rest has been handed to a call, which has given
it the handler. -/
theorem Inv.holder (h : Inv arg s) {i : Nat}
    (hbusy : (s.threads (.pool i)).handler ≠ none ∨ ¬ (s.threads (.pool i)).pc.Resting) :
    ∃ c, s.handed i = [c] ∧ s.calls c = .handedOff i ∧ i < s.threadNum ∧
      Phase arg i c (s.calls c) (s.threads (.pool i)).handler (s.threads (.pool i)).pc
        (c ∈ s.executed) := by
  rcases h.pool i with ⟨_, hnone, hrest⟩ | ⟨c, hbound, hhanded, hphase⟩
  · rcases hbusy with hset | hpc
    · exact absurd hnone hset
    · exact absurd hrest hpc
  · exact ⟨c, hhanded, hphase.handedOff hbusy, hbound, hphase⟩

omit [DecidableEq C] in
/-- A step of a call that takes no entry, or of the thread of its own. -/
theorem Inv.alone (h : Inv arg s) {c : C} (hc : (s.calls c).Alone)
    (hnum : s'.threadNum = s.threadNum) (hlist : s'.freeList = s.freeList)
    (hhanded : s'.handed = s.handed) (htaken : s'.taken = s.taken)
    (hpools : ∀ j, s'.threads (.pool j) = s.threads (.pool j))
    (hcalls : ∀ d, d ≠ c → s'.calls d = s.calls d ∧
      s'.threads (.once d) = s.threads (.once d) ∧ (d ∈ s'.executed ↔ d ∈ s.executed))
    (hcall : CallOk s' c) (honce : s'.executed.Nodup)
    (hstop : (s'.threads (.once c)).stop = false) : Inv arg s' := by
  refine h.change none c hnum (fun j _ => ⟨hpools j, by rw [hhanded]⟩) hcalls ?_ (by simp) hcall
    (hlist ▸ h.nodup) (by rw [hlist, hhanded]; exact h.listed) honce (htaken ▸ h.real) ?_
  · intro j d hd
    refine iff_of_false (by simp) ?_
    rintro rfl
    exact h.not_handed hc j hd
  · intro t
    cases t with
    | pool j => rw [hpools j]
    | once d =>
        by_cases hd : d = c
        · rw [hd, hstop, h.nostop]
        · rw [(hcalls d hd).2.1]

omit [DecidableEq C] in
/-- A step of a thread that has been handed to a call, or of that call. -/
theorem Inv.held (h : Inv arg s) {i : Nat} {c : C} (hc : s.handed i = [c])
    (hnum : s'.threadNum = s.threadNum) (htaken : s'.taken = s.taken)
    (hpools : ∀ j, j ≠ i → s'.threads (.pool j) = s.threads (.pool j) ∧
      s'.handed j = s.handed j)
    (hcalls : ∀ d, d ≠ c → s'.calls d = s.calls d ∧ (d ∈ s'.executed ↔ d ∈ s.executed))
    (honces : ∀ d, s'.threads (.once d) = s.threads (.once d))
    (hpool : PoolOk arg s' i) (hcall : CallOk s' c) (hnodup : s'.freeList.Nodup)
    (hlisted : ∀ j ∈ s'.freeList, j < s.threadNum ∧ s'.handed j = []) (honce : s'.executed.Nodup)
    (hstop : (s'.threads (.pool i)).stop = false) : Inv arg s' := by
  refine h.change (some i) c hnum (fun j hj => hpools j (fun heq => hj (heq ▸ rfl)))
    (fun d hd => ⟨(hcalls d hd).1, honces d, (hcalls d hd).2⟩) ?_ ?_ hcall hnodup hlisted honce
    (htaken ▸ h.real) ?_
  · intro j d hd
    constructor
    · intro hij
      obtain rfl := Option.some.inj hij
      simpa [hc] using hd.symm
    · rintro rfl
      have hi := ((h.pool i).phase hc).2.call
      have hj := ((h.pool j).phase hd).2.call
      grind
  · intro j hj
    obtain rfl := Option.some.inj hj
    exact hpool
  · intro t
    cases t with
    | once d => rw [honces d]
    | pool j =>
        by_cases hj : j = i
        · rw [hj, hstop, h.nostop]
        · rw [(hpools j hj).1]

omit [DecidableEq C] in
/-- A call whose handler is in the record of a pool thread. -/
theorem CallOk.pooled {i : Nat} {c : C} (h : CallOk s c) (hpc : s.calls c = .store (.thread i) ∨
    s.calls c = .handedOff i) (honce : s'.threads (.once c) = s.threads (.once c))
    (hoff : s'.calls c = .handedOff i)
    (hkept : c ∈ s'.executed ∨ s'.handed i = [c] ∧ (s'.threads (.pool i)).handler = some c) :
    CallOk s' c := by
  have hunborn : (s'.threads (.once c)).pc = .unborn := by
    rw [honce]
    by_contra hborn
    rcases hpc with hpc | hpc <;> cases (h.unborn hborn).symm.trans hpc
  constructor
  · exact fun _ => by rw [hoff]; rfl
  · exact fun hborn => absurd hunborn hborn
  · simp [hoff]
  · simp [hunborn]
  · simp [hoff]
  · intro j hj
    obtain rfl : i = j := by simpa [hoff] using hj
    exact hkept

section PoolThread

variable {i : Nat} {c : C} {pc : CallPc} {handler : Option C} {tpc : ThreadPc} {done : Prop}

omit [DecidableEq C]

/-- A thread that waits is woken when it has its handler. -/
theorem Phase.wake (h : Phase arg i c pc handler tpc done) (hpc : tpc = .wait)
    (hset : (handler.bind arg).isSome) : Phase arg i c pc handler .woken done := by
  subst hpc
  cases h with
  | reserved => simp at hset
  | loaded _ hdone => exact .loaded (Or.inr ⟨hset, Or.inl rfl⟩) hdone
  | serving hpc => simp at hpc

/-- A thread that is not stopped goes on to its handler. -/
theorem Phase.testStop (h : Phase arg i c pc handler tpc done) (hpc : tpc = .woken) :
    Phase arg i c pc handler .call done := by
  subst hpc
  cases h with
  | reserved hrest => simp [ThreadPc.Resting] at hrest
  | loaded hpc hdone =>
      rcases hpc with hrest | ⟨hset, _⟩
      · simp [ThreadPc.Resting] at hrest
      · exact .loaded (Or.inr ⟨hset, Or.inr rfl⟩) hdone
  | serving hpc => simp at hpc

/-- A thread calls the handler of the call that it has been handed to, for the first time. -/
theorem Phase.handlerCall (h : Phase arg i c pc handler tpc done) (hpc : tpc = .call) :
    handler = some c ∧ (arg c).isSome ∧ ¬ done ∧ Phase arg i c pc handler .running True := by
  subst hpc
  cases h with
  | reserved hrest => simp [ThreadPc.Resting] at hrest
  | loaded hpc hdone =>
      rcases hpc with hrest | ⟨hset, _⟩
      · simp [ThreadPc.Resting] at hrest
      · exact ⟨rfl, hset, hdone, .serving (Or.inl rfl) trivial⟩
  | serving hpc => simp at hpc

/-- The handler returns. -/
theorem Phase.handlerRet (h : Phase arg i c pc handler tpc done) (hpc : tpc = .running) :
    done ∧ Phase arg i c pc handler .clear done := by
  subst hpc
  cases h with
  | reserved hrest => simp [ThreadPc.Resting] at hrest
  | loaded hpc => simp [ThreadPc.Resting] at hpc
  | serving _ hdone => exact ⟨hdone, .serving (Or.inr rfl) hdone⟩

/-- The thread forgets its handler, which it has executed. -/
theorem Phase.clear (h : Phase arg i c pc handler tpc done) (hpc : tpc = .clear) :
    done ∧ Phase arg i c pc none .giveBack done := by
  subst hpc
  cases h with
  | reserved hrest => simp [ThreadPc.Resting] at hrest
  | loaded hpc => simp [ThreadPc.Resting] at hpc
  | serving _ hdone => exact ⟨hdone, .spent hdone⟩

/-- A thread that goes back to the free list has executed its handler. -/
theorem Phase.giveBack (h : Phase arg i c pc handler tpc done) (hpc : tpc = .giveBack) :
    handler = none ∧ done := by
  subst hpc
  cases h with
  | reserved hrest => simp [ThreadPc.Resting] at hrest
  | loaded hpc => simp [ThreadPc.Resting] at hpc
  | serving hpc => simp at hpc
  | spent hdone => exact ⟨rfl, hdone⟩

/-- No thread of the pool quits. -/
theorem Phase.stays (h : Phase arg i c pc handler tpc done) :
    tpc ≠ .quit ∧ tpc ≠ .destroy ∧ tpc ≠ .free := by
  cases h with
  | reserved hrest => rcases hrest with rfl | rfl <;> simp
  | loaded hpc => rcases hpc with (rfl | rfl) | ⟨_, rfl | rfl⟩ <;> simp
  | serving hpc => rcases hpc with rfl | rfl <;> simp
  | spent => simp

end PoolThread

/-- A step of a pool thread within a phase of its holder. -/
theorem Inv.setThread (h : Inv arg s) {i : Nat} {c : C} (hc : s.handed i = [c])
    (hoff : s.calls c = .handedOff i) {th : Thread C}
    (hphase : Phase arg i c (s.calls c) th.handler th.pc (c ∈ s.executed))
    (hkept : c ∈ s.executed ∨ th.handler = some c) (hstop : th.stop = false) :
    Inv arg (s.setThread (.pool i) th) := by
  refine h.held hc rfl rfl (fun j hj => ⟨?_, rfl⟩) (fun d _ => ⟨rfl, Iff.rfl⟩) (fun d => ?_)
    (Or.inr ⟨c, ((h.pool i).phase hc).1, hc, ?_⟩) ?_ h.nodup h.listed h.once ?_
  · simp [hj]
  · simp
  · simpa using hphase
  · exact (h.call c).pooled (Or.inr hoff) (by simp) hoff (by simpa [hc] using hkept)
  · simpa using hstop

omit [DecidableEq C] in
/-- The handler of a call that has not returned has not been executed. -/
theorem CallOk.notYet {c : C} (h : CallOk s c) (hpc : (s.calls c).returned = none) :
    c ∉ s.executed := by
  intro hdone
  rw [h.executed hdone] at hpc
  cases hpc

omit [DecidableEq C] in
/-- A call that has not returned has no thread of its own. -/
theorem CallOk.noThread {c : C} (h : CallOk s c) (hpc : (s.calls c).returned = none) :
    (s.threads (.once c)).pc = .unborn := by
  by_contra hborn
  rw [h.unborn hborn] at hpc
  cases hpc

/-- A step of a call that takes no free thread. -/
theorem Inv.move (h : Inv arg s) {c : C} {pc : CallPc}
    (hpc : s.calls c = .idle ∨ s.calls c = .test ∨ s.calls c = .alloc)
    (hnext : pc = .test ∨ pc = .pop ∨ pc = .alloc ∨ pc = .failed ∨ pc = .init)
    (allocated : List (TpoolBlock C)) :
    Inv arg { s.setCall c pc with allocated := allocated } := by
  have halone : (s.calls c).Alone := by
    rcases hpc with hpc | hpc | hpc <;> simp [hpc, CallPc.Alone]
  have hret : (s.calls c).returned = none := by
    rcases hpc with hpc | hpc | hpc <;> simp [hpc, CallPc.returned]
  have hfresh := (h.call c).notYet hret
  have hunborn := (h.call c).noThread hret
  refine h.alone halone rfl rfl rfl rfl (fun _ => rfl) ?_ ?_ h.once (h.nostop _)
  · intro d hd
    simp [hd]
  · constructor
    · exact fun hdone => absurd hdone hfresh
    · exact fun hborn => absurd hunborn hborn
    · rcases hnext with rfl | rfl | rfl | rfl | rfl <;> simp
    · exact fun _ => hfresh
    · rcases hnext with rfl | rfl | rfl | rfl | rfl <;> simp
    · rcases hnext with rfl | rfl | rfl | rfl | rfl <;> simp

/-- A call takes the first thread of the free list. -/
theorem Inv.take (h : Inv arg s) {c : C} {i : Nat} {rest : List Nat} (hpc : s.calls c = .pop)
    (hlist : s.freeList = i :: rest) :
    Inv arg { s.setCall c (.store (.thread i)) with
      freeList := rest
      handed := Function.update s.handed i (s.handed i ++ [c])
      taken := s.taken ++ [.thread i] } := by
  have halone : (s.calls c).Alone := by simp [hpc, CallPc.Alone]
  have hret : (s.calls c).returned = none := by simp [hpc, CallPc.returned]
  have hfresh := (h.call c).notYet hret
  have hunborn := (h.call c).noThread hret
  have hnodup : i ∉ rest ∧ rest.Nodup := List.nodup_cons.mp (hlist ▸ h.nodup)
  obtain ⟨hbound, hnone⟩ := h.listed i (by simp [hlist])
  have hhanded : Function.update s.handed i (s.handed i ++ [c]) i = [c] := by simp [hnone]
  refine h.change (some i) c rfl ?_ ?_ ?_ ?_ ?_ hnodup.2 ?_ h.once ?_ (fun _ => rfl)
  · intro j hj
    have hne : j ≠ i := fun heq => hj (heq ▸ rfl)
    simp [hne]
  · intro d hd
    simp [hd]
  · intro j d hd
    constructor
    · intro hij
      obtain rfl := Option.some.inj hij
      simp [hnone] at hd
    · rintro rfl
      exact absurd hd (h.not_handed halone j)
  · intro j hj
    obtain rfl := Option.some.inj hj
    refine Or.inr ⟨c, hbound, hhanded, ?_⟩
    rcases h.pool i with ⟨_, hhandler, hrest⟩ | ⟨d, _, hd, _⟩
    · simpa [hhandler] using Phase.reserved hrest
    · simp [hnone] at hd
  · constructor
    · exact fun hdone => absurd hdone hfresh
    · exact fun hborn => absurd hunborn hborn
    · simp
    · exact fun _ => hfresh
    · intro e he
      obtain rfl : FreeEntry.thread i = e := by simpa using he
      exact ⟨i, rfl, hhanded⟩
    · simp
  · intro j hj
    have hne : j ≠ i := fun heq => hnodup.1 (heq ▸ hj)
    simpa [hne] using h.listed j (by simp [hlist, hj])
  · intro e he
    rcases List.mem_append.mp he with he | he
    · exact h.real e he
    · exact ⟨i, List.mem_singleton.mp he, hbound⟩

/-- A call gives its handler to the thread that it has taken. -/
theorem Inv.setHandler (h : Inv arg s) {c : C} {i : Nat} (hpc : s.calls c = .store (.thread i)) :
    Inv arg (s.setHandler c i) := by
  obtain ⟨j, hij, hc⟩ := (h.call c).store _ hpc
  obtain rfl : i = j := by simpa using hij
  have hfresh := (h.call c).notYet (by simp [hpc, CallPc.returned])
  obtain ⟨hbound, hphase⟩ := (h.pool i).phase hc
  have hrest : (s.threads (.pool i)).pc.Resting := by
    by_contra hbusy
    cases hpc.symm.trans (hphase.handedOff (Or.inr hbusy))
  refine h.held hc rfl rfl (fun j hj => ⟨?_, rfl⟩) ?_ ?_ ?_ ?_ h.nodup h.listed h.once ?_
  · simp [hj]
  · intro d hd
    simp [hd]
  · simp
  · refine Or.inr ⟨c, hbound, hc, ?_⟩
    simpa using Phase.loaded (Or.inl hrest) hfresh
  · exact (h.call c).pooled (Or.inl hpc) (by simp) (by simp) (by simp [hc])
  · simpa using h.nostop (.pool i)

/-- A call prepares the thread that it has allocated. -/
theorem Inv.init (h : Inv arg s) {c : C} (hpc : s.calls c = .init) :
    Inv arg ((s.threadInit (.once c) (some c)).setCall c .create) := by
  have hret : (s.calls c).returned = none := by simp [hpc, CallPc.returned]
  have hfresh := (h.call c).notYet hret
  have hunborn := (h.call c).noThread hret
  have halone : (s.calls c).Alone := by simp [hpc, CallPc.Alone]
  refine h.alone halone rfl rfl rfl rfl ?_ ?_ ?_ h.once (by simp)
  · simp
  · intro d hd
    simp [hd]
  · constructor
    · exact fun hdone => absurd hdone hfresh
    · simp [hunborn]
    · simp
    · exact fun _ => hfresh
    · simp
    · simp

/-- A call starts the thread that it has allocated. -/
theorem Inv.create (h : Inv arg s) {c : C} {ok : Bool} (hpc : s.calls c = .create) :
    Inv arg ((if ok then s.setPc (.once c) .call else s).setCall c .spawned) := by
  have hfresh := (h.call c).notYet (by simp [hpc, CallPc.returned])
  have hrecord := (h.call c).record (Or.inl hpc)
  have hstop := h.nostop (.once c)
  have halone : (s.calls c).Alone := by simp [hpc, CallPc.Alone]
  cases ok with
  | true =>
      refine h.alone halone rfl rfl rfl rfl ?_ ?_ ?_ h.once ?_
      · simp
      · intro d hd
        simp [hd]
      · constructor
        · exact fun hdone => absurd hdone hfresh
        · simp
        · simpa using hrecord
        · exact fun _ => hfresh
        · simp
        · simp
      · simpa using hstop
  | false =>
      refine h.alone halone rfl rfl rfl rfl ?_ ?_ ?_ h.once hstop
      · simp
      · intro d hd
        simp [hd]
      · constructor
        · exact fun hdone => absurd hdone hfresh
        · simp
        · simpa using hrecord
        · exact fun _ => hfresh
        · simp
        · simp

/-- A thread calls the handler in its record. -/
theorem Inv.handlerCall (h : Inv arg s) {t : ThreadId C} (hpc : (s.threads t).pc = .call) :
    Inv arg (s.handlerCall arg t) := by
  cases t with
  | pool i =>
      obtain ⟨c, hc, hoff, hbound, hphase⟩ :=
        h.holder (i := i) (Or.inr (by simp [hpc, ThreadPc.Resting]))
      obtain ⟨hhandler, hset, hfresh, hnext⟩ := hphase.handlerCall hpc
      have hexec : (s.handlerCall arg (.pool i)).executed = s.executed ++ [c] := by
        simp [hhandler, hset]
      refine h.held hc rfl rfl ?_ ?_ ?_ ?_ ?_ h.nodup h.listed ?_ ?_
      · intro j hj
        simp [hj]
      · intro d hd
        rw [hexec]
        simp [hd]
      · simp
      · refine Or.inr ⟨c, hbound, hc, ?_⟩
        rw [hexec]
        simpa using hnext
      · exact (h.call c).pooled (Or.inr hoff) (by simp) hoff (Or.inl (by rw [hexec]; simp))
      · rw [hexec]
        exact h.once.append (List.nodup_singleton c) (by simpa using hfresh)
      · simpa using h.nostop (.pool i)
  | once c =>
      have hok := h.call c
      have hspawned := hok.unborn (by simp [hpc])
      have hrecord := hok.record (Or.inr hspawned)
      have hfresh := hok.fresh hpc
      have halone : (s.calls c).Alone := by simp [hspawned, CallPc.Alone]
      have hexec : (s.handlerCall arg (.once c)).executed =
          s.executed ++ [c].filter (fun d => (arg d).isSome) := by
        simp [hrecord]
      refine h.alone halone rfl rfl rfl rfl ?_ ?_ ?_ ?_ ?_
      · simp
      · intro d hd
        rw [hexec]
        simp [hd]
      · constructor
        · intro _
          simp [hspawned, CallPc.returned]
        · exact fun _ => hspawned
        · simpa using hok.record
        · simp
        · simp [hspawned]
        · simp [hspawned]
      · rw [hexec]
        refine h.once.append ((List.nodup_singleton c).filter _) ?_
        intro d hd hmem
        obtain rfl := List.mem_singleton.mp (List.mem_filter.mp hmem).1
        exact hfresh hd
      · simpa using h.nostop (.once c)

/-- A thread goes back to the free list. -/
theorem Inv.giveBack (h : Inv arg s) {i : Nat} (hpc : (s.threads (.pool i)).pc = .giveBack) :
    Inv arg { s.setPc (.pool i) .wait with
      freeList := s.freeList ++ [i]
      handed := Function.update s.handed i [] } := by
  obtain ⟨c, hc, hoff, hbound, hphase⟩ :=
    h.holder (i := i) (Or.inr (by simp [hpc, ThreadPc.Resting]))
  obtain ⟨hnone, hdone⟩ := hphase.giveBack hpc
  have hout : i ∉ s.freeList := by
    intro hi
    simp [(h.listed i hi).2] at hc
  refine h.held hc rfl rfl ?_ (fun d _ => ⟨rfl, Iff.rfl⟩) ?_ ?_ ?_ ?_ ?_ h.once ?_
  · intro j hj
    simp [hj]
  · simp
  · exact Or.inl (by simp [hnone, ThreadPc.Resting])
  · exact (h.call c).pooled (Or.inr hoff) (by simp) hoff (Or.inl hdone)
  · exact h.nodup.append (List.nodup_singleton i) (by simpa using hout)
  · intro j hj
    rcases List.mem_append.mp hj with hj | hj
    · have hne : j ≠ i := fun heq => hout (heq ▸ hj)
      simpa [hne] using h.listed j hj
    · obtain rfl := List.mem_singleton.mp hj
      exact ⟨hbound, by simp⟩
  · simpa using h.nostop (.pool i)

/-- A thread that a call has allocated goes on behind its handler. -/
theorem Inv.oncePc (h : Inv arg s) {c : C} {pc : ThreadPc}
    (hborn : (s.threads (.once c)).pc ≠ .unborn) (hnext : pc ≠ .call) (threadRun : UInt32)
    (freed : List (TpoolBlock C)) :
    Inv arg { s.setPc (.once c) pc with threadRun := threadRun, freed := freed } := by
  have hok := h.call c
  have hspawned := hok.unborn hborn
  have halone : (s.calls c).Alone := by simp [hspawned, CallPc.Alone]
  refine h.alone halone rfl rfl rfl rfl ?_ ?_ ?_ h.once ?_
  · simp
  · intro d hd
    simp [hd]
  · constructor
    · exact hok.executed
    · exact fun _ => hspawned
    · simpa using hok.record
    · simp [hnext]
    · simp [hspawned]
    · simp [hspawned]
  · simpa using h.nostop (.once c)

/-- A pool thread is woken by its handler. -/
theorem Inv.wake (h : Inv arg s) {i : Nat} (hpc : (s.threads (.pool i)).pc = .wait)
    (hset : ((s.threads (.pool i)).handler.bind arg).isSome ∨ (s.threads (.pool i)).stop) :
    Inv arg (s.setPc (.pool i) .woken) := by
  have hset : ((s.threads (.pool i)).handler.bind arg).isSome := by
    rcases hset with hset | hstop
    · exact hset
    · simp [h.nostop] at hstop
  have hbusy : (s.threads (.pool i)).handler ≠ none := by
    intro hnone
    simp [hnone] at hset
  obtain ⟨c, hc, hoff, _, hphase⟩ := h.holder (Or.inl hbusy)
  have hkept := (h.call c).handedOff i hoff
  exact h.setThread hc hoff (hphase.wake hpc hset) (hkept.imp_right And.right) (h.nostop _)

omit [DecidableEq C] in
/-- No thread of the pool is about to quit. -/
theorem Inv.stays (h : Inv arg s) (i : Nat) :
    (s.threads (.pool i)).pc ≠ .quit ∧ (s.threads (.pool i)).pc ≠ .destroy ∧
    (s.threads (.pool i)).pc ≠ .free := by
  rcases h.pool i with ⟨_, _, hrest⟩ | ⟨_, _, _, hphase⟩
  · rcases hrest with hpc | hpc <;> simp [hpc]
  · exact hphase.stays

/-- **Step lemma.**  A step keeps the invariant, if a call that takes an entry finds one. -/
theorem Inv.step (h : Inv arg s) {ev : PoolEvent C} (hok : s.FindsThread ev)
    (hstep : s.poolStep arg ev = some s') : Inv arg s' := by
  cases poolStep_effect hstep with
  | move hpc hnext =>
      refine h.move hpc ?_ s.allocated
      rcases hnext with rfl | rfl | rfl | rfl <;> simp
  | take hpc hlist => exact h.take hpc hlist
  | takeHead hpc hlist => exact absurd hlist (hok hpc)
  | setHandler hpc => exact h.setHandler hpc
  | alloc hpc => exact h.move (Or.inr (Or.inr hpc)) (by simp) _
  | init hpc => exact h.init hpc
  | create hpc => exact h.create hpc
  | wake hpc hset => exact h.wake hpc hset
  | @testStop i hpc =>
      obtain ⟨c, hc, hoff, _, hphase⟩ :=
        h.holder (i := i) (Or.inr (by simp [hpc, ThreadPc.Resting]))
      have hkept := (h.call c).handedOff i hoff
      rw [h.nostop, if_neg Bool.false_ne_true]
      exact h.setThread hc hoff (hphase.testStop hpc) (hkept.imp_right And.right) (h.nostop _)
  | handlerCall hpc => exact h.handlerCall hpc
  | @handlerRet i hpc =>
      obtain ⟨c, hc, hoff, _, hphase⟩ :=
        h.holder (i := i) (Or.inr (by simp [hpc, ThreadPc.Resting]))
      obtain ⟨hdone, hnext⟩ := hphase.handlerRet hpc
      exact h.setThread hc hoff hnext (Or.inl hdone) (h.nostop _)
  | @onceRet c hpc => exact h.oncePc (by simp [hpc]) (by simp) s.threadRun s.freed
  | @clear i hpc =>
      obtain ⟨c, hc, hoff, _, hphase⟩ :=
        h.holder (i := i) (Or.inr (by simp [hpc, ThreadPc.Resting]))
      obtain ⟨hdone, hnext⟩ := hphase.clear hpc
      exact h.setThread hc hoff hnext (Or.inl hdone) (h.nostop _)
  | giveBack hpc => exact h.giveBack hpc
  | @quit t hpc =>
      cases t with
      | pool i => exact absurd hpc (h.stays i).1
      | once c => exact h.oncePc (by simp [hpc]) (by simp) _ s.freed
  | @destroy t hpc =>
      cases t with
      | pool i => exact absurd hpc (h.stays i).2.1
      | once c => exact h.oncePc (by simp [hpc]) (by simp) s.threadRun s.freed
  | @free t hpc =>
      cases t with
      | pool i => exact absurd hpc (h.stays i).2.2
      | once c => exact h.oncePc (by simp [hpc]) (by simp) s.threadRun _

/-- A step after which the hand-off is right is one in which a call that takes an entry finds
one. -/
theorem findsThread_of_real {ev : PoolEvent C} (hstep : s.poolStep arg ev = some s')
    (hreal : ∀ e ∈ s'.taken, ∃ i, e = .thread i ∧ i < s'.threadNum) : s.FindsThread ev := by
  cases ev with
  | thread t => trivial
  | call c ok =>
      intro hpc hlist
      cases poolStep_effect hstep with
      | takeHead =>
          obtain ⟨i, hi, _⟩ := hreal .head (by simp)
          cases hi
      | take _ hcons => simp [hlist] at hcons
      | move hother => simp [hpc] at hother
      | setHandler hother => cases hpc.symm.trans hother
      | alloc hother => cases hpc.symm.trans hother
      | init hother => cases hpc.symm.trans hother
      | create hother => cases hpc.symm.trans hother

/-- **Hand-off.**  In a run of any number of calls and of the threads of a pool of any size,
the hand-off is right in every state reached if and only if every call that takes an entry of
the free list finds one. -/
theorem handOff_exact {n : Nat} {es : List (PoolEvent C)}
    (h : Run (poolStep arg) anyStep (start C n) es s) :
    (∀ fs gs m, es = fs ++ gs → Run (poolStep arg) anyStep (start C n) fs m → m.HandOff) ↔
      Run (poolStep arg) FindsThread (start C n) es s := by
  refine h.exact (Inv arg) HandOff (inv_start arg n) (inv_start arg n).handOff ?_ ?_
  · exact fun _ _ _ hinv hok hstep => hinv.step hok hstep
  · intro s ev s' hinv _ hstep
    constructor
    · exact fun hgood => findsThread_of_real hstep hgood.real
    · exact fun hok => (hinv.step hok hstep).handOff

/-- The handlers of two calls. -/
def twoHandlers : Bool → Option Unit := fun _ => some ()

/-- Two calls find the one thread of the pool free, and both go on to take it. -/
def twoTests : List (PoolEvent Bool) :=
  [.call false true, .call false true, .call true true, .call true true, .call false true,
    .call true true]

/-- The second of two calls takes the list head for a thread. -/
theorem last_thread_taken :
    ∃ s, exec (poolStep twoHandlers) (start Bool 1) twoTests = some s ∧
      s.taken = [.thread 0, .head] ∧ ¬ s.HandOff := by
  refine ⟨_, rfl, rfl, ?_⟩
  intro h
  obtain ⟨i, hi, _⟩ := h.real .head (by decide)
  cases hi

/-- A call hands its handler to a thread, which executes it and goes back to the list. -/
def served : List (PoolEvent Bool) :=
  List.replicate 4 (.call false true) ++ List.replicate 6 (.thread (.pool 0))

/-- A call that is served. -/
theorem served_exact :
    ∃ s, exec (poolStep twoHandlers) (start Bool 1) served = some s ∧ s.executed = [false] ∧
      ((∀ fs gs m, served = fs ++ gs →
        Run (poolStep twoHandlers) anyStep (start Bool 1) fs m → m.HandOff) ↔
      Run (poolStep twoHandlers) FindsThread (start Bool 1) served s) :=
  ⟨_, rfl, rfl, handOff_exact (run_iff_exec.mpr rfl)⟩

end Tpool

end Spe
