import Mathlib.Logic.Function.Basic
import Mathlib.Tactic.Simps.Basic
import Spe.Transition

/-!
# The thread pool (`spe_tpool.c`)

The pool threads are the elements of `gTpool->threads`; a call of `SpeTpoolDo` that finds no
free one allocates a thread of its own (`ThreadId`).  The parties are the calls of
`SpeTpoolDo`, the threads, and one call of `SpeTpoolDeinit`; there may be any number of calls
and of pool threads.  A step of a party is one section under a lock or one access to shared
data outside of a lock.

`list_first_entry` never answers `NULL`: on an empty list it makes a thread out of the list
head (`FreeEntry.head`).  What lies there is not a `spe_thread_t`, and the model follows a call
no further when it writes to it.  A step that reads through `gTpool` when it is `NULL` ends the
process: there is no such step.

The fields from `handed` on are history; no function reads them.
-/

namespace Spe

open Transition

/-- A thread: an element of `gTpool->threads`, or the one that a call has allocated. -/
inductive ThreadId (C : Type)
  | pool (i : Nat)
  | once (c : C)
  deriving DecidableEq

/-- What `list_first_entry` takes from the free list. -/
inductive FreeEntry
  | thread (i : Nat)
  | head
  deriving DecidableEq

/-- Blocks that are allocated or freed: the pool, and the records of the threads. -/
inductive TpoolBlock (C : Type)
  | pool
  | record (t : ThreadId C)
  deriving DecidableEq

/-- Where a thread is. -/
inductive ThreadPc
  /-- not created -/
  | unborn
  /-- before or in `pthread_cond_wait` -/
  | wait
  /-- before the test of `stop` -/
  | woken
  /-- before `SPE_HANDLER_CALL` -/
  | call
  /-- in the handler -/
  | running
  /-- before the handler is set to `SPE_HANDLER_NULL` -/
  | clear
  /-- before it adds itself to the free list -/
  | giveBack
  /-- before `__sync_sub_and_fetch` -/
  | quit
  /-- before its lock and its condition are destroyed -/
  | destroy
  /-- before `free` -/
  | free
  | ended
  deriving DecidableEq

/-- Where a call of `SpeTpoolDo` is. -/
inductive CallPc
  | idle
  /-- before `list_empty` -/
  | test
  /-- before the section that takes a free thread -/
  | pop
  /-- before the handler is set -/
  | store (e : FreeEntry)
  /-- before `calloc` -/
  | alloc
  /-- before `threadInit` -/
  | init
  /-- before `pthread_create` -/
  | create
  /-- has returned `true`: the pool thread has the handler -/
  | handedOff (i : Nat)
  /-- has returned `true`: a thread of its own has the handler -/
  | spawned
  /-- has returned `false` -/
  | failed
  deriving DecidableEq

/-- What a call has returned. -/
def CallPc.returned : CallPc → Option Bool
  | .handedOff _ => some true
  | .spawned => some true
  | .failed => some false
  | _ => none

/-- Where `SpeTpoolDeinit` is. -/
inductive DeinitPc
  | idle
  /-- in the loop over the threads -/
  | stop (i : Nat)
  /-- before the test of `sleep_cnt` -/
  | poll (sleepCnt : Nat)
  /-- before `free(gTpool)` -/
  | free
  /-- before `gTpool = NULL` -/
  | reset
  | done
  deriving DecidableEq

/-- `spe_thread_t`.  The handler is known by the call that has passed it. -/
structure Thread (C : Type) where
  handler : Option C
  stop : Bool
  pc : ThreadPc

/-- The pool and its parties. -/
structure Tpool (C : Type) where
  gTpool : Bool
  threadNum : Nat
  threadRun : UInt32
  freeList : List Nat
  threads : ThreadId C → Thread C
  calls : C → CallPc
  deinit : DeinitPc
  handed : Nat → List C
  taken : List FreeEntry
  executed : List C
  counted : List (ThreadId C)
  allocated : List (TpoolBlock C)
  freed : List (TpoolBlock C)
  polls : List UInt32
  released : Option UInt32

/-- What can happen before `SpeTpoolDeinit`: a step of a call, with the answer of `calloc` or
`pthread_create`, or a step of a thread. -/
inductive PoolEvent (C : Type)
  | call (c : C) (ok : Bool)
  | thread (t : ThreadId C)

/-- What can happen. -/
inductive TpoolEvent (C : Type)
  | run (ev : PoolEvent C)
  | deinit

namespace Tpool

variable {C H : Type} [DecidableEq C]

/-- A call goes on. -/
@[simps -fullyApplied]
def setCall (s : Tpool C) (c : C) (pc : CallPc) : Tpool C :=
  { s with calls := Function.update s.calls c pc }

/-- The record of a thread changes. -/
@[simps -fullyApplied]
def setThread (s : Tpool C) (t : ThreadId C) (th : Thread C) : Tpool C :=
  { s with threads := Function.update s.threads t th }

/-- A thread goes on. -/
@[simps! -fullyApplied]
def setPc (s : Tpool C) (t : ThreadId C) (pc : ThreadPc) : Tpool C :=
  s.setThread t { s.threads t with pc := pc }

/-- `threadInit`, up to `pthread_create`. -/
@[simps! -fullyApplied]
def threadInit (s : Tpool C) (t : ThreadId C) (handler : Option C) : Tpool C :=
  { s.setThread t { s.threads t with handler := handler, stop := false } with
    threadRun := s.threadRun + 1
    counted := s.counted ++ [t] }

/-- `pthread_create` with the routine of the thread. -/
def pthreadCreate (s : Tpool C) (t : ThreadId C) : Tpool C :=
  match t with
  | .pool _ => s.setPc t .wait
  | .once _ => s.setPc t .call

/-- The pool that `calloc` gives to `SpeTpoolInit`. -/
def zeroed (C : Type) (threadNum : Nat) : Tpool C where
  gTpool := true
  threadNum := threadNum
  threadRun := 0
  freeList := []
  threads := fun _ => { handler := none, stop := false, pc := .unborn }
  calls := fun _ => .idle
  deinit := .idle
  handed := fun _ => []
  taken := []
  executed := []
  counted := []
  allocated := [.pool]
  freed := []
  polls := []
  released := none

/-- One round of the loop in `SpeTpoolInit`. -/
def enableThread (s : Tpool C) (i : Nat) : Tpool C :=
  let s : Tpool C := { s with freeList := s.freeList ++ [i] }
  (s.threadInit (.pool i) none).pthreadCreate (.pool i)

/-- `SpeTpoolInit` for a number of threads. -/
def start (C : Type) [DecidableEq C] (threadNum : Nat) : Tpool C :=
  (List.range threadNum).foldl enableThread (zeroed C threadNum)

/-- `SpeTpoolInit`; there are at most `MAX_THREAD` threads. -/
def speTpoolInit (C : Type) [DecidableEq C] (cpuCount : Nat) : Tpool C :=
  start C (min (cpuCount * 2) 64)

/-- The section of `SpeTpoolDo` that takes the first entry of the free list.  `list_del_init`
leaves a list that is empty as it is. -/
def takeFree (s : Tpool C) (c : C) : Tpool C :=
  match s.freeList with
  | i :: rest =>
      { s.setCall c (.store (.thread i)) with
        freeList := rest
        handed := Function.update s.handed i (s.handed i ++ [c])
        taken := s.taken ++ [.thread i] }
  | [] => { s.setCall c (.store .head) with taken := s.taken ++ [.head] }

/-- The section of `SpeTpoolDo` that sets the handler. -/
@[simps! -fullyApplied]
def setHandler (s : Tpool C) (c : C) (i : Nat) : Tpool C :=
  (s.setThread (.pool i) { s.threads (.pool i) with handler := some c }).setCall c (.handedOff i)

/-- `SpeTpoolDo`. -/
def speTpoolDo (s : Tpool C) (c : C) (ok : Bool) : Option (Tpool C) :=
  match s.calls c with
  | .idle => some (s.setCall c (if s.gTpool then .test else .failed))
  | .test =>
      if s.gTpool then some (s.setCall c (if s.freeList.isEmpty then .alloc else .pop)) else none
  | .pop => if s.gTpool then some (s.takeFree c) else none
  | .store (.thread i) => some (s.setHandler c i)
  | .alloc =>
      if ok then
        some { s.setCall c .init with allocated := s.allocated ++ [.record (.once c)] }
      else some (s.setCall c .failed)
  | .init =>
      if s.gTpool then some ((s.threadInit (.once c) (some c)).setCall c .create) else none
  | .create => some ((if ok then s.pthreadCreate (.once c) else s).setCall c .spawned)
  | _ => none

/-- `SPE_HANDLER_CALL`; `arg` is what the calls have passed, `none` for a handler that is
`NULL`. -/
@[simps! -fullyApplied]
def handlerCall (arg : C → Option H) (s : Tpool C) (t : ThreadId C) : Tpool C :=
  let called := (s.threads t).handler.toList.filter (fun c => (arg c).isSome)
  { s.setPc t .running with executed := s.executed ++ called }

/-- The end of both routines. -/
def quitThread (s : Tpool C) (t : ThreadId C) : Option (Tpool C) :=
  match (s.threads t).pc with
  | .quit =>
      if s.gTpool then some { s.setPc t .destroy with threadRun := s.threadRun - 1 } else none
  | .destroy => some (s.setPc t .free)
  | .free => some { s.setPc t .ended with freed := s.freed ++ [.record t] }
  | _ => none

/-- `threadRoutineOnce`. -/
def threadRoutineOnce (arg : C → Option H) (s : Tpool C) (c : C) : Option (Tpool C) :=
  match (s.threads (.once c)).pc with
  | .call => some (s.handlerCall arg (.once c))
  | .running => some (s.setPc (.once c) .quit)
  | _ => s.quitThread (.once c)

/-- `threadRoutine`. -/
def threadRoutine (arg : C → Option H) (s : Tpool C) (i : Nat) : Option (Tpool C) :=
  let thread := s.threads (.pool i)
  match thread.pc with
  | .wait =>
      if (thread.handler.bind arg).isSome ∨ thread.stop then some (s.setPc (.pool i) .woken)
      else none
  | .woken => some (s.setPc (.pool i) (if thread.stop then .quit else .call))
  | .call => some (s.handlerCall arg (.pool i))
  | .running => some (s.setPc (.pool i) .clear)
  | .clear => some (s.setThread (.pool i) { thread with handler := none, pc := .giveBack })
  | .giveBack =>
      if s.gTpool then
        some { s.setPc (.pool i) .wait with
          freeList := s.freeList ++ [i]
          handed := Function.update s.handed i [] }
      else none
  | _ => s.quitThread (.pool i)

/-- A step of a call or of a thread. -/
def poolStep (arg : C → Option H) (s : Tpool C) : PoolEvent C → Option (Tpool C)
  | .call c ok => s.speTpoolDo c ok
  | .thread (.pool i) => s.threadRoutine arg i
  | .thread (.once c) => s.threadRoutineOnce arg c

/-- `SpeTpoolDeinit`.  The loop polls while `sleep_cnt` is above ten. -/
def speTpoolDeinit (s : Tpool C) : Option (Tpool C) :=
  match s.deinit with
  | .idle => some { s with deinit := if s.gTpool then .stop 0 else .done }
  | .stop i =>
      if i < s.threadNum then
        some { s.setThread (.pool i) { s.threads (.pool i) with stop := true } with
          deinit := .stop (i + 1) }
      else some { s with deinit := .poll 0 }
  | .poll sleepCnt =>
      if 10 < sleepCnt then
        some { s with
          polls := s.polls ++ [s.threadRun]
          deinit := if s.threadRun = 0 then .free else .poll (sleepCnt + 1) }
      else some { s with deinit := .free }
  | .free =>
      some { s with freed := s.freed ++ [.pool], released := some s.threadRun, deinit := .reset }
  | .reset => some { s with gTpool := false, deinit := .done }
  | .done => none

/-- The step of the pool. -/
def step (arg : C → Option H) (s : Tpool C) : TpoolEvent C → Option (Tpool C)
  | .run ev => s.poolStep arg ev
  | .deinit => s.speTpoolDeinit

/-- What a step of a call or of a thread does. -/
inductive PoolEffect (arg : C → Option H) (s : Tpool C) : PoolEvent C → Tpool C → Prop
  | move {c : C} {ok : Bool} {pc : CallPc}
      (hpc : s.calls c = .idle ∨ s.calls c = .test ∨ s.calls c = .alloc)
      (hnext : pc = .test ∨ pc = .pop ∨ pc = .alloc ∨ pc = .failed) :
      PoolEffect arg s (.call c ok) (s.setCall c pc)
  | take {c : C} {ok : Bool} {i : Nat} {rest : List Nat} (hpc : s.calls c = .pop)
      (hlist : s.freeList = i :: rest) :
      PoolEffect arg s (.call c ok)
        { s.setCall c (.store (.thread i)) with
          freeList := rest
          handed := Function.update s.handed i (s.handed i ++ [c])
          taken := s.taken ++ [.thread i] }
  | takeHead {c : C} {ok : Bool} (hpc : s.calls c = .pop) (hlist : s.freeList = []) :
      PoolEffect arg s (.call c ok)
        { s.setCall c (.store .head) with taken := s.taken ++ [.head] }
  | setHandler {c : C} {ok : Bool} {i : Nat} (hpc : s.calls c = .store (.thread i)) :
      PoolEffect arg s (.call c ok) (s.setHandler c i)
  | alloc {c : C} {ok : Bool} (hpc : s.calls c = .alloc) :
      PoolEffect arg s (.call c ok)
        { s.setCall c .init with allocated := s.allocated ++ [.record (.once c)] }
  | init {c : C} {ok : Bool} (hpc : s.calls c = .init) :
      PoolEffect arg s (.call c ok) ((s.threadInit (.once c) (some c)).setCall c .create)
  | create {c : C} {ok : Bool} (hpc : s.calls c = .create) :
      PoolEffect arg s (.call c ok)
        ((if ok then s.setPc (.once c) .call else s).setCall c .spawned)
  | wake {i : Nat} (hpc : (s.threads (.pool i)).pc = .wait)
      (hset : ((s.threads (.pool i)).handler.bind arg).isSome ∨ (s.threads (.pool i)).stop) :
      PoolEffect arg s (.thread (.pool i)) (s.setPc (.pool i) .woken)
  | testStop {i : Nat} (hpc : (s.threads (.pool i)).pc = .woken) :
      PoolEffect arg s (.thread (.pool i))
        (s.setPc (.pool i) (if (s.threads (.pool i)).stop then .quit else .call))
  | handlerCall {t : ThreadId C} (hpc : (s.threads t).pc = .call) :
      PoolEffect arg s (.thread t) (s.handlerCall arg t)
  | handlerRet {i : Nat} (hpc : (s.threads (.pool i)).pc = .running) :
      PoolEffect arg s (.thread (.pool i)) (s.setPc (.pool i) .clear)
  | onceRet {c : C} (hpc : (s.threads (.once c)).pc = .running) :
      PoolEffect arg s (.thread (.once c)) (s.setPc (.once c) .quit)
  | clear {i : Nat} (hpc : (s.threads (.pool i)).pc = .clear) :
      PoolEffect arg s (.thread (.pool i))
        (s.setThread (.pool i) { s.threads (.pool i) with handler := none, pc := .giveBack })
  | giveBack {i : Nat} (hpc : (s.threads (.pool i)).pc = .giveBack) :
      PoolEffect arg s (.thread (.pool i))
        { s.setPc (.pool i) .wait with
          freeList := s.freeList ++ [i]
          handed := Function.update s.handed i [] }
  | quit {t : ThreadId C} (hpc : (s.threads t).pc = .quit) :
      PoolEffect arg s (.thread t) { s.setPc t .destroy with threadRun := s.threadRun - 1 }
  | destroy {t : ThreadId C} (hpc : (s.threads t).pc = .destroy) :
      PoolEffect arg s (.thread t) (s.setPc t .free)
  | free {t : ThreadId C} (hpc : (s.threads t).pc = .free) :
      PoolEffect arg s (.thread t) { s.setPc t .ended with freed := s.freed ++ [.record t] }

/-- The end of a routine. -/
theorem quitThread_effect (arg : C → Option H) {s s' : Tpool C} {t : ThreadId C}
    (h : s.quitThread t = some s') : PoolEffect arg s (.thread t) s' := by
  unfold quitThread at h
  split at h
  · rename_i hpc
    obtain ⟨_, ⟨⟩⟩ := Option.ite_none_right_eq_some.mp h
    exact .quit hpc
  · rename_i hpc
    obtain rfl := Option.some.inj h
    exact .destroy hpc
  · rename_i hpc
    obtain rfl := Option.some.inj h
    exact .free hpc
  · cases h

/-- **Inversion.**  A step of a call. -/
theorem speTpoolDo_effect (arg : C → Option H) {s s' : Tpool C} {c : C} {ok : Bool}
    (h : s.speTpoolDo c ok = some s') : PoolEffect arg s (.call c ok) s' := by
  unfold speTpoolDo at h
  split at h
  · rename_i hpc
    obtain rfl := Option.some.inj h
    exact .move (Or.inl hpc) (by split <;> simp)
  · rename_i hpc
    obtain ⟨_, ⟨⟩⟩ := Option.ite_none_right_eq_some.mp h
    exact .move (Or.inr (Or.inl hpc)) (by split <;> simp)
  · rename_i hpc
    obtain ⟨_, ⟨⟩⟩ := Option.ite_none_right_eq_some.mp h
    unfold takeFree
    split
    · rename_i hlist
      exact .take hpc hlist
    · rename_i hlist
      exact .takeHead hpc hlist
  · rename_i hpc
    obtain rfl := Option.some.inj h
    exact .setHandler hpc
  · rename_i hpc
    cases ok with
    | true =>
        obtain rfl := Option.some.inj h
        exact .alloc hpc
    | false =>
        obtain rfl := Option.some.inj h
        exact .move (Or.inr (Or.inr hpc)) (by simp)
  · rename_i hpc
    obtain ⟨_, ⟨⟩⟩ := Option.ite_none_right_eq_some.mp h
    exact .init hpc
  · rename_i hpc
    obtain rfl := Option.some.inj h
    exact .create hpc
  · cases h

/-- **Inversion.**  A step of a call or of a thread. -/
theorem poolStep_effect {arg : C → Option H} {s s' : Tpool C} {ev : PoolEvent C}
    (h : s.poolStep arg ev = some s') : PoolEffect arg s ev s' := by
  cases ev with
  | call c ok => exact speTpoolDo_effect arg h
  | thread t =>
      cases t with
      | once c =>
          change s.threadRoutineOnce arg c = some s' at h
          unfold threadRoutineOnce at h
          split at h
          · rename_i hpc
            obtain rfl := Option.some.inj h
            exact .handlerCall hpc
          · rename_i hpc
            obtain rfl := Option.some.inj h
            exact .onceRet hpc
          · exact quitThread_effect arg h
      | pool i =>
          change s.threadRoutine arg i = some s' at h
          unfold threadRoutine at h
          dsimp only at h
          split at h
          · rename_i hpc
            obtain ⟨hset, ⟨⟩⟩ := Option.ite_none_right_eq_some.mp h
            exact .wake hpc hset
          · rename_i hpc
            obtain rfl := Option.some.inj h
            exact .testStop hpc
          · rename_i hpc
            obtain rfl := Option.some.inj h
            exact .handlerCall hpc
          · rename_i hpc
            obtain rfl := Option.some.inj h
            exact .handlerRet hpc
          · rename_i hpc
            obtain rfl := Option.some.inj h
            exact .clear hpc
          · rename_i hpc
            obtain ⟨_, ⟨⟩⟩ := Option.ite_none_right_eq_some.mp h
            exact .giveBack hpc
          · exact quitThread_effect arg h

/-- What `SpeTpoolInit` has made after some rounds of its loop. -/
theorem enabled_eq (n k : Nat) :
    (List.range k).foldl enableThread (zeroed C n) =
      { zeroed C n with
        freeList := List.range k
        threadRun := UInt32.ofNat k
        counted := (List.range k).map .pool
        threads := fun t =>
          { handler := none, stop := false,
            pc := if t ∈ (List.range k).map .pool then .wait else .unborn } } := by
  induction k with
  | zero => simp [zeroed]
  | succ k ih =>
      rw [List.range_succ, List.foldl_append, ih]
      simp only [List.foldl_cons, List.foldl_nil, enableThread, threadInit, pthreadCreate, setPc,
        setThread, Function.update_self, Tpool.mk.injEq, true_and]
      refine ⟨by simp, ?_, by simp⟩
      funext t
      by_cases ht : t = .pool k
      · subst ht
        simp
      · simp [ht]

/-- The pool that `SpeTpoolInit` leaves. -/
theorem start_eq (n : Nat) :
    start C n =
      { zeroed C n with
        freeList := List.range n
        threadRun := UInt32.ofNat n
        counted := (List.range n).map .pool
        threads := fun t => { handler := none, stop := false,
                              pc := if t ∈ (List.range n).map .pool then .wait else .unborn } } :=
  enabled_eq n n

end Tpool

end Spe
