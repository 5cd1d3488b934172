import Mathlib.Data.List.Basic
import Spe.Descriptors
import Spe.Server

/-!
# The table of workers in the master (`spe_worker.c`)

The master keeps a slot for each worker: its pid and the end of a socketpair on which it
is told to stop.  `spe_worker_fork` fills a free slot, `spe_worker_reset` and
`spe_worker_stop` free slots again; a slot is free while its pid is 0.

`WorkerTable.Accounted` says that the table and the descriptors agree: those that are
open are the `notify_fd` of the occupied slots.  It holds in all states of a run if and
only if no `fork` fails after its socketpair has been made, and `spe_worker_reset` is
not called for pid 0 while a slot is free (`workers_accounted`).  When `fork` fails, both
ends of the socketpair stay open for good (`workers_accounted_fails`).
-/

namespace Spe

open Transition

/-- `spe_worker_t`. -/
structure WorkerSlot where
  pid : Int
  notifyFd : Nat
  deriving DecidableEq

/-- The slot holds a worker. -/
def WorkerSlot.occupied (slot : WorkerSlot) : Bool := slot.pid ≠ 0

/-- `spe_workers` and the socketpair descriptors of the master.  `workers` is history: the
workers forked and not yet reset or stopped; so is `told`: where `WORKER_STOP` was written. -/
structure WorkerTable where
  speWorkers : List WorkerSlot
  fds : Descriptors.Table Nat
  workers : List Int
  told : List Nat

namespace WorkerTable

variable (t : WorkerTable)

/-- The table at the start of the master. -/
def start : WorkerTable where
  speWorkers := List.replicate SPE_MAX_WORKER ⟨0, 0⟩
  fds := .empty
  workers := []
  told := []

/-- `get_slot`; `none` is its result -1. -/
def getSlot : Option Nat := t.speWorkers.findIdx? (fun slot => slot.pid = 0)

/-- `spe_worker_fork` in the master, with its result.  The arguments are what the system
calls answer: the two ends from `socketpair`, or -1; the pid from `fork`, or -1. -/
def workerFork (channel : Option (Nat × Nat)) (child : Option Int) : WorkerTable × Int :=
  match t.getSlot with
  | none => (t, -1)
  | some procSlot =>
      match channel with
      | none => (t, -1)
      | some (ours, theirs) =>
          let t : WorkerTable := { t with fds := (t.fds.opens ours).opens theirs }
          match child with
          | none => (t, -1)
          | some pid =>
              ({ t with
                speWorkers := t.speWorkers.set procSlot ⟨pid, ours⟩
                fds := t.fds.close theirs
                workers := t.workers ++ [pid] }, 1)

/-- `spe_worker_reset` with its result. -/
def workerReset (pid : Int) : WorkerTable × Int :=
  match t.speWorkers.findIdx? (fun slot => slot.pid = pid) with
  | none => (t, -1)
  | some i =>
      let slot := t.speWorkers.getD i ⟨0, 0⟩
      ({ t with
        speWorkers := t.speWorkers.set i { slot with pid := 0 }
        fds := t.fds.close slot.notifyFd
        workers := t.workers.erase pid }, 0)

/-- One round of the loop of `spe_worker_stop`, on one slot. -/
def stopSlot (i : Nat) : WorkerTable :=
  let slot := t.speWorkers.getD i ⟨0, 0⟩
  if slot.pid = 0 then t
  else
    { t with
      speWorkers := t.speWorkers.set i { slot with pid := 0 }
      fds := t.fds.close slot.notifyFd
      told := t.told ++ [slot.notifyFd] }

/-- `spe_worker_stop`. -/
def workerStop : WorkerTable :=
  { (List.range t.speWorkers.length).foldl stopSlot t with workers := [] }

end WorkerTable

/-- The calls that the master makes. -/
inductive WorkerCall
  | fork (channel : Option (Nat × Nat)) (child : Option Int)
  | reset (pid : Int)
  | stop

/-- What the kernel promises: new descriptors are not open, and a new pid is that of no
worker that has not been waited for. -/
def WorkerTable.granted (t : WorkerTable) (channel : Option (Nat × Nat)) (child : Option Int) :
    Bool :=
  channel.all (fun p => p.1 ≠ p.2 ∧ p.1 ∉ t.fds.held ∧ p.2 ∉ t.fds.held) &&
    child.all (fun pid => 0 < pid ∧ t.speWorkers.all (fun slot => slot.pid ≠ pid))

/-- The step of the master's table. -/
def WorkerTable.step (t : WorkerTable) : WorkerCall → Option WorkerTable
  | .fork channel child =>
      if t.granted channel child then some (t.workerFork channel child).1 else none
  | .reset pid => some (t.workerReset pid).1
  | .stop => some t.workerStop

namespace WorkerTable

/-- The slots that hold workers. -/
def occupied (t : WorkerTable) : List WorkerSlot := t.speWorkers.filter WorkerSlot.occupied

/-- The table and the descriptors agree: the open descriptors are those of the occupied
slots, one for each; each has been closed once for each time it was opened, unless it is
open; the occupied slots hold the workers that have not been reset or stopped, each
once. -/
structure Accounted (t : WorkerTable) : Prop where
  held : t.fds.held.Perm (t.occupied.map WorkerSlot.notifyFd)
  tidy : t.fds.Tidy
  workers : t.workers.Perm (t.occupied.map WorkerSlot.pid)
  distinct : t.workers.Nodup

/-- A slot that a search finds, in its place. -/
theorem split_of_findIdx {p : WorkerSlot → Bool} {slots : List WorkerSlot} {i : Nat}
    (h : slots.findIdx? p = some i) :
    ∃ pre slot post, slots = pre ++ slot :: post ∧ pre.length = i ∧ p slot = true := by
  obtain ⟨hi, hp, _⟩ := List.findIdx?_eq_some_iff_getElem.mp h
  refine ⟨slots.take i, slots[i], slots.drop (i + 1), ?_, ?_, hp⟩
  · rw [← List.drop_eq_getElem_cons hi, List.take_append_drop]
  · rw [List.length_take]
    omega

/-- The slot in its place, read and written. -/
theorem slot_split (pre post : List WorkerSlot) (slot slot' : WorkerSlot) :
    (pre ++ slot :: post).getD pre.length ⟨0, 0⟩ = slot ∧
    (pre ++ slot :: post).set pre.length slot' = pre ++ slot' :: post := by
  constructor
  · simp [List.getD_eq_getElem?_getD]
  · simp

/-- A slot among the others. -/
theorem occupied_split (pre post : List WorkerSlot) (slot : WorkerSlot) :
    (pre ++ slot :: post).filter WorkerSlot.occupied =
      pre.filter WorkerSlot.occupied ++
        (if slot.occupied then slot :: post.filter WorkerSlot.occupied
          else post.filter WorkerSlot.occupied) := by
  rw [List.filter_append, List.filter_cons]

/-- A free slot that is filled. -/
theorem filled {pre post : List WorkerSlot} {old slot : WorkerSlot} (hold : old.occupied = false)
    (hslot : slot.occupied = true) :
    ((pre ++ slot :: post).filter WorkerSlot.occupied).Perm
      (slot :: (pre ++ old :: post).filter WorkerSlot.occupied) := by
  rw [occupied_split, occupied_split, hold, hslot]
  exact List.perm_middle

/-- What is left of a list without one of its elements. -/
theorem erase_perm {α : Type} [DecidableEq α] {l rest : List α} {a : α}
    (h : l.Perm (a :: rest)) : (l.erase a).Perm rest := by
  have herased := h.erase a
  rwa [List.erase_cons_head] at herased

/-- The call leaves no descriptor behind and closes none that is not its own: no `fork`
fails after `socketpair` has made a channel, and a free slot is not reset. -/
def Clean (t : WorkerTable) : WorkerCall → Prop
  | .fork channel child => t.getSlot = none ∨ channel = none ∨ child.isSome
  | .reset pid => pid ≠ 0 ∨ t.getSlot = none
  | .stop => True

/-- The start. -/
theorem accounted_start : start.Accounted := by
  have hnone : start.occupied = [] := by
    unfold occupied start
    rw [List.filter_eq_nil_iff]
    intro slot hslot
    obtain ⟨_, rfl⟩ := List.mem_replicate.mp hslot
    decide
  refine ⟨?_, Descriptors.Table.tidy_empty, ?_, List.nodup_nil⟩
  · rw [hnone]
    exact List.Perm.nil
  · rw [hnone]
    exact List.Perm.nil

/-- What the kernel grants. -/
theorem granted_spec {t : WorkerTable} {ours theirs : Nat} {child : Option Int}
    (h : t.granted (some (ours, theirs)) child = true) :
    ours ≠ theirs ∧ ours ∉ t.fds.held ∧ theirs ∉ t.fds.held ∧
    ∀ pid, child = some pid → pid ≠ 0 ∧ ∀ slot ∈ t.speWorkers, slot.pid ≠ pid := by
  simp only [granted, Option.all_some, Bool.and_eq_true, decide_eq_true_eq] at h
  obtain ⟨⟨hne, hours, htheirs⟩, hchild⟩ := h
  refine ⟨hne, hours, htheirs, ?_⟩
  intro pid hpid
  subst hpid
  simp only [Option.all_some, decide_eq_true_eq, List.all_eq_true] at hchild
  exact ⟨by omega, hchild.2⟩

/-- The two ends of a channel are opened. -/
theorem Accounted.channel {t : WorkerTable} (h : t.Accounted) {ours theirs : Nat}
    (hne : ours ≠ theirs) (hours : ours ∉ t.fds.held) (htheirs : theirs ∉ t.fds.held) :
    ((t.fds.opens ours).opens theirs).Tidy := by
  apply (h.tidy.opens hours).opens
  rw [Descriptors.Table.opens_held, List.mem_cons, not_or]
  exact ⟨hne.symm, htheirs⟩

/-- **`spe_worker_fork`** keeps the account exactly if `fork` does not fail after
`socketpair`. -/
theorem Accounted.fork_iff {t : WorkerTable} (h : t.Accounted) {channel : Option (Nat × Nat)}
    {child : Option Int} (hgranted : t.granted channel child = true) :
    (t.workerFork channel child).1.Accounted ↔ t.Clean (.fork channel child) := by
  unfold workerFork Clean
  cases hslot : t.getSlot with
  | none => exact iff_of_true h (Or.inl rfl)
  | some procSlot =>
      cases channel with
      | none => exact iff_of_true h (Or.inr (Or.inl rfl))
      | some ends =>
          obtain ⟨ours, theirs⟩ := ends
          obtain ⟨hne, hours, htheirs, hpid⟩ := granted_spec hgranted
          have htidy := h.channel hne hours htheirs
          cases child with
          | none =>
              -- both ends stay open, and no slot has them
              refine iff_of_false (fun hbad => ?_) (by simp)
              have hmore := hbad.held.length_eq
              have hsame := h.held.length_eq
              simp only [Descriptors.Table.opens_held, List.length_cons, occupied] at hmore hsame
              omega
          | some pid =>
              refine iff_of_true ?_ (Or.inr (Or.inr rfl))
              obtain ⟨hzero, hfresh⟩ := hpid pid rfl
              obtain ⟨pre, old, post, hsplit, rfl, hfree⟩ := split_of_findIdx hslot
              have hold : old.occupied = false := by simpa [WorkerSlot.occupied] using hfree
              have hnew : WorkerSlot.occupied ⟨pid, ours⟩ = true := by
                simpa [WorkerSlot.occupied] using hzero
              have hfill := @filled pre post _ _ hold hnew
              have hset := (slot_split pre post old ⟨pid, ours⟩).2
              have hbefore : t.occupied = (pre ++ old :: post).filter WorkerSlot.occupied := by
                rw [← hsplit]
                rfl
              refine ⟨?_, ?_, ?_, ?_⟩
              · -- the end of the child is closed, ours is that of the new slot
                have hheld : (((t.fds.opens ours).opens theirs).close theirs).held =
                    ours :: t.fds.held := by simp
                unfold occupied
                dsimp only
                rw [hheld, hsplit, hset]
                refine ((h.held.cons ours).trans ?_).trans (hfill.map _).symm
                rw [hbefore]
                exact List.Perm.refl _
              · exact (htidy.close_iff theirs).mpr (by simp)
              · unfold occupied
                dsimp only
                rw [hsplit, hset]
                refine (List.perm_append_singleton pid t.workers).trans ?_
                refine ((h.workers.cons pid).trans ?_).trans (hfill.map _).symm
                rw [hbefore]
                exact List.Perm.refl _
              · have hnot : pid ∉ t.workers := by
                  intro hmem
                  obtain ⟨slot, hslots, heq⟩ := List.mem_map.mp (h.workers.mem_iff.mp hmem)
                  exact hfresh slot (List.mem_of_mem_filter hslots) heq
                rw [(List.perm_append_singleton pid t.workers).nodup_iff]
                exact List.nodup_cons.mpr ⟨hnot, h.distinct⟩

/-- The descriptors that are open are those of the occupied slots. -/
structure Held (t : WorkerTable) : Prop where
  held : t.fds.held.Perm (t.occupied.map WorkerSlot.notifyFd)
  tidy : t.fds.Tidy

/-- The slots without one that is freed. -/
theorem occupied_freed {t : WorkerTable} {pre post : List WorkerSlot} {slot : WorkerSlot}
    (hsplit : t.speWorkers = pre ++ slot :: post) (hocc : slot.occupied = true) :
    t.occupied.Perm (slot ::
      (pre ++ { slot with pid := 0 } :: post).filter WorkerSlot.occupied) := by
  unfold occupied
  rw [hsplit]
  exact filled (by simp [WorkerSlot.occupied]) hocc

/-- An occupied slot is freed, and its descriptor closed. -/
theorem Held.free {t : WorkerTable} (h : t.Held) {pre post : List WorkerSlot} {slot : WorkerSlot}
    (hsplit : t.speWorkers = pre ++ slot :: post) (hocc : slot.occupied = true) :
    (t.fds.close slot.notifyFd).held.Perm
      (((pre ++ { slot with pid := 0 } :: post).filter WorkerSlot.occupied).map
        WorkerSlot.notifyFd) ∧
    (t.fds.close slot.notifyFd).Tidy := by
  have hheld : t.fds.held.Perm (slot.notifyFd ::
      ((pre ++ { slot with pid := 0 } :: post).filter WorkerSlot.occupied).map
        WorkerSlot.notifyFd) :=
    h.held.trans ((occupied_freed hsplit hocc).map WorkerSlot.notifyFd)
  refine ⟨erase_perm hheld, (h.tidy.close_iff _).mpr ?_⟩
  exact hheld.mem_iff.mpr List.mem_cons_self

/-- **`spe_worker_reset`** keeps the account exactly if it does not reset a free slot. -/
theorem Accounted.reset_iff {t : WorkerTable} (h : t.Accounted) (pid : Int) :
    (t.workerReset pid).1.Accounted ↔ t.Clean (.reset pid) := by
  unfold workerReset Clean
  cases hfind : t.speWorkers.findIdx? (fun slot => slot.pid = pid) with
  | none =>
      refine iff_of_true h ?_
      by_cases hpid : pid = 0
      · subst hpid
        exact Or.inr hfind
      · exact Or.inl hpid
  | some i =>
      obtain ⟨pre, slot, post, hsplit, rfl, hslot⟩ := split_of_findIdx hfind
      obtain rfl : slot.pid = pid := by simpa using hslot
      obtain ⟨hget, hset⟩ := slot_split pre post slot { slot with pid := 0 }
      dsimp only
      rw [hsplit, hget, hset]
      by_cases hpid : slot.pid = 0
      · -- a free slot keeps the number of a descriptor that is not its own
        have hcond : ¬ (slot.pid ≠ 0 ∨ t.getSlot = none) := by
          unfold getSlot
          rw [← hpid, hfind]
          simp [hpid]
        refine iff_of_false (fun hbad => ?_) hcond
        have hopen : slot.notifyFd ∈ t.fds.held := (h.tidy.close_iff _).mp hbad.tidy
        have hsame : ({ slot with pid := 0 } : WorkerSlot) = slot := by
          rw [← hpid]
        have hfewer := hbad.held.length_eq
        have hbefore := h.held.length_eq
        have hpos := List.length_pos_of_mem hopen
        have herased := List.length_erase_of_mem hopen
        simp only [occupied, hsame, Descriptors.Table.close_held, List.length_map] at hfewer
        simp only [occupied, hsplit, List.length_map] at hbefore
        omega
      · have hocc : slot.occupied = true := by simpa [WorkerSlot.occupied] using hpid
        refine iff_of_true ?_ (Or.inl hpid)
        obtain ⟨hheld, htidy⟩ := Held.free ⟨h.held, h.tidy⟩ hsplit hocc
        exact {
          held := hheld
          tidy := htidy
          workers := erase_perm
            (h.workers.trans ((occupied_freed hsplit hocc).map WorkerSlot.pid))
          distinct := h.distinct.erase _ }

/-- A round of the loop of `spe_worker_stop`: the account of the descriptors is kept, the
slot is free, and no slot becomes occupied. -/
theorem Held.stopSlot {t : WorkerTable} (h : t.Held) (i : Nat) :
    (t.stopSlot i).Held ∧ (t.stopSlot i).speWorkers.length = t.speWorkers.length ∧
    ∀ j, (j < i → (t.speWorkers.getD j ⟨0, 0⟩).pid = 0) → j ≤ i →
      ((t.stopSlot i).speWorkers.getD j ⟨0, 0⟩).pid = 0 := by
  unfold WorkerTable.stopSlot
  by_cases hpid : (t.speWorkers.getD i ⟨0, 0⟩).pid = 0
  · rw [if_pos hpid]
    refine ⟨h, rfl, ?_⟩
    intro j hbefore hj
    rcases Nat.lt_or_eq_of_le hj with hlt | rfl
    · exact hbefore hlt
    · exact hpid
  · rw [if_neg hpid]
    have hi : i < t.speWorkers.length := by
      by_contra hout
      apply hpid
      rw [List.getD_eq_default _ _ (Nat.le_of_not_lt hout)]
    have hslot : t.speWorkers.getD i ⟨0, 0⟩ = t.speWorkers[i] := List.getD_eq_getElem _ _ hi
    have hsplit : t.speWorkers =
        t.speWorkers.take i ++ t.speWorkers[i] :: t.speWorkers.drop (i + 1) := by
      rw [← List.drop_eq_getElem_cons hi, List.take_append_drop]
    rw [hslot] at hpid ⊢
    have hocc : t.speWorkers[i].occupied = true := by simpa [WorkerSlot.occupied] using hpid
    obtain ⟨hheld, htidy⟩ := h.free hsplit hocc
    refine ⟨⟨?_, htidy⟩, ?_, ?_⟩
    · have hset : t.speWorkers.set i { t.speWorkers[i] with pid := 0 } =
          t.speWorkers.take i ++ { t.speWorkers[i] with pid := 0 } ::
            t.speWorkers.drop (i + 1) := List.set_eq_take_append_cons_drop .. |>.trans (if_pos hi)
      unfold occupied
      dsimp only
      rw [hset]
      exact hheld
    · exact List.length_set
    · intro j hbefore hj
      dsimp only
      rw [List.getD_eq_getElem?_getD, List.getElem?_set]
      rcases Nat.lt_or_eq_of_le hj with hlt | rfl
      · rw [if_neg (by omega), ← List.getD_eq_getElem?_getD]
        exact hbefore hlt
      · rw [if_pos rfl, if_pos hi]
        rfl

/-- The loop of `spe_worker_stop`, over the slots so far. -/
theorem Held.stopSlots {t : WorkerTable} (h : t.Held) (k : Nat) :
    ((List.range k).foldl WorkerTable.stopSlot t).Held ∧
    ((List.range k).foldl WorkerTable.stopSlot t).speWorkers.length = t.speWorkers.length ∧
    ∀ j < k, (((List.range k).foldl WorkerTable.stopSlot t).speWorkers.getD j ⟨0, 0⟩).pid = 0 := by
  induction k with
  | zero => exact ⟨h, rfl, fun j hj => absurd hj (Nat.not_lt_zero j)⟩
  | succ k ih =>
      obtain ⟨hheld, hlength, hfree⟩ := ih
      obtain ⟨hheld', hlength', hfree'⟩ := hheld.stopSlot k
      rw [List.range_succ, List.foldl_append, List.foldl_cons, List.foldl_nil]
      refine ⟨hheld', hlength'.trans hlength, ?_⟩
      intro j hj
      exact hfree' j (hfree j) (Nat.le_of_lt_succ hj)

/-- **`spe_worker_stop`** leaves no slot occupied and no descriptor open. -/
theorem Accounted.stop {t : WorkerTable} (h : t.Accounted) :
    t.workerStop.Accounted ∧ t.workerStop.occupied = [] := by
  obtain ⟨hheld, hlength, hfree⟩ := Held.stopSlots ⟨h.held, h.tidy⟩ t.speWorkers.length
  have hnone : t.workerStop.occupied = [] := by
    unfold occupied
    rw [List.filter_eq_nil_iff]
    intro slot hslot
    obtain ⟨j, hj, rfl⟩ := List.mem_iff_getElem.mp hslot
    have hpid : (t.workerStop.speWorkers.getD j ⟨0, 0⟩).pid = 0 := hfree j (hlength ▸ hj)
    rw [List.getD_eq_getElem _ _ hj] at hpid
    simpa [WorkerSlot.occupied] using hpid
  refine ⟨?_, hnone⟩
  exact {
    held := hheld.held
    tidy := hheld.tidy
    workers := by
      rw [hnone]
      exact List.Perm.nil
    distinct := List.nodup_nil }

/-- **Step lemma.** -/
theorem Accounted.step_iff {t t' : WorkerTable} {call : WorkerCall} (h : t.Accounted)
    (hstep : t.step call = some t') : t'.Accounted ↔ t.Clean call := by
  cases call with
  | fork channel child =>
      by_cases hgranted : t.granted channel child = true
      · obtain rfl := Option.some.inj ((if_pos hgranted).symm.trans hstep)
        exact h.fork_iff hgranted
      · cases (if_neg hgranted).symm.trans hstep
  | reset pid =>
      obtain rfl := Option.some.inj hstep
      exact h.reset_iff pid
  | stop =>
      obtain rfl := Option.some.inj hstep
      exact iff_of_true h.stop.1 trivial

/-- A `spe_worker_fork` that fails, though not for `fork`, changes nothing. -/
theorem fork_failed {t : WorkerTable} {channel : Option (Nat × Nat)} {child : Option Int}
    (hclean : t.Clean (.fork channel child)) (hfailed : (t.workerFork channel child).2 = -1) :
    (t.workerFork channel child).1 = t := by
  unfold workerFork at hfailed ⊢
  cases hslot : t.getSlot with
  | none => rfl
  | some procSlot =>
      cases channel with
      | none => rfl
      | some ends =>
          rw [hslot] at hfailed
          cases child with
          | none => simp [Clean, hslot] at hclean
          | some pid => simp at hfailed

/-- In every state of the run the table and the descriptors agree, and each
`spe_worker_fork` that returns -1 leaves the table and the open descriptors as they
were. -/
structure AccountedRun (calls : List WorkerCall) : Prop where
  states : ∀ done todo t, calls = done ++ todo → Run step anyStep start done t → t.Accounted
  failed : ∀ done channel child todo t, calls = done ++ .fork channel child :: todo →
    Run step anyStep start done t → (t.workerFork channel child).2 = -1 →
    (t.workerFork channel child).1.speWorkers = t.speWorkers ∧
    (t.workerFork channel child).1.fds.held = t.fds.held

/-- **The workers are accounted for** in a run of the master exactly if no `fork` fails
after its socketpair has been made, and `spe_worker_reset` is not called for pid 0 while
a slot is free. -/
theorem workers_accounted {calls : List WorkerCall} {t : WorkerTable}
    (hrun : Run step anyStep start calls t) :
    AccountedRun calls ↔ Run step Clean start calls t := by
  have hiff : ∀ (s : WorkerTable) (call : WorkerCall) (s' : WorkerTable), True → s.Accounted →
      step s call = some s' → (s'.Accounted ↔ s.Clean call) :=
    fun _ _ _ _ h hstep => h.step_iff hstep
  have hexact := Run.exact (fun _ => True) Accounted hrun trivial accounted_start
    (fun _ _ _ _ _ _ => trivial) hiff
  constructor
  · intro h
    exact hexact.mp h.states
  · intro hclean
    refine ⟨hexact.mpr hclean, ?_⟩
    intro done channel child todo m heq hdone hfailed
    subst heq
    obtain ⟨_, hright⟩ := hclean.through hdone
    cases hright with
    | cons _ hok _ =>
        rw [fork_failed hok hfailed]
        exact ⟨rfl, rfl⟩

/-- A worker is forked, waited for and forked anew, and all are stopped. -/
theorem workers_accounted_life :
    AccountedRun [.fork (some (3, 4)) (some 17), .reset 17, .fork (some (3, 4)) (some 18),
      .stop] := by
  have hrun : ∃ t, Run step Clean start
      [.fork (some (3, 4)) (some 17), .reset 17, .fork (some (3, 4)) (some 18), .stop] t :=
    ⟨_, Run.cons rfl (Or.inr (Or.inr rfl)) (Run.cons rfl (Or.inl (by decide))
      (Run.cons rfl (Or.inr (Or.inr rfl)) (Run.cons rfl trivial (Run.nil _))))⟩
  obtain ⟨t, hclean⟩ := hrun
  exact (workers_accounted (hclean.mono (fun _ _ _ => trivial))).mpr hclean

/-- **A fork that fails.**  `spe_worker_fork` returns -1, the table has no worker, and both
ends of the socketpair are open. -/
theorem workers_accounted_fails :
    step start (.fork (some (3, 4)) none) = some (start.workerFork (some (3, 4)) none).1 ∧
    (start.workerFork (some (3, 4)) none).2 = -1 ∧
    (start.workerFork (some (3, 4)) none).1.occupied = [] ∧
    (start.workerFork (some (3, 4)) none).1.fds.held = [4, 3] ∧
    ¬ AccountedRun [.fork (some (3, 4)) none] := by
  refine ⟨by rfl, by rfl, by decide, by rfl, ?_⟩
  intro h
  obtain ⟨_, hheld⟩ := h.failed [] (some (3, 4)) none [] start rfl (Run.nil start) (by rfl)
  cases hheld

end WorkerTable

end Spe
