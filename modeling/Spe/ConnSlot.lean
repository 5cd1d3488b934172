import Mathlib.Data.List.ReduceOption
import Spe.Transition

/-!
# A slot of `conns` over its life (`spe_conn.c`)

`spe_conn_create` takes the slot of the descriptor and allocates its buffers when `_fd` is 0, that
is for the first time.  `conn_initialize` writes `_fd` before its allocations: when one of them
fails, the buffers are freed, and the slot counts as initialised.  The next creation cleans buffers
that are not there.

The slot is modelled as far as its buffers and its tasks go; what else `spe_conn_create` sets is
`Conn.create`.  `spe_conn_destroy` leaves the buffers to the next connection.
-/

namespace Spe

open Transition

/-- What the three calls of `spe_buf_create` in `conn_initialize` return. -/
structure BufAllocs where
  buffer : Option Nat
  readBuffer : Option Nat
  writeBuffer : Option Nat

/-- The addresses that are returned. -/
def BufAllocs.addrs (al : BufAllocs) : List Nat :=
  [al.buffer, al.readBuffer, al.writeBuffer].reduceOption

/-- All three allocations succeed. -/
def BufAllocs.Granted (al : BufAllocs) : Prop :=
  al.buffer.isSome = true ∧ al.readBuffer.isSome = true ∧ al.writeBuffer.isSome = true

/-- A slot of `conns`: whether `spe_task_init` was called on the tasks, and the addresses of the
buffers.  `live` are the buffers that are allocated and not freed. -/
structure ConnSlot where
  fd : Nat
  readTask : Bool
  writeTask : Bool
  postReadTask : Bool
  postWriteTask : Bool
  buffer : Option Nat
  readBuffer : Option Nat
  writeBuffer : Option Nat
  live : List Nat

/-- What `spe_conn_create` does: it returns `NULL` or the connection, or it uses a buffer that is
not allocated. -/
inductive CreateRes
  | null
  | conn
  | crash
  deriving DecidableEq

namespace ConnSlot

variable (s : ConnSlot)

/-- The slot as `calloc` leaves it; `live` are the buffers of others. -/
def zero (live : List Nat) : ConnSlot where
  fd := 0
  readTask := false
  writeTask := false
  postReadTask := false
  postWriteTask := false
  buffer := none
  readBuffer := none
  writeBuffer := none
  live := live

/-- `spe_buf_destroy`; a null pointer is left alone. -/
def bufDestroy (live : List Nat) : Option Nat → List Nat
  | none => live
  | some addr => live.erase addr

/-- `conn_initialize`. -/
def connInitialize (fd : Nat) (al : BufAllocs) : ConnSlot × Bool :=
  let s : ConnSlot := { s with
    fd := fd
    readTask := true
    writeTask := true
    postReadTask := true
    postWriteTask := true
    buffer := al.buffer
    readBuffer := al.readBuffer
    writeBuffer := al.writeBuffer
    live := al.addrs ++ s.live }
  if s.buffer.isNone ∨ s.readBuffer.isNone ∨ s.writeBuffer.isNone then
    ({ s with
      live := bufDestroy (bufDestroy (bufDestroy s.live s.buffer) s.readBuffer) s.writeBuffer },
      false)
  else (s, true)

/-- `spe_buf_clean` may be called on the pointer. -/
def holds (ptr : Option Nat) : Bool :=
  match ptr with
  | none => false
  | some addr => s.live.contains addr

/-- `spe_conn_create`. -/
def create (maxfd fd : Nat) (al : BufAllocs) : ConnSlot × CreateRes :=
  if maxfd ≤ fd then (s, .null)
  else
    match if s.fd = 0 then s.connInitialize fd al else (s, true) with
    | (s, false) => (s, .null)
    | (s, true) =>
        if s.holds s.buffer ∧ s.holds s.readBuffer ∧ s.holds s.writeBuffer then (s, .conn)
        else (s, .crash)

/-- The connection has three buffers of its own, and its tasks are initialised. -/
structure Ready (s : ConnSlot) : Prop where
  buffers : ∃ b r w, s.buffer = some b ∧ s.readBuffer = some r ∧ s.writeBuffer = some w ∧
    [b, r, w].Nodup ∧ b ∈ s.live ∧ r ∈ s.live ∧ w ∈ s.live
  tasks : s.readTask = true ∧ s.writeTask = true ∧ s.postReadTask = true ∧ s.postWriteTask = true

/-- A creation returns `NULL` or a connection that is ready. -/
def Served (out : ConnSlot × CreateRes) : Prop := out.2 = .null ∨ (out.2 = .conn ∧ out.1.Ready)

/-- The addresses that are returned are not in use. -/
def Fresh (al : BufAllocs) : Prop := al.addrs.Nodup ∧ ∀ addr ∈ al.addrs, addr ∉ s.live

end ConnSlot

/-- The calls on a slot. -/
inductive SlotCall
  | create (al : BufAllocs)
  | destroy

namespace ConnSlot

instance (s : ConnSlot) (al : BufAllocs) : Decidable (s.Fresh al) :=
  inferInstanceAs (Decidable (_ ∧ _))

/-- One call.  A creation that crashes is the last one. -/
def step (maxfd fd : Nat) (s : ConnSlot) : SlotCall → Option ConnSlot
  | .create al =>
      if s.Fresh al ∧ (s.create maxfd fd al).2 ≠ .crash then some (s.create maxfd fd al).1 else none
  | .destroy => some s

/-- The allocations of the first creation. -/
def firstAllocs : List SlotCall → Option BufAllocs
  | [] => none
  | .create al :: _ => some al
  | .destroy :: calls => firstAllocs calls

/-- The first creation, if there was one, got its buffers. -/
def Clean (calls : List SlotCall) : Prop := ∀ al, firstAllocs calls = some al → al.Granted

variable {s s' : ConnSlot} {maxfd fd : Nat} {al : BufAllocs} {calls : List SlotCall}

/-- Without a buffer that was asked for, the slot lacks it. -/
def Lacks (s : ConnSlot) : Prop :=
  s.buffer = none ∨ s.readBuffer = none ∨ s.writeBuffer = none

/-- Not all allocations succeed. -/
theorem not_granted : ¬ al.Granted ↔
    al.buffer.isNone = true ∨ al.readBuffer.isNone = true ∨ al.writeBuffer.isNone = true := by
  unfold BufAllocs.Granted
  cases al.buffer <;> cases al.readBuffer <;> cases al.writeBuffer <;> simp

/-- **`conn_initialize`** with its allocations. -/
theorem connInitialize_granted (s : ConnSlot) (fd : Nat) (hal : al.Granted) (hfresh : s.Fresh al) :
    ∃ s', s.connInitialize fd al = (s', true) ∧ s'.fd = fd ∧ s'.Ready := by
  have hnot : ¬ (al.buffer.isNone = true ∨ al.readBuffer.isNone = true ∨
      al.writeBuffer.isNone = true) := fun h => not_granted.mpr h hal
  refine ⟨_, if_neg hnot, rfl, ⟨?_, rfl, rfl, rfl, rfl⟩⟩
  obtain ⟨hb, hr, hw⟩ := hal
  obtain ⟨b, hb⟩ := Option.isSome_iff_exists.mp hb
  obtain ⟨r, hr⟩ := Option.isSome_iff_exists.mp hr
  obtain ⟨w, hw⟩ := Option.isSome_iff_exists.mp hw
  have haddrs : al.addrs = [b, r, w] := by
    unfold BufAllocs.addrs
    rw [hb, hr, hw]
    rfl
  refine ⟨b, r, w, hb, hr, hw, haddrs ▸ hfresh.1, ?_, ?_, ?_⟩ <;>
    exact List.mem_append_left _ (by simp [haddrs])

/-- **`conn_initialize`** without one of them: `_fd` is set all the same. -/
theorem connInitialize_denied (s : ConnSlot) (fd : Nat) (hal : ¬ al.Granted) :
    ∃ s', s.connInitialize fd al = (s', false) ∧ s'.fd = fd ∧ s'.Lacks := by
  have hnone := not_granted.mp hal
  refine ⟨_, if_pos hnone, rfl, ?_⟩
  exact hnone.imp Option.isNone_iff_eq_none.mp
    (Or.imp Option.isNone_iff_eq_none.mp Option.isNone_iff_eq_none.mp)

/-- The buffers of a slot that is ready can be used. -/
theorem Ready.holds (h : s.Ready) : s.holds s.buffer = true ∧ s.holds s.readBuffer = true ∧
    s.holds s.writeBuffer = true := by
  obtain ⟨b, r, w, hb, hr, hw, _, hb', hr', hw'⟩ := h.buffers
  rw [hb, hr, hw]
  exact ⟨List.contains_iff_mem.mpr hb', List.contains_iff_mem.mpr hr',
    List.contains_iff_mem.mpr hw'⟩

/-- `spe_conn_create` for the first time. -/
theorem create_first (hfd : fd < maxfd) (hzero : s.fd = 0) (hfresh : s.Fresh al) :
    (s.create maxfd fd al).1.fd = fd ∧
    (al.Granted → (s.create maxfd fd al).2 = .conn ∧ (s.create maxfd fd al).1.Ready) ∧
    (¬ al.Granted → (s.create maxfd fd al).2 = .null ∧ (s.create maxfd fd al).1.Lacks) := by
  unfold create
  rw [if_neg (Nat.not_le_of_lt hfd), if_pos hzero]
  by_cases hal : al.Granted
  · obtain ⟨s', hinit, hfd', hready⟩ := connInitialize_granted s fd hal hfresh
    rw [hinit]
    dsimp only
    rw [if_pos hready.holds]
    exact ⟨hfd', fun _ => ⟨rfl, hready⟩, fun h => absurd hal h⟩
  · obtain ⟨s', hinit, hfd', hlacks⟩ := connInitialize_denied s fd hal
    rw [hinit]
    exact ⟨hfd', fun h => absurd h hal, fun _ => ⟨rfl, hlacks⟩⟩

/-- It serves its caller, whatever the allocator answers. -/
theorem served_first (hfd : fd < maxfd) (hzero : s.fd = 0) (hfresh : s.Fresh al) :
    Served (s.create maxfd fd al) := by
  obtain ⟨_, hgranted, hdenied⟩ := create_first hfd hzero hfresh
  by_cases hal : al.Granted
  · exact Or.inr (hgranted hal)
  · exact Or.inl (hdenied hal).1

/-- `spe_conn_create` on a slot that has its buffers. -/
theorem create_again (hfd : fd < maxfd) (hset : s.fd ≠ 0) (hready : s.Ready) :
    s.create maxfd fd al = (s, .conn) := by
  unfold create
  rw [if_neg (Nat.not_le_of_lt hfd), if_neg hset]
  dsimp only
  exact if_pos hready.holds

/-- `spe_conn_create` on a slot that lacks one. -/
theorem create_lacking (hfd : fd < maxfd) (hset : s.fd ≠ 0) (hlacks : s.Lacks) :
    s.create maxfd fd al = (s, .crash) := by
  unfold create
  rw [if_neg (Nat.not_le_of_lt hfd), if_neg hset]
  dsimp only
  refine if_neg ?_
  rintro ⟨hb, hr, hw⟩
  rcases hlacks with hnone | hnone | hnone
  · rw [hnone] at hb
    cases hb
  · rw [hnone] at hr
    cases hr
  · rw [hnone] at hw
    cases hw

/-- What the first creation has left in the slot of a descriptor other than 0. -/
structure Left (fd : Nat) (calls : List SlotCall) (s : ConnSlot) : Prop where
  unused : firstAllocs calls = none → s.fd = 0
  granted : ∀ al, firstAllocs calls = some al → al.Granted → s.fd = fd ∧ s.Ready
  denied : ∀ al, firstAllocs calls = some al → ¬ al.Granted → s.fd = fd ∧ s.Lacks

/-- The first creation stays the first one. -/
theorem firstAllocs_append (calls : List SlotCall) (c : SlotCall) :
    firstAllocs (calls ++ [c]) = (firstAllocs calls).or (firstAllocs [c]) := by
  induction calls with
  | nil => rfl
  | cons first calls ih =>
      cases first with
      | create al => rfl
      | destroy => exact ih

/-- One call of the run. -/
theorem step_create_eq_some : s.step maxfd fd (.create al) = some s' ↔
    s.Fresh al ∧ (s.create maxfd fd al).2 ≠ .crash ∧ s' = (s.create maxfd fd al).1 := by
  unfold step
  dsimp only
  by_cases h : s.Fresh al ∧ (s.create maxfd fd al).2 ≠ .crash
  · rw [if_pos h, Option.some.injEq]
    exact ⟨fun heq => ⟨h.1, h.2, heq.symm⟩, fun h => h.2.2.symm⟩
  · rw [if_neg h]
    exact ⟨by rintro ⟨⟩, fun h' => absurd ⟨h'.1, h'.2.1⟩ h⟩

/-- **Step lemma.** -/
theorem Left.step (h : Left fd calls s) (hfd : fd < maxfd) (hne : fd ≠ 0) {c : SlotCall}
    (hstep : s.step maxfd fd c = some s') : Left fd (calls ++ [c]) s' := by
  cases c with
  | destroy =>
      obtain rfl := Option.some.inj hstep
      have hsame : firstAllocs (calls ++ [.destroy]) = firstAllocs calls := by
        rw [firstAllocs_append]
        exact Option.or_none
      exact ⟨hsame ▸ h.unused, hsame ▸ h.granted, hsame ▸ h.denied⟩
  | create al =>
      obtain ⟨hfresh, hcrash, rfl⟩ := step_create_eq_some.mp hstep
      cases hfirst : firstAllocs calls with
      | none =>
          have hnow : firstAllocs (calls ++ [.create al]) = some al := by
            rw [firstAllocs_append, hfirst]
            rfl
          obtain ⟨hset, hgranted, hdenied⟩ := create_first hfd (h.unused hfirst) hfresh
          refine ⟨?_, ?_, ?_⟩
          · intro hnone
            cases hnow.symm.trans hnone
          · intro al' hal' hgrant
            obtain rfl := Option.some.inj (hnow.symm.trans hal')
            exact ⟨hset, (hgranted hgrant).2⟩
          · intro al' hal' hdeny
            obtain rfl := Option.some.inj (hnow.symm.trans hal')
            exact ⟨hset, (hdenied hdeny).2⟩
      | some al' =>
          have hnow : firstAllocs (calls ++ [.create al]) = firstAllocs calls := by
            rw [firstAllocs_append, hfirst]
            rfl
          have hsame : (s.create maxfd fd al).1 = s := by
            by_cases hgrant : al'.Granted
            · obtain ⟨hset, hready⟩ := h.granted al' hfirst hgrant
              rw [create_again hfd (hset.symm ▸ hne) hready]
            · obtain ⟨hset, hlacks⟩ := h.denied al' hfirst hgrant
              rw [create_lacking hfd (hset.symm ▸ hne) hlacks]
          rw [hsame]
          exact ⟨hnow ▸ h.unused, hnow ▸ h.granted, hnow ▸ h.denied⟩

/-- The slot of descriptor 0 is initialised by every creation, as its `_fd` stays 0. -/
theorem unset_run {live : List Nat} (hfd : 0 < maxfd)
    (hrun : Run (step maxfd 0) anyStep (zero live) calls s) : s.fd = 0 := by
  refine hrun.invariant (fun s => s.fd = 0) rfl ?_
  intro s c s' hunset _ hstep
  cases c with
  | destroy =>
      obtain rfl := Option.some.inj hstep
      exact hunset
  | create al =>
      obtain ⟨hfresh, _, rfl⟩ := step_create_eq_some.mp hstep
      exact (create_first hfd hunset hfresh).1

/-- The run lemma for the other descriptors. -/
theorem left_run {live : List Nat} (hfd : fd < maxfd) (hne : fd ≠ 0)
    (hrun : Run (step maxfd fd) anyStep (zero live) calls s) : Left fd calls s := by
  refine hrun.invariant_past (Left fd) ⟨fun _ => rfl, by rintro _ ⟨⟩, by rintro _ ⟨⟩⟩ ?_
  intro before s c s' h _ hstep
  exact h.step hfd hne hstep

/-- **A failed creation poisons the slot.**  A creation returns `NULL` or a connection that is
ready exactly when the descriptor is 0 or the first creation on the slot got its buffers. -/
theorem creation_served (hfd : fd < maxfd) {live : List Nat}
    (hrun : Run (step maxfd fd) anyStep (zero live) calls s) (hfresh : s.Fresh al) :
    Served (s.create maxfd fd al) ↔ fd = 0 ∨ Clean calls := by
  by_cases hzero : fd = 0
  · subst hzero
    exact iff_of_true (served_first hfd (unset_run hfd hrun) hfresh) (Or.inl rfl)
  · have hleft := left_run hfd hzero hrun
    rw [or_iff_right hzero]
    cases hfirst : firstAllocs calls with
    | none =>
        refine iff_of_true (served_first hfd (hleft.unused hfirst) hfresh) ?_
        intro al' hal'
        cases hfirst.symm.trans hal'
    | some al' =>
        by_cases hgrant : al'.Granted
        · obtain ⟨hset, hready⟩ := hleft.granted al' hfirst hgrant
          refine iff_of_true ?_ ?_
          · rw [create_again hfd (hset.symm ▸ hzero) hready]
            exact Or.inr ⟨rfl, hready⟩
          · intro al'' hal''
            obtain rfl := Option.some.inj (hfirst.symm.trans hal'')
            exact hgrant
        · obtain ⟨hset, hlacks⟩ := hleft.denied al' hfirst hgrant
          refine iff_of_false ?_ (fun hclean => hgrant (hclean al' hfirst))
          rw [create_lacking hfd (hset.symm ▸ hzero) hlacks]
          rintro (h | ⟨h, _⟩) <;> cases h

/-- The first creation gets its buffers, and the next one allocates nothing. -/
theorem creation_served_again : ∃ s, Run (step 10 5) anyStep (zero [])
    [.create ⟨some 1, some 2, some 3⟩, .destroy] s ∧
    Served (s.create 10 5 ⟨none, none, none⟩) := by
  have hrun : Run (step 10 5) anyStep (zero []) [.create ⟨some 1, some 2, some 3⟩, .destroy]
      ⟨5, true, true, true, true, some 1, some 2, some 3, [1, 2, 3]⟩ := run_iff_exec.mpr rfl
  refine ⟨_, hrun, (creation_served (by decide) hrun (by decide)).mpr (Or.inr ?_)⟩
  intro al hal
  obtain rfl := Option.some.inj hal
  exact ⟨rfl, rfl, rfl⟩

/-- The second allocation of the first creation fails; the second creation uses what is not
there. -/
theorem creation_served_fails :
    ¬ ∀ (maxfd fd : Nat) (live : List Nat) (calls : List SlotCall) (s : ConnSlot) (al : BufAllocs),
      fd < maxfd → Run (step maxfd fd) anyStep (zero live) calls s → s.Fresh al →
      Served (s.create maxfd fd al) := by
  intro hall
  have hserved := hall 10 5 [] [.create ⟨some 1, none, some 3⟩]
    ⟨5, true, true, true, true, some 1, none, some 3, []⟩ ⟨some 1, some 2, some 3⟩ (by decide)
    (run_iff_exec.mpr rfl) (by decide)
  rcases hserved with h | ⟨h, _⟩ <;> cases h

end ConnSlot

end Spe
