import Mathlib.Logic.Function.Basic
import Spe.Epoll
import Spe.Transition

/-!
# The epoll table and the kernel

The kernel keeps for each descriptor the events it is registered for, if it is.
`EPOLL_CTL_ADD` is valid without a registration, `EPOLL_CTL_MOD` and `EPOLL_CTL_DEL`
with one.  `change_epoll` chooses between them by the cached mask and the new one, so
the cache has to mirror the kernel exactly.

The field `mask` has two bits.  A mask that has other bits but neither that of reading
nor that of writing registers the descriptor for nothing, and is cached as
`SPE_EPOLL_NONE`.
-/

namespace Spe

open Transition

variable {T : Type}

/-- What the kernel has registered for a descriptor. -/
abbrev Registration := Option Interest

/-- The operation is valid. -/
def EpollOp.valid (op : EpollOp) (k : Registration) : Bool :=
  match op with
  | .add => k.isNone
  | .mod => k.isSome
  | .del => k.isSome

/-- The registration after the operation has taken effect. -/
def EpollOp.apply (op : EpollOp) (i : Interest) : Registration :=
  match op with
  | .add => some i
  | .mod => some i
  | .del => none

/-- What the kernel answers: an operation fails when it is not valid, or for another
reason. -/
def kernelCtl (k : Registration) (fails : Bool) : EpollCtl := fun op _ => op.valid k && !fails

/-- The `epoll_ctl` that `change_epoll` calls. -/
def Epoll.issued (e : Epoll T) (newmask : Mask) : Option (EpollOp × Interest) :=
  if e.wide = newmask then none else some (e.op newmask, Epoll.interest newmask)

/-- The registration after `change_epoll`. -/
def Epoll.registers (e : Epoll T) (newmask : Mask) (k : Registration) (fails : Bool) :
    Registration :=
  match e.issued newmask with
  | none => k
  | some (op, i) => if kernelCtl k fails op i then op.apply i else k

/-- The interest set that an entry caches; `SPE_EPOLL_NONE` means not registered. -/
def Epoll.cached (e : Epoll T) : Registration :=
  if e.wide = SPE_EPOLL_NONE then none else some (Epoll.interest e.wide)

/-- The mask of `spe_epoll_enable` is `SPE_EPOLL_NONE`, or has one of the two bits. -/
def Mask.Meant (mask : Mask) : Prop := mask = SPE_EPOLL_NONE ∨ ∃ side, mask.has side = true

/-- A mask without bits from the third on and without the first two is 0. -/
theorem Mask.eq_none {mask : Mask} (hhigh : ∀ i, 2 ≤ i → mask.getLsbD i = false)
    (hlow : ∀ side, mask.has side = false) : mask = SPE_EPOLL_NONE := by
  apply BitVec.eq_of_getLsbD_eq
  intro i _
  have hzero : (SPE_EPOLL_NONE : Mask).getLsbD i = false := by simp [SPE_EPOLL_NONE]
  rw [hzero]
  match i with
  | 0 => exact (Mask.has_eq mask .read).symm.trans (hlow .read)
  | 1 => exact (Mask.has_eq mask .write).symm.trans (hlow .write)
  | i + 2 => exact hhigh (i + 2) (by omega)

/-- The field has two bits. -/
theorem Epoll.wide_high (e : Epoll T) {i : Nat} (hi : 2 ≤ i) : e.wide.getLsbD i = false := by
  rw [Epoll.wide, BitVec.getLsbD_setWidth, BitVec.getLsbD_of_ge e.mask i hi, Bool.and_false]

/-- A cached mask other than 0 has one of the two bits. -/
theorem Epoll.wide_meant (e : Epoll T) : e.wide.Meant := by
  by_cases hside : ∃ side, e.wide.has side = true
  · exact Or.inr hside
  · left
    refine Mask.eq_none (fun i hi => e.wide_high hi) ?_
    intro side
    exact Bool.eq_false_iff.mpr (fun h => hside ⟨side, h⟩)

/-- What disabling asks for is 0, or has one of the two bits. -/
theorem Epoll.without_meant (e : Epoll T) (mask : Mask) : Mask.Meant (e.wide &&& ~~~mask) := by
  by_cases hside : ∃ side, Mask.has (e.wide &&& ~~~mask) side = true
  · exact Or.inr hside
  · left
    refine Mask.eq_none ?_ (fun side => Bool.eq_false_iff.mpr (fun h => hside ⟨side, h⟩))
    intro i hi
    rw [BitVec.getLsbD_and, e.wide_high hi, Bool.false_and]

/-- What enabling asks for is 0, or has one of the two bits, if the mask does. -/
theorem Epoll.with_meant (e : Epoll T) {mask : Mask} (h : mask.Meant) :
    Mask.Meant (e.wide ||| mask) := by
  rcases h with hnone | ⟨side, hside⟩
  · rw [hnone]
    have hsame : e.wide ||| SPE_EPOLL_NONE = e.wide := BitVec.or_zero
    rw [hsame]
    exact e.wide_meant
  · right
    refine ⟨side, ?_⟩
    rw [Mask.has_or, hside, Bool.or_true]

/-- The interest of a mask depends on the two bits only. -/
theorem Epoll.interest_congr {m m' : Mask} (h : ∀ side, m.has side = m'.has side) :
    Epoll.interest m = Epoll.interest m' := by
  simp only [Epoll.interest, h]

/-- The entry that stores a mask caches it, if the mask is meant. -/
theorem Epoll.cached_store (e : Epoll T) {newmask : Mask} (h : newmask.Meant) :
    ({ e with mask := newmask.setWidth 2 } : Epoll T).cached =
      if newmask = SPE_EPOLL_NONE then none else some (Epoll.interest newmask) := by
  have hhas : ∀ side,
      ({ e with mask := newmask.setWidth 2 } : Epoll T).wide.has side = newmask.has side :=
    fun side => newmask.has_field side
  unfold Epoll.cached
  by_cases hnone : newmask = SPE_EPOLL_NONE
  · have hwide : ({ e with mask := newmask.setWidth 2 } : Epoll T).wide = SPE_EPOLL_NONE := by
      rw [hnone]
      rfl
    rw [if_pos hwide, if_pos hnone]
  · have hwide : ({ e with mask := newmask.setWidth 2 } : Epoll T).wide ≠ SPE_EPOLL_NONE := by
      intro hzero
      rcases h with heq | ⟨side, hside⟩
      · exact hnone heq
      · rw [← hhas side, hzero] at hside
        cases side <;> revert hside <;> decide
    rw [if_neg hwide, if_neg hnone, Epoll.interest_congr hhas]

/-- Where the cache mirrors the kernel, the operation of `change_epoll` is valid. -/
theorem Epoll.op_valid (e : Epoll T) (newmask : Mask) : (e.op newmask).valid e.cached = true := by
  unfold Epoll.op Epoll.cached
  by_cases hnone : e.wide = SPE_EPOLL_NONE
  · rw [if_pos hnone, if_pos hnone]
    rfl
  · rw [if_neg hnone, if_neg hnone]
    split <;> rfl

/-- **`change_epoll`** keeps the cache a mirror of the kernel. -/
theorem Epoll.changeEpoll_cached (e : Epoll T) {newmask : Mask} (h : newmask.Meant)
    (fails : Bool) :
    (e.changeEpoll newmask (kernelCtl e.cached fails)).1.cached =
      e.registers newmask e.cached fails := by
  unfold Epoll.changeEpoll Epoll.registers Epoll.issued
  by_cases hsame : e.wide = newmask
  · rw [if_pos hsame, if_pos hsame]
  · rw [if_neg hsame, if_neg hsame]
    dsimp only
    split
    · rw [e.cached_store h]
      unfold Epoll.op
      by_cases hwide : e.wide = SPE_EPOLL_NONE
      · have hnew : newmask ≠ SPE_EPOLL_NONE := fun heq => hsame (hwide.trans heq.symm)
        rw [if_pos hwide, if_neg hnew]
        rfl
      · rw [if_neg hwide]
        split <;> rfl
    · rfl

/-- The table `epolls` and the registrations of the kernel. -/
structure EpollSystem (T : Type) where
  maxfd : Nat
  epolls : Nat → Epoll T
  kernel : Nat → Registration

/-- A call, and whether `epoll_ctl` fails for a reason of its own. -/
inductive EpollCall (T : Type)
  | enable (fd : Nat) (mask : Mask) (task : T) (fails : Bool)
  | disable (fd : Nat) (mask : Mask) (fails : Bool)

namespace EpollCall

variable (call : EpollCall T)

/-- The descriptor of the call. -/
def fd : EpollCall T → Nat
  | .enable fd _ _ _ => fd
  | .disable fd _ _ => fd

/-- `epoll_ctl` fails for a reason of its own. -/
def fails : EpollCall T → Bool
  | .enable _ _ _ fails => fails
  | .disable _ _ fails => fails

/-- The entry of the descriptor with its pointers set. -/
def pointed (e : Epoll T) : EpollCall T → Epoll T
  | .enable _ mask task _ => e.point mask (some task)
  | .disable _ mask _ => e.point mask none

/-- The mask that `change_epoll` is called with. -/
def newmask (e : Epoll T) : EpollCall T → Mask
  | .enable _ mask _ _ => e.wide ||| mask
  | .disable _ mask _ => e.wide &&& ~~~mask

/-- The bits that the interest is to have after the call. -/
def requested (old : Bool) (side : Side) : EpollCall T → Bool
  | .enable _ mask _ _ => old || mask.has side
  | .disable _ mask _ => old && !mask.has side

/-- The new entry and the result. -/
def run (e : Epoll T) (ctl : EpollCtl) : EpollCall T → Epoll T × Bool
  | .enable _ mask task _ => e.enable mask task ctl
  | .disable _ mask _ => e.disable mask ctl

/-- Both calls set pointers and call `change_epoll`. -/
theorem run_eq (e : Epoll T) (ctl : EpollCtl) :
    call.run e ctl = (call.pointed e).changeEpoll (call.newmask e) ctl := by
  cases call <;> rfl

/-- Both calls ask for the requested bits. -/
theorem newmask_has (e : Epoll T) (side : Side) :
    (call.newmask e).has side = call.requested (e.wide.has side) side := by
  cases call with
  | enable fd mask task fails => exact Mask.has_or e.wide mask side
  | disable fd mask fails => exact Mask.has_and_not e.wide mask side

/-- The mask of `spe_epoll_enable` is meant; that of `spe_epoll_disable` may be any. -/
def Meant : EpollCall T → Prop
  | .enable _ mask _ _ => mask.Meant
  | .disable _ _ _ => True

/-- Then what `change_epoll` is asked for is. -/
theorem Meant.newmask {call : EpollCall T} (h : call.Meant) (e : Epoll T) :
    (call.newmask e).Meant := by
  cases call with
  | enable fd mask task fails => exact e.with_meant h
  | disable fd mask fails => exact e.without_meant mask

end EpollCall

namespace EpollSystem

/-- `init_epoll`. -/
def start (T : Type) (maxfd : Nat) : EpollSystem T where
  maxfd := maxfd
  epolls := fun _ => .zero
  kernel := fun _ => none

variable (s : EpollSystem T) (call : EpollCall T)

/-- The entry after the call, and its result. -/
def result : Epoll T × Bool :=
  call.run (s.epolls call.fd) (kernelCtl (s.kernel call.fd) call.fails)

/-- The `epoll_ctl` that the call issues. -/
def issued : Option (EpollOp × Interest) :=
  (s.epolls call.fd).issued (call.newmask (s.epolls call.fd))

/-- The registration of the descriptor after the call. -/
def registered : Registration :=
  (s.epolls call.fd).registers (call.newmask (s.epolls call.fd)) (s.kernel call.fd) call.fails

/-- The step of the table and the kernel, on descriptors below `epoll_maxfd`. -/
def step : Option (EpollSystem T) :=
  if s.maxfd ≤ call.fd then none
  else some
    { s with
      epolls := Function.update s.epolls call.fd (s.result call).1
      kernel := Function.update s.kernel call.fd (s.registered call) }

/-- The table mirrors the kernel. -/
def Mirrors : Prop := ∀ fd, s.kernel fd = (s.epolls fd).cached

variable {s call}

/-- The mask decides what is cached. -/
theorem cached_congr {e e' : Epoll T} (h : e.mask = e'.mask) : e.cached = e'.cached := by
  have hwide : e.wide = e'.wide := by
    unfold Epoll.wide
    rw [h]
  unfold Epoll.cached
  rw [hwide]

/-- **Step lemma.**  The table goes on to mirror the kernel. -/
theorem Mirrors.step {s s' : EpollSystem T} {call : EpollCall T} (h : s.Mirrors)
    (hmeant : call.Meant) (hstep : s.step call = some s') : s'.Mirrors := by
  obtain ⟨_, hstep⟩ := Option.ite_none_left_eq_some.mp hstep
  obtain rfl := Option.some.inj hstep
  intro fd
  by_cases hfd : fd = call.fd
  · subst hfd
    dsimp only
    rw [Function.update_self, Function.update_self]
    let e := s.epolls call.fd
    have hpointed : (call.pointed e).cached = e.cached := by
      cases call <;> rfl
    have hregisters : (call.pointed e).registers (call.newmask e) e.cached call.fails =
        e.registers (call.newmask e) e.cached call.fails := by
      cases call <;> rfl
    have hchange := (call.pointed e).changeEpoll_cached (hmeant.newmask e) call.fails
    rw [hpointed] at hchange
    unfold EpollSystem.registered EpollSystem.result
    rw [h call.fd, call.run_eq, hchange, hregisters]
  · dsimp only
    rw [Function.update_of_ne hfd, Function.update_of_ne hfd]
    exact h fd

/-- The table and the kernel at the start. -/
theorem mirrors_start (maxfd : Nat) : (start T maxfd).Mirrors := fun _ => rfl

/-- **Run lemma.**  In every run with meant masks the table mirrors the kernel. -/
theorem mirrors_of_run {maxfd : Nat} {s : EpollSystem T} {calls : List (EpollCall T)}
    (h : Run step (fun _ call => call.Meant) (start T maxfd) calls s) : s.Mirrors :=
  h.invariant Mirrors (mirrors_start maxfd) (fun _ _ _ hm hmeant hstep => hm.step hmeant hstep)

end EpollSystem

/-- The registration has the event of a side. -/
def Registration.wants (k : Registration) (side : Side) : Bool :=
  match k, side with
  | none, _ => false
  | some i, .read => i.readable
  | some i, .write => i.writable

/-- The cache has the bits of the mask. -/
theorem Epoll.cached_wants (e : Epoll T) (side : Side) :
    Registration.wants e.cached side = e.wide.has side := by
  unfold Epoll.cached
  by_cases hnone : e.wide = SPE_EPOLL_NONE
  · rw [if_pos hnone, hnone]
    cases side <;> decide
  · rw [if_neg hnone]
    cases side <;> rfl

/-- What a call does where the table mirrors the kernel. -/
structure EpollSystem.CallOk (s : EpollSystem T) (call : EpollCall T) (s' : EpollSystem T) :
    Prop where
  /-- The operation that is issued is valid in the kernel's state. -/
  valid : ∀ op i, s.issued call = some (op, i) → op.valid (s.kernel call.fd) = true
  /-- A call that returns true ends with the requested interest, in the kernel and in the
  table. -/
  granted : (s.result call).2 = true → ∀ side,
    (s'.kernel call.fd).wants side =
        call.requested ((s.kernel call.fd).wants side) side ∧
      (s'.epolls call.fd).wide.has side = (s'.kernel call.fd).wants side
  /-- A call that returns false changes neither. -/
  failed : (s.result call).2 = false →
    s'.kernel call.fd = s.kernel call.fd ∧ (s'.epolls call.fd).wide = (s.epolls call.fd).wide
  /-- Other descriptors are unchanged. -/
  others : ∀ fd, fd ≠ call.fd → s'.epolls fd = s.epolls fd ∧ s'.kernel fd = s.kernel fd

/-- **One call.** -/
theorem EpollSystem.Mirrors.callOk {s s' : EpollSystem T} {call : EpollCall T} (h : s.Mirrors)
    (hmeant : call.Meant) (hstep : s.step call = some s') : s.CallOk call s' := by
  have hmirrors' : s'.Mirrors := h.step hmeant hstep
  obtain ⟨_, hstep⟩ := Option.ite_none_left_eq_some.mp hstep
  obtain rfl := Option.some.inj hstep
  have hentry : Function.update s.epolls call.fd (s.result call).1 call.fd =
      (s.result call).1 := Function.update_self call.fd _ s.epolls
  have hresult : s.result call = ((call.pointed (s.epolls call.fd)).changeEpoll
      (call.newmask (s.epolls call.fd)) (kernelCtl (s.kernel call.fd) call.fails)) :=
    call.run_eq _ _
  refine ⟨?_, ?_, ?_, ?_⟩
  · intro op i hissued
    unfold EpollSystem.issued Epoll.issued at hissued
    obtain ⟨_, hissued⟩ := Option.ite_none_left_eq_some.mp hissued
    obtain ⟨rfl, _⟩ := Prod.mk.inj (Option.some.inj hissued)
    rw [h call.fd]
    exact (s.epolls call.fd).op_valid _
  · intro htrue side
    rw [hmirrors' call.fd, Epoll.cached_wants, h call.fd, Epoll.cached_wants]
    refine ⟨?_, rfl⟩
    dsimp only
    rw [hresult] at htrue
    rw [hentry, hresult, Epoll.changeEpoll_has _ htrue, call.newmask_has]
  · intro hfalse
    have hsame : (s.result call).1 = call.pointed (s.epolls call.fd) := by
      rw [hresult] at hfalse ⊢
      exact Epoll.changeEpoll_fails _ hfalse
    have hmask : (s.result call).1.mask = (s.epolls call.fd).mask := by
      rw [hsame]
      cases call <;> rfl
    constructor
    · rw [hmirrors' call.fd, h call.fd]
      dsimp only
      rw [hentry]
      exact EpollSystem.cached_congr hmask
    · dsimp only
      rw [hentry, Epoll.wide, hmask]
      rfl
  · intro fd hfd
    exact ⟨Function.update_of_ne hfd _ _, Function.update_of_ne hfd _ _⟩

/-- **The epoll table mirrors the kernel** in every run whose `spe_epoll_enable` calls have
masks that are 0 or have one of the two bits, and every such call uses a valid operation
and ends with the interest that it asks for. -/
theorem mirrors_kernel {maxfd : Nat} {s : EpollSystem T} {calls : List (EpollCall T)}
    (h : Run EpollSystem.step (fun _ call => call.Meant) (EpollSystem.start T maxfd) calls s) :
    (∀ fd, s.kernel fd = (s.epolls fd).cached) ∧
    ∀ call s', call.Meant → s.step call = some s' → s.CallOk call s' := by
  have hmirrors := EpollSystem.mirrors_of_run h
  exact ⟨hmirrors, fun call s' hmeant hstep => hmirrors.callOk hmeant hstep⟩

/-- Reading is enabled, enabling writing fails, and reading is disabled. -/
def readCalls : List (EpollCall Nat) :=
  [.enable 5 SPE_EPOLL_READ 0 false, .enable 5 SPE_EPOLL_WRITE 0 true,
    .disable 5 SPE_EPOLL_READ false]

/-- Afterwards the descriptor is not registered, and the next call uses the operation for
that. -/
theorem mirrors_kernel_read : ∃ s,
    Run EpollSystem.step (fun _ call => call.Meant) (EpollSystem.start Nat 8) readCalls s ∧
    s.kernel 5 = none ∧ (∀ fd, s.kernel fd = (s.epolls fd).cached) ∧
    ∀ call s', call.Meant → s.step call = some s' → s.CallOk call s' := by
  have hlast : (exec EpollSystem.step (EpollSystem.start Nat 8) readCalls).map
      (fun s => s.kernel 5) = some none := by decide
  obtain ⟨s, hexec, hkernel⟩ := Option.map_eq_some_iff.mp hlast
  have hrun : Run EpollSystem.step (fun _ call => call.Meant) (EpollSystem.start Nat 8)
      readCalls s := by
    refine run_of_exec ?_ hexec
    intro call hcall _
    simp only [readCalls, List.mem_cons, List.not_mem_nil, or_false] at hcall
    rcases hcall with rfl | rfl | rfl
    · exact Or.inr ⟨.read, by decide⟩
    · exact Or.inr ⟨.write, by decide⟩
    · trivial
  obtain ⟨hmirrors, hcalls⟩ := mirrors_kernel hrun
  exact ⟨s, hrun, hkernel, hmirrors, hcalls⟩

/-- **A mask with neither bit drifts.**  `spe_epoll_enable` with mask 4 registers the
descriptor and caches `SPE_EPOLL_NONE`; the next call issues an `EPOLL_CTL_ADD` that is not
valid. -/
theorem mirrors_kernel_fails : ∃ s,
    Run EpollSystem.step anyStep (EpollSystem.start Nat 8) [.enable 5 4 0 false] s ∧
    s.kernel 5 ≠ (s.epolls 5).cached ∧
    ∃ op i, s.issued (.enable 5 SPE_EPOLL_READ 0 false) = some (op, i) ∧
      op.valid (s.kernel 5) = false := by
  have hlast : (exec EpollSystem.step (EpollSystem.start Nat 8) [.enable 5 4 0 false]).map
      (fun s => (s.kernel 5, (s.epolls 5).cached,
        s.issued (.enable 5 SPE_EPOLL_READ 0 false))) =
      some (some ⟨false, false⟩, none, some (.add, ⟨true, false⟩)) := by decide
  obtain ⟨s, hexec, hfields⟩ := Option.map_eq_some_iff.mp hlast
  obtain ⟨hkernel, hrest⟩ := Prod.mk.inj hfields
  obtain ⟨hcached, hissued⟩ := Prod.mk.inj hrest
  refine ⟨s, run_iff_exec.mpr hexec, ?_, .add, ⟨true, false⟩, hissued, ?_⟩
  · rw [hkernel, hcached]
    exact nofun
  · rw [hkernel]
    rfl

end Spe
