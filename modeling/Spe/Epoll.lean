import Mathlib.Data.BitVec

/-!
# The epoll table (`spe_epoll.c`)

An entry of `epolls` holds the mask that is set in the kernel and the tasks
that its two kinds of events schedule.  What `epoll_ctl` answers is a
parameter.
-/

namespace Spe

/-- The two sides of a descriptor. -/
inductive Side
  | read
  | write
  deriving DecidableEq

/-- An `unsigned` mask. -/
abbrev Mask := BitVec 32

/-- `SPE_EPOLL_NONE`, `SPE_EPOLL_READ`, `SPE_EPOLL_WRITE`. -/
def SPE_EPOLL_NONE : Mask := 0

def SPE_EPOLL_READ : Mask := 1

def SPE_EPOLL_WRITE : Mask := 2

/-- `spe_epoll_t`; the mask is a field of two bits. -/
structure Epoll (T : Type) where
  mask : BitVec 2
  readTask : Option T
  writeTask : Option T

/-- `EPOLL_CTL_ADD`, `EPOLL_CTL_MOD`, `EPOLL_CTL_DEL`. -/
inductive EpollOp
  | add
  | mod
  | del
  deriving DecidableEq

/-- `EPOLLIN` and `EPOLLOUT` in `events`. -/
structure Interest where
  readable : Bool
  writable : Bool
  deriving DecidableEq

/-- Whether `epoll_ctl` succeeds. -/
abbrev EpollCtl := EpollOp → Interest → Bool

/-- `epoll_ctl` always succeeds. -/
def ctlGood : EpollCtl := fun _ _ => true

/-- Every call succeeds. -/
theorem ctlGood_succeeds (op : EpollOp) (i : Interest) : ctlGood op i = true := rfl

/-- The bit of a side is set. -/
def Mask.has (mask : Mask) (side : Side) : Bool :=
  match side with
  | .read => mask &&& SPE_EPOLL_READ ≠ 0
  | .write => mask &&& SPE_EPOLL_WRITE ≠ 0

/-- The number of the bit of a side. -/
def Side.bit : Side → Nat
  | .read => 0
  | .write => 1

/-- The bit of a side is one of the mask's bits. -/
theorem Mask.has_eq (mask : Mask) (side : Side) : mask.has side = mask.getLsbD side.bit := by
  have hbit : ∀ i < 32, decide (mask &&& BitVec.twoPow 32 i ≠ 0) = mask.getLsbD i := by
    intro i hi
    have hpow : BitVec.twoPow 32 i ≠ 0#32 := by
      intro hzero
      have hself := congrArg (fun m => m.getLsbD i) hzero
      simp [hi] at hself
    rw [BitVec.and_twoPow]
    cases mask.getLsbD i <;> simp [hpow]
  cases side with
  | read => exact hbit 0 (by omega)
  | write => exact hbit 1 (by omega)

/-- Masks are joined bit by bit. -/
theorem Mask.has_or (m m' : Mask) (side : Side) :
    Mask.has (m ||| m') side = (m.has side || m'.has side) := by
  simp only [Mask.has_eq, BitVec.getLsbD_or]

/-- A mask is taken out of another bit by bit. -/
theorem Mask.has_and_not (m m' : Mask) (side : Side) :
    Mask.has (m &&& ~~~m') side = (m.has side && !m'.has side) := by
  have hbit : side.bit < 32 := by cases side <;> decide
  simp only [Mask.has_eq, BitVec.getLsbD_and, BitVec.getLsbD_not, hbit, decide_true,
    Bool.true_and]

/-- The field of two bits keeps the bits of both sides. -/
theorem Mask.has_field (mask : Mask) (side : Side) :
    Mask.has ((mask.setWidth 2).setWidth 32) side = mask.has side := by
  simp only [Mask.has_eq, BitVec.getLsbD_setWidth]
  cases side <;> simp [Side.bit]

/-- `SPE_EPOLL_READ` is the bit of the read side. -/
theorem has_READ (side : Side) : SPE_EPOLL_READ.has side = true ↔ side = .read := by
  cases side <;> decide

/-- `SPE_EPOLL_WRITE` is the bit of the write side. -/
theorem has_WRITE (side : Side) : SPE_EPOLL_WRITE.has side = true ↔ side = .write := by
  cases side <;> decide

/-- Both bits together. -/
theorem has_both (side : Side) :
    Mask.has (SPE_EPOLL_READ ||| SPE_EPOLL_WRITE) side = true := by
  cases side <;> decide

namespace Epoll

variable {T : Type} (e : Epoll T)

/-- The mask as an `unsigned`. -/
def wide : Mask := e.mask.setWidth 32

/-- The operation that `change_epoll` asks for. -/
def op (newmask : Mask) : EpollOp :=
  if e.wide = SPE_EPOLL_NONE then .add
  else if newmask = SPE_EPOLL_NONE then .del
  else .mod

/-- The events that `change_epoll` asks for. -/
def interest (newmask : Mask) : Interest where
  readable := newmask.has .read
  writable := newmask.has .write

/-- `change_epoll`; the Boolean is its result. -/
def changeEpoll (newmask : Mask) (ctl : EpollCtl) : Epoll T × Bool :=
  if e.wide = newmask then (e, true)
  else if ctl (e.op newmask) (interest newmask) then
    ({ e with mask := newmask.setWidth 2 }, true)
  else (e, false)

/-- The task pointers of the sides in `mask` are set. -/
def point (mask : Mask) (task : Option T) : Epoll T :=
  { e with
    readTask := if mask.has .read then task else e.readTask
    writeTask := if mask.has .write then task else e.writeTask }

/-- `spe_epoll_enable` below `epoll_maxfd`. -/
def enable (mask : Mask) (task : T) (ctl : EpollCtl) : Epoll T × Bool :=
  (e.point mask (some task)).changeEpoll (e.wide ||| mask) ctl

/-- `spe_epoll_disable` below `epoll_maxfd`. -/
def disable (mask : Mask) (ctl : EpollCtl) : Epoll T × Bool :=
  (e.point mask none).changeEpoll (e.wide &&& ~~~mask) ctl

/-- The task of a side. -/
def taskOf (side : Side) : Option T :=
  match side with
  | .read => e.readTask
  | .write => e.writeTask

/-- An entry as `calloc` leaves it. -/
def zero : Epoll T where
  mask := 0
  readTask := none
  writeTask := none

/-- Nothing is enabled in it. -/
theorem zero_has (side : Side) : (zero : Epoll T).wide.has side = false := by
  have hwide : (zero : Epoll T).wide = SPE_EPOLL_NONE := rfl
  rw [hwide]
  cases side <;> decide

/-- Only the mask depends on what `epoll_ctl` answers. -/
@[simp] theorem changeEpoll_tasks (newmask : Mask) (ctl : EpollCtl) (side : Side) :
    (e.changeEpoll newmask ctl).1.taskOf side = e.taskOf side := by
  unfold changeEpoll
  split
  · rfl
  · split <;> rfl

/-- Enabling sets the pointers of the sides in the mask. -/
theorem enable_taskOf (mask : Mask) (task : T) (ctl : EpollCtl) (side : Side) :
    (e.enable mask task ctl).1.taskOf side =
      if mask.has side then some task else e.taskOf side := by
  rw [enable, changeEpoll_tasks]
  cases side <;> rfl

/-- Disabling clears the pointers of the sides in the mask. -/
theorem disable_taskOf (mask : Mask) (ctl : EpollCtl) (side : Side) :
    (e.disable mask ctl).1.taskOf side = if mask.has side then none else e.taskOf side := by
  rw [disable, changeEpoll_tasks]
  cases side <;> rfl

/-- After a change that succeeds the mask has the bits that were asked for. -/
theorem changeEpoll_has {newmask : Mask} {ctl : EpollCtl}
    (h : (e.changeEpoll newmask ctl).2 = true) (side : Side) :
    (e.changeEpoll newmask ctl).1.wide.has side = newmask.has side := by
  unfold changeEpoll at h ⊢
  split
  · rename_i hsame
    rw [hsame]
  · rename_i hnew
    rw [if_neg hnew] at h
    split
    · exact newmask.has_field side
    · rename_i hctl
      rw [if_neg hctl] at h
      cases h

/-- A change that fails keeps the mask. -/
theorem changeEpoll_fails {newmask : Mask} {ctl : EpollCtl}
    (h : (e.changeEpoll newmask ctl).2 = false) :
    (e.changeEpoll newmask ctl).1 = e := by
  unfold changeEpoll at h ⊢
  split
  · rfl
  · rename_i hnew
    rw [if_neg hnew] at h
    split
    · rename_i hctl
      rw [if_pos hctl] at h
      cases h
    · rfl

/-- The mask after a change. -/
theorem changeEpoll_has_if (newmask : Mask) (ctl : EpollCtl) (side : Side) :
    (e.changeEpoll newmask ctl).1.wide.has side =
      if (e.changeEpoll newmask ctl).2 then newmask.has side else e.wide.has side := by
  cases hres : (e.changeEpoll newmask ctl).2 with
  | true =>
      rw [if_pos rfl]
      exact e.changeEpoll_has hres side
  | false => rw [e.changeEpoll_fails hres, if_neg nofun]

/-- Where the mask is to change, the result is that of `epoll_ctl`. -/
theorem changeEpoll_result {newmask : Mask} (ctl : EpollCtl) (h : e.wide ≠ newmask) :
    (e.changeEpoll newmask ctl).2 = ctl (e.op newmask) (interest newmask) := by
  unfold changeEpoll
  rw [if_neg h]
  cases hctl : ctl (e.op newmask) (interest newmask) with
  | true => rw [if_pos rfl]
  | false => rw [if_neg nofun]

/-- Enabling that succeeds adds the bits of the mask. -/
theorem enable_has_if (mask : Mask) (task : T) (ctl : EpollCtl) (side : Side) :
    (e.enable mask task ctl).1.wide.has side =
      if (e.enable mask task ctl).2 then e.wide.has side || mask.has side
      else e.wide.has side := by
  rw [enable, changeEpoll_has_if, Mask.has_or]
  rfl

/-- Disabling that succeeds takes the bits of the mask away. -/
theorem disable_has_if (mask : Mask) (ctl : EpollCtl) (side : Side) :
    (e.disable mask ctl).1.wide.has side =
      if (e.disable mask ctl).2 then e.wide.has side && !mask.has side
      else e.wide.has side := by
  rw [disable, changeEpoll_has_if, Mask.has_and_not]
  rfl

/-- Enabling adds the bits of the mask. -/
theorem enable_has {mask : Mask} {task : T} {ctl : EpollCtl}
    (h : (e.enable mask task ctl).2 = true) (side : Side) :
    (e.enable mask task ctl).1.wide.has side = (e.wide.has side || mask.has side) := by
  rw [enable_has_if, if_pos h]

/-- Disabling takes the bits of the mask away. -/
theorem disable_has {mask : Mask} {ctl : EpollCtl}
    (h : (e.disable mask ctl).2 = true) (side : Side) :
    (e.disable mask ctl).1.wide.has side = (e.wide.has side && !mask.has side) := by
  rw [disable_has_if, if_pos h]

/-- No change fails while `epoll_ctl` succeeds. -/
theorem changeEpoll_good {newmask : Mask} {ctl : EpollCtl} (h : ∀ op i, ctl op i = true) :
    (e.changeEpoll newmask ctl).2 = true := by
  unfold changeEpoll
  split
  · rfl
  · rw [if_pos (h _ _)]

end Epoll

end Spe
