import Mathlib.Data.List.Nodup
import Mathlib.Data.List.Perm.Basic

/-!
# Descriptors of a process

A process opens and closes descriptors; a descriptor that has been closed may be
given out again.  The table records which descriptors are open and what has been
done to each so far.  Nothing keeps a process from closing what is not open.

`Table.Tidy` says that it has not done so: each descriptor has been closed as often
as it was opened, once less if it is open.  A stray close is never made good
(`Table.Tidy.close_iff`).
-/

namespace Descriptors

variable {F : Type} [DecidableEq F]

/-- What is done to a descriptor. -/
inductive Act (F : Type)
  | opened (fd : F)
  | closed (fd : F)
  deriving DecidableEq

/-- The open descriptors, and all that has been done. -/
structure Table (F : Type) where
  held : List F
  acts : List (Act F)

/-- Nothing is open. -/
def Table.empty : Table F := ⟨[], []⟩

namespace Table

variable (t : Table F)

/-- The kernel gives out a descriptor. -/
def opens (fd : F) : Table F := ⟨fd :: t.held, t.acts ++ [.opened fd]⟩

/-- `close`; on a descriptor that is not open it has no effect. -/
def close (fd : F) : Table F := ⟨t.held.erase fd, t.acts ++ [.closed fd]⟩

omit [DecidableEq F] in
@[simp] theorem opens_held (fd : F) : (t.opens fd).held = fd :: t.held := rfl

@[simp] theorem close_held (fd : F) : (t.close fd).held = t.held.erase fd := rfl

/-- No descriptor is open twice, and each has been closed once for each time that it was
opened, unless it is still open. -/
structure Tidy : Prop where
  once : t.held.Nodup
  closed : ∀ fd, t.acts.count (.closed fd) + t.held.count fd = t.acts.count (.opened fd)

variable {t}

/-- At the start. -/
theorem tidy_empty : (Table.empty : Table F).Tidy := ⟨List.nodup_nil, fun _ => rfl⟩

/-- A descriptor that was not open is opened. -/
theorem Tidy.opens (h : t.Tidy) {fd : F} (hfd : fd ∉ t.held) : (t.opens fd).Tidy := by
  refine ⟨List.nodup_cons.mpr ⟨hfd, h.once⟩, ?_⟩
  intro x
  have hclosed := h.closed x
  simp only [Table.opens, List.count_append, List.count_cons, List.count_nil, beq_iff_eq,
    Act.opened.injEq, reduceCtorEq, if_false]
  omega

/-- **Closing.**  The table stays tidy exactly if the descriptor was open. -/
theorem Tidy.close_iff (h : t.Tidy) (fd : F) : (t.close fd).Tidy ↔ fd ∈ t.held := by
  have hclosed := h.closed fd
  constructor
  · intro h'
    by_contra hnot
    have hafter := h'.closed fd
    have hnone : t.held.count fd = 0 := List.count_eq_zero.mpr hnot
    have herased : (t.held.erase fd).count fd = 0 := by rw [List.count_erase_self, hnone]
    simp only [Table.close, List.count_append, List.count_cons, List.count_nil, beq_iff_eq,
      reduceCtorEq, if_false, if_true, herased] at hafter
    omega
  · intro hfd
    refine ⟨h.once.erase fd, ?_⟩
    intro x
    have hpos : 0 < t.held.count fd := List.count_pos_iff.mpr hfd
    by_cases hx : x = fd
    · subst hx
      simp only [Table.close, List.count_append, List.count_cons, List.count_nil, beq_iff_eq,
        reduceCtorEq, if_false, if_true, List.count_erase_self]
      omega
    · have hother := h.closed x
      have hne : fd ≠ x := fun heq => hx heq.symm
      simp only [Table.close, List.count_append, List.count_cons, List.count_nil, beq_iff_eq,
        Act.closed.injEq, reduceCtorEq, if_false, if_neg hne, List.count_erase_of_ne hx]
      omega

end Table

end Descriptors
