import Mathlib.Data.List.Basic

/-!
# Memory blocks as lists

A memory block is the list of its cells.  `slice` reads a range, `overwrite`
stores a list of cells at a position and never changes the size of the block,
`resize` is what reallocation does to the cells.  Stores past the end are
lost, reads past the end are short; callers prove their ranges in bounds and
then use the exact laws `slice_overwrite_append` and `slice_overwrite_before`.
-/

namespace Block

variable {α : Type}

/-- The `n` cells from position `pos` on. -/
def slice (m : List α) (pos n : Nat) : List α :=
  (m.drop pos).take n

/-- Store `xs` from position `pos` on, as far as the block reaches. -/
def overwrite (m : List α) (pos : Nat) (xs : List α) : List α :=
  m.take pos ++ (xs.take (m.length - pos) ++ m.drop (pos + xs.length))

/-- Give the block `n` cells: the old ones as far as they go, then fresh
ones. -/
def resize (m : List α) (n : Nat) (fresh : Nat → α) : List α :=
  m.take n ++ (List.range (n - m.length)).map fresh

@[simp] theorem slice_nil (pos n : Nat) : slice ([] : List α) pos n = [] := by
  simp [slice]

@[simp] theorem slice_zero (m : List α) (pos : Nat) : slice m pos 0 = [] := by
  simp [slice]

theorem slice_length {m : List α} {pos n : Nat} (h : pos + n ≤ m.length) :
    (slice m pos n).length = n := by
  simp [slice]
  omega

/-- A range splits after its first `n` cells. -/
theorem slice_add (m : List α) (pos n k : Nat) :
    slice m pos (n + k) = slice m pos n ++ slice m (pos + n) k := by
  simp [slice, List.take_add, List.drop_drop]

/-- Dropping cells of a range moves its start. -/
theorem drop_slice (m : List α) (pos n k : Nat) :
    (slice m pos n).drop k = slice m (pos + k) (n - k) := by
  simp [slice, List.drop_take, List.drop_drop]

/-- A shorter range is a prefix. -/
theorem take_slice {m : List α} {pos n k : Nat} (h : k ≤ n) :
    (slice m pos n).take k = slice m pos k := by
  simp [slice, List.take_take, Nat.min_eq_left h]

@[simp] theorem overwrite_length (m : List α) (pos : Nat) (xs : List α) :
    (overwrite m pos xs).length = m.length := by
  simp [overwrite]
  omega

@[simp] theorem resize_length (m : List α) (n : Nat) (fresh : Nat → α) :
    (resize m n fresh).length = n := by
  simp [resize]
  omega

/-- Reallocation keeps every range that fits in both blocks. -/
theorem slice_resize {m : List α} {n pos k : Nat} {fresh : Nat → α}
    (hold : pos + k ≤ m.length) (hnew : pos + k ≤ n) :
    slice (resize m n fresh) pos k = slice m pos k := by
  have hpos : pos ≤ (m.take n).length := by simp; omega
  have hk : k ≤ ((m.take n).drop pos).length := by simp; omega
  rw [slice, resize, List.drop_append_of_le_length hpos, List.take_append_of_le_length hk,
    List.drop_take, List.take_take, slice, Nat.min_eq_left (by omega)]

/-- A store does not show in a range that ends before it. -/
theorem slice_overwrite_before {m xs : List α} {pos p k : Nat} (h : p + k ≤ pos) :
    slice (overwrite m pos xs) p k = slice m p k := by
  by_cases hpos : pos ≤ m.length
  · have hp : p ≤ (m.take pos).length := by simp; omega
    have hk : k ≤ ((m.take pos).drop p).length := by simp; omega
    rw [slice, overwrite, List.drop_append_of_le_length hp, List.take_append_of_le_length hk,
      List.drop_take, List.take_take, slice, Nat.min_eq_left (by omega)]
  · have hout : overwrite m pos xs = m := by
      have h1 : m.length - pos = 0 := by omega
      have h2 : m.length ≤ pos := by omega
      simp [overwrite, h1, List.take_of_length_le h2,
        List.drop_eq_nil_of_le (by omega : m.length ≤ pos + xs.length)]
    rw [hout]

/-- A store does not show in a range that begins behind it. -/
theorem slice_overwrite_behind {m xs : List α} {pos p k : Nat} (h : pos + xs.length ≤ p) :
    slice (overwrite m pos xs) p k = slice m p k := by
  obtain ⟨d, rfl⟩ : ∃ d, p = pos + xs.length + d := ⟨p - (pos + xs.length), by omega⟩
  have htail : (overwrite m pos xs).drop (pos + xs.length) = m.drop (pos + xs.length) := by
    by_cases hend : pos + xs.length ≤ m.length
    · have hpos : (m.take pos).length = pos := by simp; omega
      have hxs : xs.take (m.length - pos) = xs := List.take_of_length_le (by omega)
      rw [overwrite, hxs, ← List.append_assoc]
      exact List.drop_left' (by simp; omega)
    · rw [List.drop_eq_nil_of_le (by simp; omega), List.drop_eq_nil_of_le (by omega)]
  have hsplit : ∀ l : List α, l.drop (pos + xs.length + d) = (l.drop (pos + xs.length)).drop d :=
    fun l => List.drop_drop.symm
  rw [slice, slice, hsplit, htail, ← hsplit]

/-- A store in bounds can be read back. -/
theorem slice_overwrite_self {m xs : List α} {pos : Nat} (h : pos + xs.length ≤ m.length) :
    slice (overwrite m pos xs) pos xs.length = xs := by
  have hpos : (m.take pos).length = pos := by simp; omega
  have hxs : xs.take (m.length - pos) = xs := List.take_of_length_le (by omega)
  rw [slice, overwrite, hxs, List.drop_append_of_le_length (by omega),
    List.drop_eq_nil_of_le (by omega), List.nil_append, List.take_left]

/-- A store right behind a range extends it. -/
theorem slice_overwrite_append {m xs : List α} {pos n : Nat}
    (h : pos + n + xs.length ≤ m.length) :
    slice (overwrite m (pos + n) xs) pos (n + xs.length) = slice m pos n ++ xs := by
  rw [slice_add, slice_overwrite_before (Nat.le_refl _), slice_overwrite_self h]

/-- A store of one cell. -/
theorem overwrite_singleton {m : List α} {pos : Nat} (x : α) (h : pos < m.length) :
    overwrite m pos [x] = m.set pos x := by
  have hone : [x].take (m.length - pos) = [x] :=
    List.take_of_length_le (by rw [List.length_singleton]; omega)
  rw [overwrite, hone, List.set_eq_take_append_cons_drop, if_pos h]
  rfl

/-- A store of one cell in a range. -/
theorem slice_set (m : List α) (pos n i : Nat) (x : α) :
    slice (m.set (pos + i) x) pos n = (slice m pos n).set i x := by
  rw [slice, slice, List.drop_set, if_neg (by omega), Nat.add_sub_cancel_left, List.take_set]

end Block
