import Spe.BufferText

/-!
# How a split goes over a content (`spe_buf_split`)

`spe_buf_split` runs over a content from the left: each turn looks for the token behind the
last one found, and appends what stands before it unless it is empty.  The string behind the
last token is appended in the same way.
-/

namespace Spe

/-- A piece is appended unless it is empty. -/
def Bufs.appendPiece (bufs : Bufs) (piece : Bytes) (al : BufsAlloc) : Bufs :=
  if piece = [] then bufs else (bufs.append piece al).1

namespace ByteBuf

variable (b : ByteBuf) (token : CStr) (als : Nat → BufsAlloc)

/-- What `spe_buf_split` makes of the place where its loop has ended. -/
def splitTail (r : Nat × Bufs) : Bufs := r.2.appendPiece (b.bytes.drop r.1) (als r.1)

/-- The string behind the last token is appended unless it is empty. -/
theorem split_eq (fuel : Nat)
    (hend : ∀ r, b.splitLoop token als fuel 0 Bufs.create = some r → r.1 ≤ b.bytes.length) :
    b.split token true als fuel =
      (b.splitLoop token als fuel 0 Bufs.create).map fun r => some (b.splitTail als r) := by
  unfold split
  rw [if_neg (by simp)]
  cases hloop : b.splitLoop token als fuel 0 Bufs.create with
  | none => rfl
  | some r =>
      have hle := hend r hloop
      rw [Option.map_some, Option.map_some, splitTail, Bufs.appendPiece, b.len_eq]
      by_cases hall : b.bytes.length = r.1
      · rw [if_neg (not_not.mpr hall), if_pos (List.drop_of_length_le (Nat.le_of_eq hall))]
      · rw [if_pos hall, if_neg]
        intro hnil
        have hlen := List.drop_eq_nil_iff.mp hnil
        omega

variable {b token als}

/-- What stands before a token in the content is a piece of its length. -/
theorem appendPiece_take (bufs : Bufs) {start point : Nat} (al : BufsAlloc)
    (hle : start + point ≤ b.bytes.length) :
    (if point ≠ 0 then (bufs.append ((b.bytes.drop start).take point) al).1 else bufs) =
      bufs.appendPiece ((b.bytes.drop start).take point) al := by
  unfold Bufs.appendPiece
  by_cases hzero : point = 0
  · simp [hzero]
  · have hpiece : (b.bytes.drop start).take point ≠ [] := by
      intro hnil
      have hlen := congrArg List.length hnil
      simp only [List.length_take, List.length_drop, List.length_nil] at hlen
      omega
    rw [if_pos hzero, if_neg hpiece]

end ByteBuf

end Spe
