import Spe.BufferCapacity

/-!
# When exact sizes are those of the machine

`ByteBuf` reads the sizes as exact integers; the machine computes them in 32 bits.  `Fits` says
that no size computation of an append or of a read wraps.  Then the machine does to the buffer
what the exact reading does (`append_machine`, `readFdAppend_machine`), and when memory is there
it does so in no other case (`append_machine_iff`, `readFdAppend_machine_iff`).

A copy is treated in the same way (`copy_machine`).  A request that stays small enough fits
(`fits_of_lt`), and what fits once fits for every smaller length (`Fits.mono`).
-/

namespace Spe

instance (A : Arith) (n : Nat) : Decidable (A.Holds n) :=
  match A with
  | .u32 => inferInstanceAs (Decidable (n < 2 ^ 32))
  | .exact => inferInstanceAs (Decidable True)

instance (A : Arith) (b : Buf) (n : Nat) : Decidable (AppendFits A b n) :=
  inferInstanceAs (Decidable (_ ∧ (_ → _)))

instance (A : Arith) (b : Buf) (n : Nat) : Decidable (CopyFits A b n) :=
  inferInstanceAs (Decidable (_ ∧ (_ → _)))

/-- An expansion whose computation does not wrap. -/
theorem bufExpand_machine (b : Buf) {n : Nat} (al : Alloc) (h : 25 * n < 2 ^ 32) :
    bufExpand .u32 b n al = bufExpand .exact b n al := by
  have hwrap : Arith.u32.wrap (25 * n) = Arith.exact.wrap (25 * n) := Nat.mod_eq_of_lt h
  unfold bufExpand
  rw [hwrap]

section Grow

variable {b : Buf} {n : Nat}

/-- The block grows for an append as it does in exact sizes. -/
theorem appendGrow_machine (al : Alloc) (hwf : b.Wf) (hsize : Arith.u32.Holds b.size)
    (hfits : AppendFits .u32 b n) :
    (if Arith.u32.sub b.size b.len < Arith.u32.wrap (n + 1) then
      bufExpand .u32 b (Arith.u32.wrap (b.size + n + 1)) al else (b, true)) =
    if Arith.exact.sub b.size b.len < Arith.exact.wrap (n + 1) then
      bufExpand .exact b (Arith.exact.wrap (b.size + n + 1)) al else (b, true) := by
  have htest := room_test hwf hsize hfits
  by_cases hroom : Arith.exact.sub b.size b.len < Arith.exact.wrap (n + 1)
  · have hasked : 25 * (b.size + n + 1) < 2 ^ 32 := hfits.2 hroom
    have hwrap : Arith.u32.wrap (b.size + n + 1) = b.size + n + 1 := Nat.mod_eq_of_lt (by omega)
    rw [if_pos (htest.mpr hroom), if_pos hroom, hwrap]
    exact bufExpand_machine b al hasked
  · rw [if_neg (fun h => hroom (htest.mp h)), if_neg hroom]

/-- So it does for a copy. -/
theorem copyGrow_machine (al : Alloc) (hfits : CopyFits .u32 b n) :
    (if b.size < Arith.u32.wrap (n + 1) then bufExpand .u32 b (Arith.u32.wrap (n + 1)) al
      else (b, true)) =
    if b.size < Arith.exact.wrap (n + 1) then bufExpand .exact b (Arith.exact.wrap (n + 1)) al
      else (b, true) := by
  have hwrap : Arith.u32.wrap (n + 1) = Arith.exact.wrap (n + 1) := wrap_eq hfits.1
  rw [hwrap]
  by_cases hroom : b.size < Arith.exact.wrap (n + 1)
  · rw [if_pos hroom, if_pos hroom]
    exact bufExpand_machine b al (hfits.2 hroom)
  · rw [if_neg hroom, if_neg hroom]

end Grow

/-- **`spe_buf_append`** that does not wrap. -/
theorem bufAppend_machine {b : Buf} {src : Bytes} (al : Alloc) (hwf : b.Wf)
    (hsize : Arith.u32.Holds b.size) (hfits : AppendFits .u32 b src.length) :
    bufAppend .u32 b src al = bufAppend .exact b src al := by
  obtain ⟨g, hg⟩ : ∃ g, g = if Arith.u32.sub b.size b.len < Arith.u32.wrap (src.length + 1) then
      bufExpand .u32 b (Arith.u32.wrap (b.size + src.length + 1)) al else (b, true) := ⟨_, rfl⟩
  obtain ⟨hgwf, _, _, hglen, _, hgholds, hgroom⟩ := appendGrow_spec hwf hsize hfits hg
  have hsame := appendGrow_machine al hwf hsize hfits
  rw [← hg] at hsame
  unfold bufAppend
  simp only [← hg, ← hsame]
  by_cases hok : g.2 = true
  · simp only [hok, not_true_eq_false, if_false]
    have hsub : Arith.u32.sub g.1.size g.1.len = Arith.exact.sub g.1.size g.1.len :=
      sub_eq hgholds hgwf.len_le
    have hwrap : Arith.u32.wrap (src.length + 1) = Arith.exact.wrap (src.length + 1) :=
      wrap_eq hfits.1
    obtain ⟨c, hc⟩ : ∃ c, c = if (Arith.exact.sub g.1.size g.1.len : Int) - g.1.off <
        Arith.exact.wrap (src.length + 1) then g.1.compact else g.1 := ⟨_, rfl⟩
    have hclen : c.len = g.1.len := by
      rw [hc]
      split <;> rfl
    have hlen : Arith.u32.wrap (c.len + src.length) = Arith.exact.wrap (c.len + src.length) := by
      have hroom := (hgroom hok).1
      have hless : g.1.size < 2 ^ 32 := hgholds
      exact Nat.mod_eq_of_lt (by omega)
    rw [hsub, hwrap, ← hc]
    simp only [show (c.memcpy (c.off + c.len) src).len = c.len from rfl, hlen]
  · rw [if_pos (by simpa using hok), if_pos (by simpa using hok)]

/-- **`spe_buf_read_fd_append`** that does not wrap. -/
theorem bufReadFdAppend_machine {b : Buf} {len : Nat} (al : Alloc) (r : ReadRes) (hwf : b.Wf)
    (hsize : Arith.u32.Holds b.size) (hfits : AppendFits .u32 b len) :
    bufReadFdAppend .u32 b len al r = bufReadFdAppend .exact b len al r := by
  obtain ⟨g, hg⟩ : ∃ g, g = if Arith.u32.sub b.size b.len < Arith.u32.wrap (len + 1) then
      bufExpand .u32 b (Arith.u32.wrap (b.size + len + 1)) al else (b, true) := ⟨_, rfl⟩
  obtain ⟨hgwf, _, _, hglen, _, hgholds, hgroom⟩ := appendGrow_spec hwf hsize hfits hg
  have hsame := appendGrow_machine al hwf hsize hfits
  rw [← hg] at hsame
  unfold bufReadFdAppend
  simp only [← hg, ← hsame]
  by_cases hok : g.2 = true
  · simp only [hok, not_true_eq_false, if_false]
    obtain ⟨hroom, _⟩ := hgroom hok
    obtain ⟨c, hc⟩ : ∃ c, c = if g.1.off ≠ 0 then g.1.compact else g.1 := ⟨_, rfl⟩
    obtain ⟨hcwf, _, _, _, hclen, hcsize, _⟩ := moved_spec hgwf hc
    have hcholds : Arith.u32.Holds c.size := by rw [hcsize]; exact hgholds
    have hroomeq : Arith.u32.sub (Arith.u32.sub c.size c.len) 1 =
        Arith.exact.sub (Arith.exact.sub c.size c.len) 1 := read_room hcholds (by omega)
    rw [← hc, hroomeq]
    obtain ⟨room, hroom⟩ : ∃ room, room = Arith.exact.sub (Arith.exact.sub c.size c.len) 1 :=
      ⟨_, rfl⟩
    rw [← hroom]
    cases hret : r.ret room with
    | got n =>
        have hn := ret_got hret
        have hbytes := bytes_length_le r room
        have hroom : room = c.size - c.len - 1 := hroom
        have hlen : Arith.u32.wrap (c.len + n) = Arith.exact.wrap (c.len + n) := by
          have hless : c.size < 2 ^ 32 := hcholds
          exact Nat.mod_eq_of_lt (by omega)
        simp only [show (c.readInto (c.off + c.len) room r).len = c.len from rfl, hlen]
    | _ => rfl
  · rw [if_pos (by simpa using hok), if_pos (by simpa using hok)]

/-- **`spe_buf_copy`** that does not wrap. -/
theorem bufCopy_machine {b : Buf} {src : Bytes} (al : Alloc) (hfits : CopyFits .u32 b src.length) :
    bufCopy .u32 b src al = bufCopy .exact b src al := by
  have hsame := copyGrow_machine al hfits
  unfold bufCopy
  simp only [hsame]

section Wraps

variable {b : Buf} {n : Nat}

/-- What a wrap means: the block has to grow beyond what 32 bits can tell. -/
theorem not_appendFits (hsize : b.size < 2 ^ 32) (h : ¬ AppendFits .u32 b n) :
    b.size - b.len < n + 1 ∧ 2 ^ 32 ≤ 25 * (b.size + n + 1) := by
  by_contra hnot
  refine h ⟨?_, fun hroom => ?_⟩
  · show n + 1 < 2 ^ 32
    omega
  · show 25 * (b.size + n + 1) < 2 ^ 32
    omega

/-- After an expansion the block has its old size, or one below `2 ^ 28`. -/
theorem bufExpand_sizes (b : Buf) (n : Nat) (al : Alloc) :
    (bufExpand .u32 b n al).1.size = b.size ∨ (bufExpand .u32 b n al).1.size < 2 ^ 28 := by
  cases hok : (bufExpand .u32 b n al).2 with
  | true =>
      right
      rw [bufExpand_size hok]
      omega
  | false =>
      left
      have hmoved : (if b.off ≠ 0 then b.compact else b).size = b.size := by split <;> rfl
      unfold bufExpand at hok ⊢
      dsimp only at hok ⊢
      split at hok
      · exact hmoved
      · cases hok

/-- Where the machine's growth wraps, it gives another size. -/
theorem appendGrow_wraps (fresh : Nat → UInt8) (hwf : b.Wf) (hsize : b.size < 2 ^ 32)
    (h : ¬ AppendFits .u32 b n) {g g' : Buf × Bool}
    (hg : g = if Arith.u32.sub b.size b.len < Arith.u32.wrap (n + 1) then
      bufExpand .u32 b (Arith.u32.wrap (b.size + n + 1)) (some fresh) else (b, true))
    (hg' : g' = if Arith.exact.sub b.size b.len < Arith.exact.wrap (n + 1) then
      bufExpand .exact b (Arith.exact.wrap (b.size + n + 1)) (some fresh) else (b, true)) :
    g.1.size ≠ g'.1.size := by
  obtain ⟨hroom, hasked⟩ := not_appendFits hsize h
  have hless : Arith.exact.sub b.size b.len < Arith.exact.wrap (n + 1) := hroom
  obtain ⟨_, _, _, _, _, hsome, _⟩ := bufExpand_spec (A := .exact) (n := b.size + n + 1)
    (some fresh) hwf trivial (by omega) (by omega)
  have hbig : g'.1.size = 25 * (b.size + n + 1) / 16 := by
    rw [hg', if_pos hless]
    exact (hsome rfl).2
  have hsmall : g.1.size = b.size ∨ g.1.size < 2 ^ 28 := by
    rw [hg]
    split
    · exact bufExpand_sizes b _ _
    · exact Or.inl rfl
  omega

/-- The block after an append is the one that has grown. -/
theorem bufAppend_size (A : Arith) (b : Buf) (src : Bytes) (al : Alloc) :
    (bufAppend A b src al).1.size =
      (if A.sub b.size b.len < A.wrap (src.length + 1) then
        bufExpand A b (A.wrap (b.size + src.length + 1)) al else (b, true)).1.size := by
  unfold bufAppend
  dsimp only
  generalize (if A.sub b.size b.len < A.wrap (src.length + 1) then
    bufExpand A b (A.wrap (b.size + src.length + 1)) al else (b, true)) = g
  split
  · rfl
  · split <;> rfl

/-- So is the block after a read. -/
theorem bufReadFdAppend_size (A : Arith) (b : Buf) (len : Nat) (al : Alloc) (r : ReadRes) :
    (bufReadFdAppend A b len al r).1.size =
      (if A.sub b.size b.len < A.wrap (len + 1) then
        bufExpand A b (A.wrap (b.size + len + 1)) al else (b, true)).1.size := by
  unfold bufReadFdAppend
  dsimp only
  generalize (if A.sub b.size b.len < A.wrap (len + 1) then
    bufExpand A b (A.wrap (b.size + len + 1)) al else (b, true)) = g
  have hmoved : (if g.1.off ≠ 0 then g.1.compact else g.1).size = g.1.size := by
    split <;> rfl
  split
  · rfl
  · split
    · exact hmoved
    · exact hmoved

end Wraps

namespace ByteBuf

variable {b : ByteBuf} {m n : Nat}

/-- The buffer is one of the machine, and no size computation of an append or a read of `n` bytes
wraps. -/
def Fits (b : ByteBuf) (n : Nat) : Prop := b.buf.size < 2 ^ 32 ∧ AppendFits .u32 b.buf n

instance (b : ByteBuf) (n : Nat) : Decidable (b.Fits n) :=
  inferInstanceAs (Decidable (_ ∧ _))

/-- What fits once fits for every smaller length. -/
theorem Fits.mono (h : b.Fits n) (hle : m ≤ n) : b.Fits m := by
  obtain ⟨hsize, hlen, hgrows⟩ := h
  refine ⟨hsize, hlen.mono (Nat.succ_le_succ hle), fun hroom => ?_⟩
  exact (hgrows (Nat.lt_of_lt_of_le hroom (Nat.succ_le_succ hle))).mono (by omega)

/-- A request that stays below `2 ^ 32 / 25` fits. -/
theorem fits_of_lt (h : 25 * (b.buf.size + n + 1) < 2 ^ 32) : b.Fits n := by
  refine ⟨by omega, ?_, fun _ => h⟩
  show n + 1 < 2 ^ 32
  omega

/-- What there is room for fits. -/
theorem fits_of_room (hsize : b.buf.size < 2 ^ 32) (h : n + 1 ≤ b.buf.size - b.buf.len) :
    b.Fits n := by
  refine ⟨hsize, ?_, fun hroom => absurd hroom (Nat.not_lt.mpr h)⟩
  show n + 1 < 2 ^ 32
  omega

/-- **An append** that fits is the one of the machine. -/
theorem append_machine {src : Bytes} (al : Alloc) (h : b.Fits src.length) :
    bufAppend .u32 b.buf src al = ((b.append src al).1.buf, (b.append src al).2) :=
  bufAppend_machine al b.wf h.1 h.2

/-- **A read** that fits is the one of the machine. -/
theorem readFdAppend_machine (al : Alloc) (r : ReadRes) (h : b.Fits n) :
    bufReadFdAppend .u32 b.buf n al r =
      ((b.readFdAppend n al r).1.buf, (b.readFdAppend n al r).2) :=
  bufReadFdAppend_machine al r b.wf h.1 h.2

/-- When memory is there, an append is the one of the machine in no other case. -/
theorem append_machine_iff (src : Bytes) {al : Alloc} (hal : al.isSome)
    (hsize : b.buf.size < 2 ^ 32) :
    bufAppend .u32 b.buf src al = ((b.append src al).1.buf, (b.append src al).2) ↔
      b.Fits src.length := by
  refine ⟨fun hsame => ⟨hsize, ?_⟩, append_machine al⟩
  obtain ⟨fresh, rfl⟩ := Option.isSome_iff_exists.mp hal
  by_contra hnot
  refine appendGrow_wraps fresh b.wf hsize hnot rfl rfl ?_
  rw [← bufAppend_size, ← bufAppend_size, hsame]
  rfl

/-- Nor is a read. -/
theorem readFdAppend_machine_iff {al : Alloc} (r : ReadRes) (hal : al.isSome)
    (hsize : b.buf.size < 2 ^ 32) :
    bufReadFdAppend .u32 b.buf n al r =
        ((b.readFdAppend n al r).1.buf, (b.readFdAppend n al r).2) ↔ b.Fits n := by
  refine ⟨fun hsame => ⟨hsize, ?_⟩, readFdAppend_machine al r⟩
  obtain ⟨fresh, rfl⟩ := Option.isSome_iff_exists.mp hal
  by_contra hnot
  refine appendGrow_wraps fresh b.wf hsize hnot rfl rfl ?_
  rw [← bufReadFdAppend_size _ _ _ _ r, ← bufReadFdAppend_size _ _ _ _ r, hsame]
  rfl

end ByteBuf

end Spe
