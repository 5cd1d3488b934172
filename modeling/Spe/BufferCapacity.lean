import Spe.BufferString
import Spe.Transition

/-!
# The capacity of a buffer over its whole life

A buffer lives through any sequence of calls (`BufOp`), with any lengths, any
answers of `realloc` and of the descriptor.  In the machine's 32-bit
arithmetic the growth rule `25 * len / 16` wraps for requests above 171798691
bytes, and a wrapped request gives a block that is too small.

* `capacity_of_no_wrap` — in every run none of whose size computations wraps,
  the capacity invariant holds in every state and every `memcpy`, `memmove`
  and `read` stays inside the block; and an expansion that succeeds gives at
  least what was asked exactly when its own computation does not wrap;
* `append_overruns` — one append of 171798700 bytes to a new buffer copies
  them into a block of 14 bytes.
-/

namespace Spe

open Transition

/-- The calls on a buffer, with what the environment answers. -/
inductive BufOp
  | append (src : Bytes) (al : Alloc)
  | copy (src : Bytes) (al : Alloc)
  | lconsume (len : Nat)
  | rconsume (len : Nat)
  | clean
  | readFdAppend (len : Nat) (al : Alloc) (r : ReadRes)
  | readFdCopy (len : Nat) (al : Alloc) (r : ReadRes)

/-- The buffer after a call. -/
def bufStep (A : Arith) (b : Buf) : BufOp → Option Buf
  | .append src al => some (bufAppend A b src al).1
  | .copy src al => some (bufCopy A b src al).1
  | .lconsume len => some (bufLconsume b len)
  | .rconsume len => some (bufRconsume b len)
  | .clean => some (bufClean b)
  | .readFdAppend len al r => some (bufReadFdAppend A b len al r).1
  | .readFdCopy len al r => some (bufReadFdCopy A b len al r).1

/-- No size computation of the call wraps: `len + 1`, and when the room test
asks for a larger block, `25` times the request. -/
def NoWrap (b : Buf) : BufOp → Prop
  | .append src _ => AppendFits .u32 b src.length
  | .copy src _ => CopyFits .u32 b src.length
  | .readFdAppend len _ _ => AppendFits .u32 b len
  | .readFdCopy len _ _ => CopyFits .u32 b len
  | _ => True

/-- The invariant along the runs without wrap-around: the buffer is well
formed, its size is a machine number, and no access but the store of a NUL to
a missing block has left the block. -/
structure BufSafe (b : Buf) : Prop where
  wf : b.Wf
  size : Arith.u32.Holds b.size
  log : ∀ a ∈ b.log, a.IsStore ∨ a.InBounds

/-- Accesses in bounds keep the log clean. -/
theorem log_of_extends {b c : Buf} (h : ∀ a ∈ b.log, a.IsStore ∨ a.InBounds)
    (hext : b.Extends c) : ∀ a ∈ c.log, a.IsStore ∨ a.InBounds := by
  intro a ha
  rcases hext a ha with ha | ha
  · exact h a ha
  · exact Or.inr ha

/-- The consuming functions log a single store. -/
theorem log_of_store {b c : Buf} {pos cap : Nat}
    (h : ∀ a ∈ b.log, a.IsStore ∨ a.InBounds)
    (hlog : c.log = b.log ++ [.store pos cap]) :
    ∀ a ∈ c.log, a.IsStore ∨ a.InBounds := by
  intro a ha
  rw [hlog] at ha
  rcases List.mem_append.mp ha with ha | ha
  · exact h a ha
  · obtain rfl := List.mem_singleton.mp ha
    exact Or.inl trivial

/-- **Step lemma.**  A call that does not wrap keeps the invariant. -/
theorem bufSafe_step {b c : Buf} {op : BufOp} (h : BufSafe b) (hok : NoWrap b op)
    (hstep : bufStep .u32 b op = some c) : BufSafe c := by
  obtain ⟨hwf, hsize, hlog⟩ := h
  cases op with
  | append src al =>
      obtain rfl := Option.some.inj hstep
      obtain ⟨hwf', hext, _, _, hsize'⟩ := bufAppend_spec al hwf hsize hok
      exact ⟨hwf', hsize', log_of_extends hlog hext⟩
  | copy src al =>
      obtain rfl := Option.some.inj hstep
      obtain ⟨hwf', hext, _, _, hsize'⟩ := bufCopy_spec al hwf hsize hok
      exact ⟨hwf', hsize', log_of_extends hlog hext⟩
  | lconsume len =>
      obtain rfl := Option.some.inj hstep
      obtain ⟨hwf', _, hsize'⟩ := bufLconsume_spec (n := len) hwf
      exact ⟨hwf', by rw [hsize']; exact hsize, log_of_store hlog rfl⟩
  | rconsume len =>
      obtain rfl := Option.some.inj hstep
      obtain ⟨hwf', _, hsize'⟩ := bufRconsume_spec (n := len) hwf
      exact ⟨hwf', by rw [hsize']; exact hsize, log_of_store hlog rfl⟩
  | clean =>
      obtain rfl := Option.some.inj hstep
      obtain ⟨hwf', hext, _, hsize'⟩ := bufClean_spec hwf
      exact ⟨hwf', by rw [hsize']; exact hsize, log_of_extends hlog hext⟩
  | readFdAppend len al r =>
      obtain rfl := Option.some.inj hstep
      obtain ⟨hwf', hext, hsize', _⟩ := bufReadFdAppend_spec al r hwf hsize hok
      exact ⟨hwf', hsize', log_of_extends hlog hext⟩
  | readFdCopy len al r =>
      obtain rfl := Option.some.inj hstep
      obtain ⟨hwf', hext, hsize', _⟩ := bufReadFdCopy_spec al r hwf hsize hok
      exact ⟨hwf', hsize', log_of_extends hlog hext⟩

/-- A new buffer satisfies the invariant. -/
theorem bufSafe_create : BufSafe bufCreate :=
  ⟨bufCreate_spec.1, by show 0 < 2 ^ 32; decide, by simp [bufCreate]⟩

/-- The size after a successful expansion is the machine's `25 * n / 16`. -/
theorem bufExpand_size {b : Buf} {n : Nat} {al : Alloc}
    (h : (bufExpand .u32 b n al).2 = true) :
    (bufExpand .u32 b n al).1.size = 25 * n % 2 ^ 32 / 16 := by
  unfold bufExpand at h ⊢
  dsimp only at h ⊢
  split at h
  · simp at h
  · rfl

/-- The growth rule gives what was asked exactly when `25 * n` does not
wrap. -/
theorem growth_rule {n : Nat} (hn : n < 2 ^ 32) :
    n ≤ 25 * n % 2 ^ 32 / 16 ↔ 25 * n < 2 ^ 32 := by
  constructor
  · intro h
    have hsmall : 16 * n ≤ 25 * n % 2 ^ 32 := by omega
    have hbound : n < 2 ^ 28 := by omega
    have hzero : 25 * n / 2 ^ 32 = 0 := by omega
    omega
  · intro h
    rw [Nat.mod_eq_of_lt h]
    omega

/-- **Capacity.**  In every run from a new buffer none of whose size
computations wraps, whenever `_start` is not NULL the window and its NUL lie
inside the block that was really requested, and every `memcpy`, `memmove` and
`read` stayed inside its block; every successful expansion gave what was
asked.  An expansion that succeeds does so exactly when `25 * n` does not
wrap. -/
theorem capacity_of_no_wrap {ops : List BufOp} {b : Buf}
    (hrun : Run (bufStep .u32) NoWrap bufCreate ops b) :
    (b.start.isSome → b.off + b.len + 1 ≤ b.size ∧ b.mem.length = b.size) ∧
    (∀ a ∈ b.log, a.IsStore ∨ a.InBounds) ∧
    (∀ (c : Buf) (n : Nat) (al : Alloc), n < 2 ^ 32 → (bufExpand .u32 c n al).2 = true →
      (n ≤ (bufExpand .u32 c n al).1.size ↔ 25 * n < 2 ^ 32)) := by
  have hsafe : BufSafe b :=
    hrun.invariant _ bufSafe_create (fun _ _ _ h hok hstep => bufSafe_step h hok hstep)
  refine ⟨fun hsome => ⟨hsafe.wf.window hsome, hsafe.wf.cap⟩, hsafe.log, ?_⟩
  intro c n al hn hok
  rw [bufExpand_size hok]
  exact growth_rule hn

/-- The rule applies to an append of two bytes to a new buffer. -/
theorem capacity_of_no_wrap_short :
    (bufAppend .u32 bufCreate [104, 105] (some fun _ => 7)).1.off
      + (bufAppend .u32 bufCreate [104, 105] (some fun _ => 7)).1.len + 1
      ≤ (bufAppend .u32 bufCreate [104, 105] (some fun _ => 7)).1.size := by
  have hrun : Run (bufStep .u32) NoWrap bufCreate [.append [104, 105] (some fun _ => 7)]
      (bufAppend .u32 bufCreate [104, 105] (some fun _ => 7)).1 :=
    Run.single rfl (by simp [NoWrap, AppendFits, Arith.Holds, bufCreate])
  exact ((capacity_of_no_wrap hrun).1 (by decide)).1

/-- An append of `n` bytes to a new buffer copies them into a block of the
wrapped size. -/
theorem append_create (src : Bytes) (fresh : Nat → UInt8) {k : Nat}
    (hlen : src.length + 1 < 2 ^ 32) (hk : 25 * (src.length + 1) % 2 ^ 32 / 16 = k + 1) :
    (bufAppend .u32 bufCreate src (some fresh)).1.start.isSome ∧
    (bufAppend .u32 bufCreate src (some fresh)).1.size = k + 1 ∧
    (bufAppend .u32 bufCreate src (some fresh)).1.len = src.length ∧
    Access.memcpy 0 src.length (k + 1)
      ∈ (bufAppend .u32 bufCreate src (some fresh)).1.log := by
  have hsub : Arith.u32.sub 0 0 = 0 := by decide
  have hwrap : Arith.u32.wrap (src.length + 1) = src.length + 1 := Nat.mod_eq_of_lt hlen
  have hasked : Arith.u32.wrap (0 + src.length + 1) = src.length + 1 := by
    rw [Nat.zero_add, hwrap]
  have hsize : Arith.u32.wrap (25 * (src.length + 1)) / 16 = k + 1 := hk
  have hexpand : bufExpand .u32 bufCreate (src.length + 1) (some fresh)
      = (⟨some (Block.resize [] (k + 1) fresh), 0, 0, k + 1,
          [.expand (src.length + 1) (k + 1)]⟩, true) := by
    simp [bufExpand, bufCreate, hsize, realloc, Buf.note]
  have htest : Arith.u32.sub 0 bufCreate.len < src.length + 1 := by
    show Arith.u32.sub 0 0 < src.length + 1
    omega
  obtain ⟨d, hd⟩ : ∃ d : Buf, d = ⟨some (Block.resize [] (k + 1) fresh), 0, 0, k + 1,
      [.expand (src.length + 1) (k + 1)]⟩ := ⟨_, rfl⟩
  rw [← hd] at hexpand
  unfold bufAppend
  simp only [hwrap, if_pos htest, show bufCreate.size = 0 from rfl, hasked, hexpand]
  obtain ⟨c, hc⟩ : ∃ c, c = if ((Arith.u32.sub d.size d.len : Nat) : Int) - d.off
      < ((src.length + 1 : Nat) : Int) then d.compact else d := ⟨_, rfl⟩
  have hdmem : d.mem.length = k + 1 := by
    rw [hd]
    exact Block.resize_length _ _ _
  have hcfields : c.off = 0 ∧ c.len = 0 ∧ c.size = k + 1 ∧ c.mem.length = k + 1 ∧
      c.start.isSome := by
    rw [hc]
    split
    · refine ⟨rfl, by rw [hd]; rfl, by rw [hd]; rfl, ?_, by rw [hd]; rfl⟩
      rw [compact_mem_length]
      exact hdmem
    · exact ⟨by rw [hd], by rw [hd], by rw [hd], hdmem, by rw [hd]; rfl⟩
  obtain ⟨hoff, hlen0, hcsize, hcmem, hcstart⟩ := hcfields
  simp only [not_true_eq_false, if_false, ← hc]
  have hend : Arith.u32.wrap (c.len + src.length) = src.length := by
    rw [hlen0, Nat.zero_add]
    exact Nat.mod_eq_of_lt (by omega)
  refine ⟨?_, hcsize, ?_, ?_⟩
  · simpa [Buf.memcpy, Buf.note, Buf.poke] using hcstart
  · show Arith.u32.wrap (c.len + src.length) = src.length
    exact hend
  · have hlog : Access.memcpy (c.off + c.len) src.length c.mem.length
        ∈ (c.memcpy (c.off + c.len) src).log := by
      simp [Buf.memcpy]
    rw [hoff, hlen0, hcmem] at hlog
    simp only [terminate_log, List.mem_append]
    left
    simpa [hoff, hlen0] using hlog

/-- **Overrun.**  One append of 171798700 bytes to a new buffer leaves a window
that does not fit its block of 14 bytes, into which all of them were copied. -/
theorem append_overruns :
    ∃ b, Run (bufStep .u32) anyStep bufCreate
        [.append (List.replicate 171798700 0) (some fun _ => 0)] b ∧
      b.start.isSome ∧ ¬ b.off + b.len + 1 ≤ b.size ∧
      ∃ a ∈ b.log, ¬ a.IsStore ∧ ¬ a.InBounds := by
  obtain ⟨src, hsrc⟩ : ∃ src : Bytes, src = List.replicate 171798700 0 := ⟨_, rfl⟩
  have hlen : src.length = 171798700 := by rw [hsrc, List.length_replicate]
  rw [← hsrc]
  obtain ⟨hstart, hsize, hwindow, hcopy⟩ := append_create src (fun _ => 0)
    (k := 13) (by omega) (by omega)
  refine ⟨_, Run.single rfl trivial, hstart, by omega, _, hcopy, id, ?_⟩
  intro hin
  have hfit : 0 + src.length ≤ 14 := hin
  omega

end Spe
