import Spe.BufferCapacity

/-!
# A buffer is a byte string

The abstract value of a buffer is the string of the `len` bytes at `data`.  Every
call has an effect on strings (`BufOp.effect`), which depends on the string, the
arguments and the result of the call only: neither on where `data` stands in the
block nor on how large the block is.  A call that fails has none.
-/

namespace Spe

open Transition

/-- What a call returns: nothing, a Boolean, or the result of a `read_fd` function. -/
inductive BufResult
  | done
  | bool (ok : Bool)
  | read (ret : ReadRet)
  deriving DecidableEq

/-- The result of a call. -/
def bufResult (A : Arith) (b : Buf) : BufOp → BufResult
  | .append src al => .bool (bufAppend A b src al).2
  | .copy src al => .bool (bufCopy A b src al).2
  | .lconsume _ => .done
  | .rconsume _ => .done
  | .clean => .done
  | .readFdAppend len al r => .read (bufReadFdAppend A b len al r).2
  | .readFdCopy len al r => .read (bufReadFdCopy A b len al r).2

/-- The call has returned `true` or a positive count, or it cannot fail. -/
def BufResult.ok : BufResult → Bool
  | .done => true
  | .bool ok => ok
  | .read (.got _) => true
  | .read _ => false

/-- The effect of a call on the byte string that a buffer holds. -/
def BufOp.effect (op : BufOp) (res : BufResult) (v : Bytes) : Bytes :=
  match op, res with
  | .append src _, .bool true => v ++ src
  | .copy src _, .bool true => src
  | .lconsume n, .done => v.drop n
  | .rconsume n, .done => v.take (v.length - n)
  | .clean, .done => []
  | .readFdAppend _ _ r, .read (.got n) => v ++ r.bytes n
  | .readFdCopy _ _ r, .read (.got n) => r.bytes n
  | _, _ => v

/-- A buffer is consumed only after it has been allocated. -/
def Allocated (b : Buf) : BufOp → Prop
  | .lconsume _ => b.start.isSome
  | .rconsume _ => b.start.isSome
  | _ => True

/-- A call that fails has no effect. -/
theorem BufOp.effect_failed {op : BufOp} {b : Buf} {A : Arith}
    (h : (bufResult A b op).ok = false) (v : Bytes) : op.effect (bufResult A b op) v = v := by
  cases op with
  | append src al =>
      have hret : (bufAppend A b src al).2 = false := h
      simp only [bufResult, hret, BufOp.effect]
  | copy src al =>
      have hret : (bufCopy A b src al).2 = false := h
      simp only [bufResult, hret, BufOp.effect]
  | lconsume n => cases h
  | rconsume n => cases h
  | clean => cases h
  | readFdAppend len al r =>
      simp only [bufResult] at h ⊢
      cases hret : (bufReadFdAppend A b len al r).2 with
      | got n =>
          rw [hret] at h
          cases h
      | zero => rfl
      | fail e => rfl
      | bufError => rfl
  | readFdCopy len al r =>
      simp only [bufResult] at h ⊢
      cases hret : (bufReadFdCopy A b len al r).2 with
      | got n =>
          rw [hret] at h
          cases h
      | zero => rfl
      | fail e => rfl
      | bufError => rfl

/-- The bytes of a `read` that returned `n` are the first `n` of those offered. -/
theorem bytes_of_ret {r : ReadRes} {room n : Nat} (h : r.ret room = .got n) :
    r.bytes room = r.bytes n := by
  have hn := ret_got h
  cases r with
  | data bs =>
      simp only [ReadRes.bytes, List.length_take] at hn ⊢
      rw [hn]
      rcases Nat.le_total room bs.length with hle | hle
      · rw [Nat.min_eq_left hle]
      · rw [Nat.min_eq_right hle, List.take_of_length_le hle, List.take_of_length_le (Nat.le_refl _)]
  | eof => rfl
  | err e => rfl

/-- **Step lemma.**  A call has its effect, and keeps the buffer well formed. -/
theorem Buf.Wf.step {b b' : Buf} {op : BufOp} (hwf : b.Wf)
    (hstep : bufStep .exact b op = some b') :
    b'.Wf ∧ b'.content = op.effect (bufResult .exact b op) b.content := by
  cases op with
  | append src al =>
      obtain rfl := Option.some.inj hstep
      obtain ⟨hwf', _, hcontent, _⟩ :=
        bufAppend_spec al hwf (holds_exact _) (appendFits_exact b src.length)
      refine ⟨hwf', hcontent.trans ?_⟩
      simp only [bufResult, BufOp.effect]
      cases (bufAppend .exact b src al).2 <;> rfl
  | copy src al =>
      obtain rfl := Option.some.inj hstep
      obtain ⟨hwf', _, hcontent, _⟩ :=
        bufCopy_spec al hwf (holds_exact _) (copyFits_exact b src.length)
      refine ⟨hwf', hcontent.trans ?_⟩
      simp only [bufResult, BufOp.effect]
      cases (bufCopy .exact b src al).2 <;> rfl
  | lconsume n =>
      obtain rfl := Option.some.inj hstep
      obtain ⟨hwf', hcontent, _⟩ := bufLconsume_spec (n := n) hwf
      exact ⟨hwf', hcontent⟩
  | rconsume n =>
      obtain rfl := Option.some.inj hstep
      obtain ⟨hwf', hcontent, _⟩ := bufRconsume_spec (n := n) hwf
      refine ⟨hwf', hcontent.trans ?_⟩
      rw [← content_length hwf]
      rfl
  | clean =>
      obtain rfl := Option.some.inj hstep
      obtain ⟨hwf', _, hcontent, _⟩ := bufClean_spec hwf
      exact ⟨hwf', hcontent⟩
  | readFdAppend len al r =>
      obtain rfl := Option.some.inj hstep
      obtain ⟨hwf', _, _, hread⟩ :=
        bufReadFdAppend_spec al r hwf (holds_exact _) (appendFits_exact b len)
      refine ⟨hwf', ?_⟩
      simp only [bufResult]
      rcases hread with ⟨hret, _, hcontent⟩ | ⟨room, _, hret, hcontent⟩
      · rw [hret]
        exact hcontent
      · rw [hret, hcontent]
        cases hgot : r.ret room with
        | got n => rw [bytes_of_ret hgot]; rfl
        | zero => rw [bytes_of_not_got (by simp [hgot])]; exact List.append_nil _
        | fail e => rw [bytes_of_not_got (by simp [hgot])]; exact List.append_nil _
        | bufError => exact absurd hgot (ret_ne_bufError r room)
  | readFdCopy len al r =>
      obtain rfl := Option.some.inj hstep
      obtain ⟨hwf', _, _, hread⟩ :=
        bufReadFdCopy_spec al r hwf (holds_exact _) (copyFits_exact b len)
      refine ⟨hwf', ?_⟩
      simp only [bufResult]
      rcases hread with ⟨hret, _, hcontent⟩ | ⟨room, _, hret, hcontent⟩
      · rw [hret]
        exact hcontent
      · rw [hret, hcontent]
        cases hgot : r.ret room with
        | got n => exact bytes_of_ret hgot
        | zero => rfl
        | fail e => rfl
        | bufError => rfl

/-- A successful append ends with `data[len] = 0` in a block. -/
theorem bufAppend_terminates {b : Buf} {src : Bytes} {al : Alloc} (hwf : b.Wf)
    (h : (bufAppend .exact b src al).2 = true) :
    ∃ c : Buf, (bufAppend .exact b src al).1 = c.terminate ∧ c.start.isSome := by
  obtain ⟨g, hg⟩ : ∃ g, g = if Arith.exact.sub b.size b.len < Arith.exact.wrap (src.length + 1)
      then bufExpand .exact b (Arith.exact.wrap (b.size + src.length + 1)) al
      else (b, true) := ⟨_, rfl⟩
  have hgrown := appendGrow_spec hwf (holds_exact _) (appendFits_exact b src.length) hg
  unfold bufAppend at h ⊢
  simp only [← hg] at h ⊢
  by_cases hok : g.2 = true
  · obtain ⟨_, hstart⟩ := hgrown.room hok
    rw [if_neg (not_not.mpr hok)]
    refine ⟨_, rfl, ?_⟩
    split <;> simpa [Buf.memcpy, Buf.note, Buf.poke] using hstart
  · rw [if_pos hok] at h
    cases h

/-- A successful copy ends with `data[len] = 0` in a block. -/
theorem bufCopy_terminates {b : Buf} {src : Bytes} {al : Alloc} (hwf : b.Wf)
    (h : (bufCopy .exact b src al).2 = true) :
    ∃ c : Buf, (bufCopy .exact b src al).1 = c.terminate ∧ c.start.isSome := by
  obtain ⟨g, hg⟩ : ∃ g, g = if b.size < Arith.exact.wrap (src.length + 1) then
      bufExpand .exact b (Arith.exact.wrap (src.length + 1)) al else (b, true) := ⟨_, rfl⟩
  have hgrown := copyGrow_spec hwf (holds_exact _) (copyFits_exact b src.length) hg
  unfold bufCopy at h ⊢
  simp only [← hg] at h ⊢
  by_cases hok : g.2 = true
  · obtain ⟨_, hstart⟩ := hgrown.room hok
    rw [if_neg (not_not.mpr hok)]
    exact ⟨_, rfl, by simpa [Buf.memcpy, Buf.note, Buf.poke] using hstart⟩
  · rw [if_pos hok] at h
    cases h

/-- An appending read that delivers ends with `data[len] = 0` in a block. -/
theorem bufReadFdAppend_terminates {b : Buf} {len n : Nat} {al : Alloc} {r : ReadRes}
    (hwf : b.Wf) (h : (bufReadFdAppend .exact b len al r).2 = .got n) :
    ∃ c : Buf, (bufReadFdAppend .exact b len al r).1 = c.terminate ∧ c.start.isSome := by
  obtain ⟨g, hg⟩ : ∃ g, g = if Arith.exact.sub b.size b.len < Arith.exact.wrap (len + 1) then
      bufExpand .exact b (Arith.exact.wrap (b.size + len + 1)) al else (b, true) := ⟨_, rfl⟩
  have hgrown := appendGrow_spec hwf (holds_exact _) (appendFits_exact b len) hg
  unfold bufReadFdAppend at h ⊢
  simp only [← hg] at h ⊢
  by_cases hok : g.2 = true
  · obtain ⟨_, hstart⟩ := hgrown.room hok
    rw [if_neg (not_not.mpr hok)] at h ⊢
    split at h
    · refine ⟨_, rfl, ?_⟩
      split <;> simpa [Buf.readInto, Buf.note, Buf.poke] using hstart
    · rename_i hnone
      exact absurd h (hnone n)
  · rw [if_pos hok] at h
    cases h

/-- A copying read that delivers ends with `data[len] = 0` in a block. -/
theorem bufReadFdCopy_terminates {b : Buf} {len n : Nat} {al : Alloc} {r : ReadRes}
    (hwf : b.Wf) (h : (bufReadFdCopy .exact b len al r).2 = .got n) :
    ∃ c : Buf, (bufReadFdCopy .exact b len al r).1 = c.terminate ∧ c.start.isSome := by
  obtain ⟨g, hg⟩ : ∃ g, g = if b.size < Arith.exact.wrap (len + 1) then
      bufExpand .exact b (Arith.exact.wrap (len + 1)) al else (b, true) := ⟨_, rfl⟩
  have hgrown := copyGrow_spec hwf (holds_exact _) (copyFits_exact b len) hg
  unfold bufReadFdCopy at h ⊢
  simp only [← hg] at h ⊢
  by_cases hok : g.2 = true
  · obtain ⟨_, hstart⟩ := hgrown.room hok
    rw [if_neg (not_not.mpr hok)] at h ⊢
    split at h
    · exact ⟨_, rfl, by simpa [Buf.readInto, Buf.note, Buf.poke] using hstart⟩
    · rename_i hnone
      exact absurd h (hnone n)
  · rw [if_pos hok] at h
    cases h

/-- A call stores a NUL behind the window when it succeeds, except for `spe_buf_clean` on a
buffer that has no block. -/
def Stores (b : Buf) (op : BufOp) : Prop := op ≠ .clean ∨ b.start.isSome

/-- Every call that stores ends with `data[len] = 0` in a block. -/
theorem bufStep_terminates {b b' : Buf} {op : BufOp} (hwf : b.Wf) (hop : Allocated b op)
    (hstep : bufStep .exact b op = some b') (hok : (bufResult .exact b op).ok = true)
    (hstores : Stores b op) : ∃ c : Buf, b' = c.terminate ∧ c.start.isSome := by
  cases op with
  | append src al =>
      obtain rfl := Option.some.inj hstep
      exact bufAppend_terminates hwf hok
  | copy src al =>
      obtain rfl := Option.some.inj hstep
      exact bufCopy_terminates hwf hok
  | lconsume n =>
      obtain rfl := Option.some.inj hstep
      exact ⟨_, rfl, hop⟩
  | rconsume n =>
      obtain rfl := Option.some.inj hstep
      exact ⟨_, rfl, hop⟩
  | clean =>
      obtain rfl := Option.some.inj hstep
      have hsome : b.start.isSome := by
        rcases hstores with hne | hsome
        · exact absurd rfl hne
        · exact hsome
      have hsize : b.size ≠ 0 := by
        have hwindow := hwf.window hsome
        omega
      unfold bufClean
      dsimp only
      rw [if_pos hsize]
      exact ⟨_, rfl, hsome⟩
  | readFdAppend len al r =>
      obtain rfl := Option.some.inj hstep
      simp only [bufResult] at hok
      cases hret : (bufReadFdAppend .exact b len al r).2 with
      | got n => exact bufReadFdAppend_terminates hwf hret
      | zero => rw [hret] at hok; cases hok
      | fail e => rw [hret] at hok; cases hok
      | bufError => rw [hret] at hok; cases hok
  | readFdCopy len al r =>
      obtain rfl := Option.some.inj hstep
      simp only [bufResult] at hok
      cases hret : (bufReadFdCopy .exact b len al r).2 with
      | got n => exact bufReadFdCopy_terminates hwf hret
      | zero => rw [hret] at hok; cases hok
      | fail e => rw [hret] at hok; cases hok
      | bufError => rw [hret] at hok; cases hok

/-- The byte at `data[len]`. -/
def Buf.sentinel (b : Buf) : Option UInt8 := b.mem[b.off + b.len]?

/-- What was terminated inside its block has a NUL at `data[len]`. -/
theorem terminate_sentinel {c : Buf} (hwf : c.terminate.Wf)
    (hsome : c.terminate.start.isSome) : c.terminate.sentinel = some 0 := by
  have hwindow := hwf.window hsome
  have hcap := hwf.cap
  have hlen : c.mem.length = c.size := by
    simpa [Block.overwrite_length] using hcap
  have hroom : c.off + c.len + 1 ≤ c.size := by simpa using hwindow
  have hslice : Block.slice c.terminate.mem (c.off + c.len) 1 = [0] := by
    rw [terminate_mem]
    exact Block.slice_overwrite_self (by simp only [List.length_singleton]; omega)
  have hget := congrArg (fun l : Bytes => l[0]?) hslice
  simpa [Block.slice, Buf.sentinel] using hget

/-- **Run lemma.**  A buffer is well formed in every state. -/
theorem wf_of_bufRun {ok : Buf → BufOp → Prop} {ops : List BufOp} {b : Buf}
    (h : Run (bufStep .exact) ok bufCreate ops b) : b.Wf :=
  h.invariant Buf.Wf bufCreate_spec.1 (fun _ _ _ hwf _ hstep => (hwf.step hstep).1)

/-- **A buffer refines a byte string.**  In every state that calls can lead to, the abstract
value is the `len` bytes at `data`; the next call has its effect on it, ends with
`data[len] = 0` if it succeeds and the buffer has a block, and leaves the value unchanged if
it fails. -/
theorem buf_refines {ops : List BufOp} {b b' : Buf} {op : BufOp}
    (h : Run (bufStep .exact) Allocated bufCreate ops b) (hop : Allocated b op)
    (hstep : bufStep .exact b op = some b') :
    b.content.length = b.len ∧ b'.content.length = b'.len ∧
    b'.content = op.effect (bufResult .exact b op) b.content ∧
    ((bufResult .exact b op).ok = true → Stores b op → b'.sentinel = some 0) ∧
    ((bufResult .exact b op).ok = false → b'.content = b.content) := by
  have hwf := wf_of_bufRun h
  obtain ⟨hwf', hcontent⟩ := hwf.step hstep
  refine ⟨content_length hwf, content_length hwf', hcontent, ?_, ?_⟩
  · intro hok hstores
    obtain ⟨c, rfl, hsome⟩ := bufStep_terminates hwf hop hstep hok hstores
    exact terminate_sentinel hwf' (by simpa using hsome)
  · intro hfailed
    rw [hcontent]
    exact BufOp.effect_failed hfailed _

/-- A copy of four bytes, from which one is consumed at the left end. -/
theorem buf_refines_consume :
    (bufLconsume (bufCopy .exact bufCreate [116, 101, 115, 116] (some fun _ => 7)).1 1).content =
      [101, 115, 116] ∧
    (bufLconsume (bufCopy .exact bufCreate [116, 101, 115, 116] (some fun _ => 7)).1 1).sentinel =
      some 0 := by
  have hrun : Run (bufStep .exact) Allocated bufCreate [.copy [116, 101, 115, 116] (some fun _ => 7)]
      (bufCopy .exact bufCreate [116, 101, 115, 116] (some fun _ => 7)).1 :=
    Run.single rfl trivial
  have hop : Allocated (bufCopy .exact bufCreate [116, 101, 115, 116] (some fun _ => 7)).1
      (.lconsume 1) := rfl
  obtain ⟨_, _, hcontent, hsentinel, _⟩ := buf_refines hrun hop rfl
  refine ⟨hcontent.trans (by decide), hsentinel rfl (Or.inl nofun)⟩

end Spe
