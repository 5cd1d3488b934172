import Spe.BufferFits

/-!
# Moving bytes from one buffer to another

What a request has read is handed over in two steps: `spe_buf_append` copies it to another
buffer, and `spe_buf_lconsume` or `spe_buf_clean` takes it out of the first.  Nobody looks at
the result of the append, so the bytes leave the first buffer whether they have reached the
second or not (`HandedOver`).

`Short` says when an operation that needs room fails: `append_false_iff` and `bufError_iff`.
`Fetched` is how far the reads of a request have led, `KeepsInput` that nothing of it is lost;
`keepsInput_iff` is the condition for that.
-/

namespace Spe

/-- A function that needs room for `n` bytes more has to allocate, and `realloc` fails. -/
def Short (b : ByteBuf) (n : Nat) (al : Alloc) : Prop :=
  al = none ∧ b.buf.size - b.buf.len < n + 1

/-- An expansion to some size succeeds when `realloc` does. -/
theorem bufExpand_isSome (b : Buf) {n : Nat} (al : Alloc) (hn : 0 < n) :
    (bufExpand .exact b n al).2 = al.isSome := by
  obtain ⟨size, hsize⟩ : ∃ size, 25 * n / 16 = size + 1 := ⟨25 * n / 16 - 1, by omega⟩
  unfold bufExpand
  dsimp only
  rw [show Arith.exact.wrap (25 * n) / 16 = size + 1 from hsize]
  cases al with
  | none => cases (if b.off ≠ 0 then b.compact else b).start <;> rfl
  | some fresh => cases (if b.off ≠ 0 then b.compact else b).start <;> rfl

/-- An append fails exactly when it is short of memory. -/
theorem append_false_iff (b : ByteBuf) (src : Bytes) (al : Alloc) :
    (b.append src al).2 = false ↔ Short b src.length al := by
  change (bufAppend .exact b.buf src al).2 = false ↔ _
  unfold bufAppend Short
  by_cases hroom : b.buf.size - b.buf.len < src.length + 1
  · have hneed : Arith.exact.sub b.buf.size b.buf.len < Arith.exact.wrap (src.length + 1) := hroom
    have hgrown : (bufExpand .exact b.buf (Arith.exact.wrap (b.buf.size + src.length + 1)) al).2 =
        al.isSome := bufExpand_isSome b.buf al (Nat.succ_pos _)
    simp only [if_pos hneed]
    cases al with
    | none =>
        rw [if_pos (by rw [hgrown]; simp)]
        exact ⟨fun _ => ⟨rfl, hroom⟩, fun _ => rfl⟩
    | some fresh =>
        rw [if_neg (by rw [hgrown]; simp)]
        constructor
        · intro h
          cases h
        · rintro ⟨hnone, _⟩
          cases hnone
  · have hneed : ¬ Arith.exact.sub b.buf.size b.buf.len < Arith.exact.wrap (src.length + 1) := hroom
    simp only [if_neg hneed]
    constructor
    · intro h
      cases h
    · rintro ⟨_, hless⟩
      exact absurd hless hroom

/-- `spe_buf_read_fd_append` answers `SPE_BUF_ERROR` exactly when it is short of memory. -/
theorem bufError_iff (b : ByteBuf) (len : Nat) (al : Alloc) (r : ReadRes) :
    (b.readFdAppend len al r).2 = .bufError ↔ Short b len al := by
  obtain ⟨_, _, _, ⟨hret, hnone, _⟩ | ⟨room, _, hret, _⟩⟩ :=
    bufReadFdAppend_spec al r b.wf (holds_exact _) (appendFits_exact b.buf len)
  · constructor
    · intro _
      refine ⟨hnone, ?_⟩
      by_contra hroom
      have hneed : ¬ Arith.exact.sub b.buf.size b.buf.len < Arith.exact.wrap (len + 1) := hroom
      unfold bufReadFdAppend at hret
      simp only [if_neg hneed, not_true_eq_false, if_false] at hret
      split at hret
      · cases hret
      · exact ret_ne_bufError r _ hret
    · intro _
      exact hret
  · constructor
    · intro h
      exact absurd (hret.symm.trans h) (ret_ne_bufError r room)
    · rintro ⟨rfl, hroom⟩
      have hneed : Arith.exact.sub b.buf.size b.buf.len < Arith.exact.wrap (len + 1) := hroom
      have hgrown : (bufExpand .exact b.buf (Arith.exact.wrap (b.buf.size + len + 1)) none).2 =
          false := bufExpand_isSome b.buf none (Nat.succ_pos _)
      change (bufReadFdAppend .exact b.buf len none r).2 = .bufError
      unfold bufReadFdAppend
      simp only [if_pos hneed]
      rw [if_pos (by rw [hgrown]; simp)]

/-- A read that fails leaves the room as it was when there is no memory for more. -/
theorem short_of_fail {b : ByteBuf} {len : Nat} {al : Alloc} {r : ReadRes} {e : Errno}
    (h : (b.readFdAppend len al r).2 = .fail e) :
    Short (b.readFdAppend len al r).1 len al ↔ Short b len al := by
  have hshort : ¬ Short b len al := by
    intro hs
    rw [(bufError_iff b len al r).mpr hs] at h
    cases h
  refine ⟨?_, fun hs => absurd hs hshort⟩
  rintro ⟨rfl, hroom⟩
  have hfull : ¬ b.buf.size - b.buf.len < len + 1 := fun hless => hshort ⟨rfl, hless⟩
  have hneed : ¬ Arith.exact.sub b.buf.size b.buf.len < Arith.exact.wrap (len + 1) := hfull
  obtain ⟨c, hc⟩ : ∃ c, c = if b.buf.off ≠ 0 then b.buf.compact else b.buf := ⟨_, rfl⟩
  obtain ⟨_, _, _, _, hlen, hsize, _⟩ := moved_spec b.wf hc
  change (bufReadFdAppend .exact b.buf len none r).2 = .fail e at h
  change (bufReadFdAppend .exact b.buf len none r).1.size -
    (bufReadFdAppend .exact b.buf len none r).1.len < len + 1 at hroom
  unfold bufReadFdAppend at h hroom
  simp only [if_neg hneed, not_true_eq_false, if_false, ← hc] at h hroom
  obtain ⟨room, hroomeq⟩ : ∃ room, room = Arith.exact.sub (Arith.exact.sub c.size c.len) 1 :=
    ⟨_, rfl⟩
  rw [← hroomeq] at h hroom
  cases hret : r.ret room with
  | got n =>
      rw [hret] at h
      cases h
  | _ =>
      rw [hret] at hroom
      have hsame : c.size - c.len < len + 1 := hroom
      omega

/-- A buffer without a block. -/
def ByteBuf.null (b : ByteBuf) : Bool := b.buf.start.isNone

/-- What the reads of a request have led to: the read buffer, the result of the read that ended
them (`none` when there was no such read), and how many bytes the request hands over (`none`
when it hands nothing over). -/
structure Fetched where
  source : ByteBuf
  ret : Option ReadRet
  handed : Option Nat

/-- The bytes in the read buffer. -/
def Fetched.held (f : Fetched) : Bytes := f.source.bytes

/-- No size computation of the hand-over wraps. -/
def Fetched.Fits (f : Fetched) (dest : ByteBuf) : Prop :=
  ∀ n ∈ f.handed, dest.Fits (f.held.take n).length

instance (f : Fetched) (dest : ByteBuf) : Decidable (f.Fits dest) :=
  inferInstanceAs (Decidable (∀ n ∈ f.handed, dest.Fits (f.held.take n).length))

/-- The `ASSERT(buf && src)` of the hand-over holds: the read buffer has a block. -/
def Fetched.Asserts (f : Fetched) : Prop := f.handed.isSome = true → f.source.null = false

instance (f : Fetched) : Decidable f.Asserts :=
  inferInstanceAs (Decidable (_ → _))

/-- The `spe_buf_append` of the hand-over returns `false`. -/
def Fetched.Refused (f : Fetched) (dest : ByteBuf) (al : Alloc) : Prop :=
  ∃ n, f.handed = some n ∧ (dest.append (f.held.take n) al).2 = false

/-- A request keeps its input: what has left the read buffer has been appended to the
destination, and when an allocation has failed, the request has ended with the error flag
set. -/
structure KeepsInput (f : Fetched) (dest : ByteBuf) (al : Alloc) (held' dest' : Bytes)
    (ended error : Prop) : Prop where
  moved : ∃ moved, f.held = moved ++ held' ∧ dest' = dest.bytes ++ moved
  failed : f.ret = some .bufError ∨ f.Refused dest al → ended ∧ error

/-- When the append of the hand-over is short of memory, there is nothing to hand over and
the request has failed already. -/
def Fetched.Affords (f : Fetched) (dest : ByteBuf) (al : Alloc) (failed : Prop) : Prop :=
  ∀ n, f.handed = some n → Short dest (f.held.take n).length al → f.held.take n = [] ∧ failed

/-- What the destination holds after a hand-over out of `held`. -/
def handedTo (dest : ByteBuf) (al : Alloc) (held : Bytes) : Option Nat → Bytes
  | some n => (dest.append (held.take n) al).1.bytes
  | none => dest.bytes

/-- How bytes are handed over: they are appended, whether there is memory or not, and
consumed. -/
structure HandedOver (held : Bytes) (dest : ByteBuf) (al : Alloc) (handed : Option Nat)
    (held' dest' : Bytes) : Prop where
  consumed : held' = held.drop (handed.getD 0)
  appended : dest' = handedTo dest al held handed

/-- Nothing is handed over. -/
theorem HandedOver.nothing (held : Bytes) (dest : ByteBuf) (al : Alloc) :
    HandedOver held dest al none held dest.bytes := ⟨rfl, rfl⟩

/-- The first bytes are handed over. -/
theorem HandedOver.first (b dest : ByteBuf) (al : Alloc) (n : Nat) :
    HandedOver b.bytes dest al (some n) (b.lconsume n).bytes
      (dest.append (b.bytes.take n) al).1.bytes := ⟨b.bytes_lconsume n, rfl⟩

/-- All bytes are handed over. -/
theorem HandedOver.all (b dest : ByteBuf) (al : Alloc) :
    HandedOver b.bytes dest al (some b.bytes.length) b.clean.bytes
      (dest.append b.bytes al).1.bytes := by
  constructor
  · rw [ByteBuf.bytes_clean, Option.getD_some, List.drop_length]
  · rw [handedTo, List.take_length]

/-- A hand-over moves the bytes that it takes out exactly when the append can be afforded or
takes nothing. -/
theorem moved_iff (held : Bytes) (dest : ByteBuf) (al : Alloc) (n : Nat) :
    (∃ moved, held = moved ++ held.drop n ∧
      (dest.append (held.take n) al).1.bytes = dest.bytes ++ moved) ↔
    (Short dest (held.take n).length al → held.take n = []) := by
  have hparts : held = held.take n ++ held.drop n := (List.take_append_drop n held).symm
  rw [ByteBuf.bytes_append]
  constructor
  · rintro ⟨moved, hmoved, happended⟩ hshort
    rw [(append_false_iff dest _ al).mpr hshort] at happended
    have hnil : moved = [] := by simpa using happended
    have hsame : held.take n = moved := List.append_cancel_right (hparts.symm.trans hmoved)
    rw [hsame, hnil]
  · intro h
    refine ⟨held.take n, hparts, ?_⟩
    cases hok : (dest.append (held.take n) al).2 with
    | true => rfl
    | false =>
        rw [h ((append_false_iff dest _ al).mp hok), List.append_nil]
        rfl

/-- The append of a hand-over is refused when it is short of memory. -/
theorem refused_iff {f : Fetched} {n : Nat} (h : f.handed = some n) (dest : ByteBuf)
    (al : Alloc) : f.Refused dest al ↔ Short dest (f.held.take n).length al := by
  rw [← append_false_iff]
  constructor
  · rintro ⟨k, hk, hfails⟩
    obtain rfl : n = k := Option.some.inj (h.symm.trans hk)
    exact hfails
  · exact fun hfails => ⟨n, h, hfails⟩

/-- **Hand-over.**  The bytes that were handed over leave the read buffer, whatever the append
says.  So the input is kept exactly when the append can be afforded, and a read that was short
of memory has ended the request with an error. -/
theorem keepsInput_iff {f : Fetched} {dest : ByteBuf} {al : Alloc} {held' dest' : Bytes}
    {ended error : Prop} (h : HandedOver f.held dest al f.handed held' dest')
    (hended : f.handed.isSome → ended) :
    KeepsInput f dest al held' dest' ended error ↔
      (f.ret = some .bufError → ended ∧ error) ∧ f.Affords dest al error := by
  obtain ⟨rfl, rfl⟩ := h
  cases hhanded : f.handed with
  | none =>
      constructor
      · intro hkeeps
        refine ⟨fun hret => hkeeps.failed (Or.inl hret), ?_⟩
        intro n hn
        rw [hhanded] at hn
        cases hn
      · rintro ⟨hread, _⟩
        refine ⟨⟨[], rfl, (List.append_nil _).symm⟩, ?_⟩
        rintro (hret | ⟨n, hn, _⟩)
        · exact hread hret
        · rw [hhanded] at hn
          cases hn
  | some n =>
      have hmoved := moved_iff f.held dest al n
      have hrefused := refused_iff hhanded dest al
      rw [hhanded] at hended
      constructor
      · intro hkeeps
        refine ⟨fun hret => hkeeps.failed (Or.inl hret), ?_⟩
        intro k hk hshort
        obtain rfl : n = k := Option.some.inj (hhanded.symm.trans hk)
        exact ⟨hmoved.mp hkeeps.moved hshort, (hkeeps.failed (Or.inr (hrefused.mpr hshort))).2⟩
      · rintro ⟨hread, hafford⟩
        refine ⟨hmoved.mpr fun hshort => (hafford n hhanded hshort).1, ?_⟩
        rintro (hret | hfails)
        · exact hread hret
        · exact ⟨hended rfl, (hafford n hhanded (hrefused.mp hfails)).2⟩

end Spe
