import Spe.Buffer

/-!
# A buffer is a byte string

The well-formedness of a buffer (`Buf.Wf`) is the capacity invariant of the
source: the block has the size the buffer believes, the window and one more
byte lie inside it, and a non-empty window is followed by a NUL.  As long as
no size computation wraps (`Arith.Holds`), every function of `spe_buf.c`
keeps it, touches only bytes inside the block and acts on the window as on a
byte string: append, replace, drop at either end, empty.

`ByteBuf` packages a buffer with its well-formedness for the exact reading of
sizes, in which no hypothesis is left.
-/

namespace Spe

/-- Capacity invariant. -/
structure Buf.Wf (b : Buf) : Prop where
  cap : b.mem.length = b.size
  window : b.start.isSome → b.off + b.len + 1 ≤ b.size
  null : b.start = none → b.off = 0 ∧ b.len = 0
  ended : 0 < b.len → Block.slice b.mem (b.off + b.len) 1 = [0]

/-- Every access that `b'` logs beyond those of `b` is in bounds. -/
def Buf.Extends (b b' : Buf) : Prop :=
  ∀ a ∈ b'.log, a ∈ b.log ∨ a.InBounds

section Fields

variable (b : Buf) (a : Access) (pos : Nat) (bs : Bytes)

@[simp] theorem note_start : (b.note a).start = b.start := rfl
@[simp] theorem note_off : (b.note a).off = b.off := rfl
@[simp] theorem note_len : (b.note a).len = b.len := rfl
@[simp] theorem note_size : (b.note a).size = b.size := rfl
@[simp] theorem note_mem : (b.note a).mem = b.mem := rfl
@[simp] theorem note_log : (b.note a).log = b.log ++ [a] := rfl

@[simp] theorem poke_off : (b.poke pos bs).off = b.off := rfl
@[simp] theorem poke_len : (b.poke pos bs).len = b.len := rfl
@[simp] theorem poke_size : (b.poke pos bs).size = b.size := rfl
@[simp] theorem poke_log : (b.poke pos bs).log = b.log := rfl

@[simp] theorem poke_isSome : (b.poke pos bs).start.isSome = b.start.isSome := by
  simp [Buf.poke]

@[simp] theorem poke_mem : (b.poke pos bs).mem = Block.overwrite b.mem pos bs := by
  cases h : b.start <;> simp [Buf.poke, Buf.mem, h, Block.overwrite]

@[simp] theorem terminate_off : b.terminate.off = b.off := rfl
@[simp] theorem terminate_len : b.terminate.len = b.len := rfl
@[simp] theorem terminate_size : b.terminate.size = b.size := rfl

@[simp] theorem terminate_isSome : b.terminate.start.isSome = b.start.isSome := by
  simp [Buf.terminate]

@[simp] theorem terminate_mem :
    b.terminate.mem = Block.overwrite b.mem (b.off + b.len) [0] := by
  simp [Buf.terminate]

@[simp] theorem terminate_log :
    b.terminate.log = b.log ++ [.store (b.off + b.len) b.mem.length] := rfl

@[simp] theorem compact_off : b.compact.off = 0 := rfl
@[simp] theorem compact_len : b.compact.len = b.len := rfl
@[simp] theorem compact_size : b.compact.size = b.size := rfl

@[simp] theorem compact_isSome : b.compact.start.isSome = b.start.isSome := by
  simp [Buf.compact]

@[simp] theorem compact_mem_length : b.compact.mem.length = b.mem.length := by
  unfold Buf.compact
  rw [terminate_mem, Block.overwrite_length]
  exact (congrArg List.length (poke_mem b 0 b.content)).trans (Block.overwrite_length _ _ _)

end Fields

/-- A missing block is a missing start. -/
theorem isSome_of_size_pos {b : Buf} (hwf : b.Wf) (h : 0 < b.size) :
    b.start.isSome := by
  cases hs : b.start with
  | none =>
      have hcap := hwf.cap
      simp only [Buf.mem, hs, Option.getD_none, List.length_nil] at hcap
      omega
  | some m => rfl

/-- An allocated buffer has room for its window and one more byte. -/
theorem Buf.Wf.len_le (b : Buf) (hwf : b.Wf) : b.len ≤ b.size := by
  cases hs : b.start with
  | none => simp [(hwf.null hs).2]
  | some m =>
      have hwindow := hwf.window (by simp [hs])
      omega

/-- A buffer without a block has an empty window. -/
theorem content_of_null {b : Buf} (h : b.start = none) : b.content = [] := by
  simp [Buf.content, Buf.mem, h]

/-- The length of the window. -/
theorem content_length {b : Buf} (hwf : b.Wf) : b.content.length = b.len := by
  cases hs : b.start with
  | none => simp [content_of_null hs, (hwf.null hs).2]
  | some m =>
      have hwindow := hwf.window (by simp [hs])
      have hcap := hwf.cap
      exact Block.slice_length (by omega)

theorem Buf.Extends.refl (b : Buf) : b.Extends b := fun _ h => Or.inl h

theorem Buf.Extends.trans {b c d : Buf} (h : b.Extends c) (h' : c.Extends d) :
    b.Extends d := by
  intro a ha
  rcases h' a ha with ha | ha
  · exact h a ha
  · exact Or.inr ha

/-- A buffer that logs the same accesses and some in bounds. -/
theorem Buf.Extends.of_log {b c : Buf} (more : List Access)
    (h : c.log = b.log ++ more) (hin : ∀ a ∈ more, a.InBounds) : b.Extends c := by
  intro a ha
  rw [h] at ha
  rcases List.mem_append.mp ha with ha | ha
  · exact Or.inl ha
  · exact Or.inr (hin a ha)

/-- **Window rule.**  A buffer whose window was stored and terminated in a
block of the right size is well formed and holds what the window held. -/
theorem wf_of_terminated {b : Buf} {m : Bytes} (hsome : b.start.isSome)
    (hmem : b.mem = Block.overwrite m (b.off + b.len) [0])
    (hcap : m.length = b.size) (hroom : b.off + b.len + 1 ≤ b.size) :
    b.Wf ∧ b.content = Block.slice m b.off b.len := by
  constructor
  · constructor
    · rw [hmem, Block.overwrite_length, hcap]
    · intro _
      exact hroom
    · intro hnone
      simp [hnone] at hsome
    · intro _
      rw [hmem]
      exact Block.slice_overwrite_self (by simp only [List.length_singleton]; omega)
  · rw [Buf.content, hmem]
    exact Block.slice_overwrite_before (Nat.le_refl _)

/-- Terminating a window that fits keeps its bytes. -/
theorem terminate_spec {b : Buf} (hsome : b.start.isSome)
    (hcap : b.mem.length = b.size) (hroom : b.off + b.len + 1 ≤ b.size) :
    b.terminate.Wf ∧ b.terminate.content = b.content ∧ b.Extends b.terminate := by
  obtain ⟨hwf, hcontent⟩ := wf_of_terminated (b := b.terminate) (m := b.mem)
    (by simpa using hsome) (by simp) (by simpa using hcap) (by simpa using hroom)
  refine ⟨hwf, hcontent, Buf.Extends.of_log _ (terminate_log b) ?_⟩
  intro a ha
  obtain rfl := List.mem_singleton.mp ha
  show b.off + b.len < b.mem.length
  omega

/-- Moving the window to the start of the block keeps its bytes. -/
theorem compact_spec {b : Buf} (hwf : b.Wf) (hsome : b.start.isSome) :
    b.compact.Wf ∧ b.compact.content = b.content ∧ b.Extends b.compact := by
  have hwindow := hwf.window hsome
  have hcap := hwf.cap
  have hlen : b.content.length = b.len := content_length hwf
  let moved : Buf :=
    { (b.poke 0 b.content).note (.memmove b.off b.len b.mem.length) with off := 0 }
  have hmoved : moved.mem = Block.overwrite b.mem 0 b.content := poke_mem b 0 b.content
  have hmovedContent : moved.content = b.content := by
    show Block.slice moved.mem 0 b.len = b.content
    rw [hmoved, ← hlen]
    exact Block.slice_overwrite_self (by omega)
  have hmovedLog : b.Extends moved := by
    apply Buf.Extends.of_log [.memmove b.off b.len b.mem.length] rfl
    intro a ha
    obtain rfl := List.mem_singleton.mp ha
    show b.off + b.len ≤ b.mem.length
    omega
  obtain ⟨hwf', hcontent, hext⟩ := terminate_spec (b := moved)
    (by simpa [moved] using hsome)
    (by rw [hmoved, Block.overwrite_length]; exact hcap)
    (by show 0 + b.len + 1 ≤ b.size; omega)
  exact ⟨hwf', hcontent.trans hmovedContent, hmovedLog.trans hext⟩

/-- Storing bytes behind the window and moving its end appends them. -/
theorem stored_spec {b c : Buf} (bs : Bytes) (hwf : b.Wf)
    (hroom : b.off + b.len + bs.length + 1 ≤ b.size)
    (hsome : c.start.isSome)
    (hmem : c.mem = Block.overwrite b.mem (b.off + b.len) bs)
    (hoff : c.off = b.off) (hlen : c.len = b.len + bs.length) (hsize : c.size = b.size) :
    c.terminate.Wf ∧ c.terminate.content = b.content ++ bs ∧ c.Extends c.terminate := by
  have hcap := hwf.cap
  obtain ⟨hwf', hcontent, hext⟩ := terminate_spec (b := c) hsome
    (by rw [hmem, Block.overwrite_length, hsize]; exact hcap)
    (by rw [hoff, hlen, hsize]; omega)
  refine ⟨hwf', ?_, hext⟩
  rw [hcontent, Buf.content, hmem, hoff, hlen, Buf.content]
  exact Block.slice_overwrite_append (by omega)

variable {A : Arith}

@[simp] theorem holds_exact (n : Nat) : Arith.exact.Holds n := trivial

/-- A represented number is its own value. -/
theorem wrap_eq {n : Nat} (h : A.Holds n) : A.wrap n = n := by
  cases A with
  | u32 => exact Nat.mod_eq_of_lt h
  | exact => rfl

/-- Smaller numbers are represented too. -/
theorem Arith.Holds.mono {n m : Nat} (h : A.Holds m) (hle : n ≤ m) : A.Holds n := by
  cases A with
  | u32 => exact Nat.lt_of_le_of_lt hle h
  | exact => trivial

/-- A difference that is not negative is exact. -/
theorem sub_eq {a b : Nat} (h : A.Holds a) (hle : b ≤ a) : A.sub a b = a - b := by
  cases A with
  | u32 =>
      have ha : a < 2 ^ 32 := h
      simp only [Arith.sub]
      omega
  | exact => rfl

/-- A larger block keeps the window, which stands at its start. -/
theorem resized_spec {b : Buf} {n : Nat} (fresh : Nat → UInt8) (hwf : b.Wf) (hoff : b.off = 0)
    (hsize : b.size ≤ n) (hpos : 0 < n) {c : Buf}
    (hc : c = { b with start := some (Block.resize b.mem n fresh), size := n, off := 0 }) :
    c.Wf ∧ c.content = b.content := by
  have hmem : c.mem = Block.resize b.mem n fresh := by rw [hc]; rfl
  have hlen : b.len ≤ b.size := hwf.len_le
  have hcap := hwf.cap
  have hclen : c.len = b.len := by rw [hc]
  have hcoff : c.off = 0 := by rw [hc]
  have hcsize : c.size = n := by rw [hc]
  have hslice : ∀ p k, p + k ≤ b.mem.length → Block.slice c.mem p k = Block.slice b.mem p k := by
    intro p k hpk
    rw [hmem]
    exact Block.slice_resize hpk (by omega)
  refine ⟨⟨?_, ?_, ?_, ?_⟩, ?_⟩
  · rw [hmem, hcsize]
    exact Block.resize_length _ _ _
  · intro _
    rw [hcoff, hclen, hcsize]
    cases hs : b.start with
    | none =>
        have hempty := (hwf.null hs).2
        omega
    | some m =>
        have hwindow := hwf.window (by simp [hs])
        omega
  · intro hnone
    rw [hc] at hnone
    cases hnone
  · intro hlenpos
    rw [hclen] at hlenpos
    have hsome : b.start.isSome := isSome_of_size_pos hwf (by omega)
    have hwindow := hwf.window hsome
    have hended := hwf.ended hlenpos
    rw [hoff] at hended hwindow
    rw [hcoff, hclen, ← hended]
    exact hslice (0 + b.len) 1 (by omega)
  · rw [Buf.content, hcoff, hclen, hslice 0 b.len (by omega), Buf.content, hoff]

/-- The first lines of `buf_expand`: the window moves to the start of the block. -/
theorem moved_spec {b c : Buf} (hwf : b.Wf) (hc : c = if b.off ≠ 0 then b.compact else b) :
    c.Wf ∧ c.content = b.content ∧ b.Extends c ∧ c.off = 0 ∧ c.len = b.len ∧
      c.size = b.size ∧ c.start.isSome = b.start.isSome := by
  by_cases hoff : b.off ≠ 0
  · rw [if_pos hoff] at hc
    have hsome : b.start.isSome := by
      cases hs : b.start with
      | none => exact absurd (hwf.null hs).1 hoff
      | some m => rfl
    obtain ⟨hcwf, hccontent, hcext⟩ := compact_spec hwf hsome
    rw [hc]
    exact ⟨hcwf, hccontent, hcext, rfl, rfl, rfl, by simp⟩
  · rw [if_neg hoff] at hc
    rw [hc]
    exact ⟨hwf, rfl, Buf.Extends.refl b, not_not.mp hoff, rfl, rfl, rfl⟩

/-- **`buf_expand`.**  When the size computation does not wrap and the request
is at least the old size, an expansion keeps the window; it succeeds exactly
when `realloc` does and then the block has at least the size asked for. -/
theorem bufExpand_spec {b : Buf} {n : Nat} (al : Alloc) (hwf : b.Wf)
    (hfits : A.Holds (25 * n)) (hsize : b.size ≤ n) (hpos : 0 < n) :
    (bufExpand A b n al).1.Wf ∧
    (bufExpand A b n al).1.content = b.content ∧
    b.Extends (bufExpand A b n al).1 ∧
    (bufExpand A b n al).2 = al.isSome ∧
    (bufExpand A b n al).1.len = b.len ∧
    (al.isSome → (bufExpand A b n al).1.start.isSome ∧
      (bufExpand A b n al).1.size = 25 * n / 16) ∧
    (al = none → (bufExpand A b n al).1.size = b.size) := by
  obtain ⟨c, hc⟩ : ∃ c, c = if b.off ≠ 0 then b.compact else b := ⟨_, rfl⟩
  obtain ⟨hcwf, hccontent, hcext, hoff, hclen, hcsize, _⟩ := moved_spec hwf hc
  have hwrap : A.wrap (25 * n) / 16 = 25 * n / 16 := by rw [wrap_eq hfits]
  have hnew : n ≤ 25 * n / 16 := by omega
  obtain ⟨k, hk⟩ : ∃ k, 25 * n / 16 = k + 1 := ⟨25 * n / 16 - 1, by omega⟩
  unfold bufExpand
  simp only [← hc, hwrap]
  cases al with
  | none =>
      have hre : realloc c.start (25 * n / 16) none = (none, c.start) := by
        rw [hk]
        cases c.start <;> rfl
      rw [hre]
      exact ⟨hcwf, hccontent, hcext, rfl, hclen, by simp, fun _ => hcsize⟩
  | some fresh =>
      have hre : realloc c.start (25 * n / 16) (some fresh)
          = (some (Block.resize c.mem (25 * n / 16) fresh), none) := by
        rw [hk]
        cases hs : c.start <;> simp [realloc, Buf.mem, hs]
      rw [hre]
      obtain ⟨hdwf, hdcontent⟩ := resized_spec fresh hcwf hoff (by omega)
        (by omega : 0 < 25 * n / 16) rfl
      refine ⟨⟨hdwf.cap, hdwf.window, hdwf.null, hdwf.ended⟩, hdcontent.trans hccontent, ?_, rfl,
        hclen, fun _ => ⟨rfl, rfl⟩, by simp⟩
      refine hcext.trans (Buf.Extends.of_log [.expand n (25 * n / 16)] rfl ?_)
      intro a ha
      obtain rfl := List.mem_singleton.mp ha
      exact hnew

/-- The size computations of `spe_buf_append` and `spe_buf_read_fd_append`
with length `n` do not wrap. -/
def AppendFits (A : Arith) (b : Buf) (n : Nat) : Prop :=
  A.Holds (n + 1) ∧ (b.size - b.len < n + 1 → A.Holds (25 * (b.size + n + 1)))

/-- The size computations of `spe_buf_copy` and `spe_buf_read_fd_copy` with
length `n` do not wrap. -/
def CopyFits (A : Arith) (b : Buf) (n : Nat) : Prop :=
  A.Holds (n + 1) ∧ (b.size < n + 1 → A.Holds (25 * (n + 1)))

@[simp] theorem appendFits_exact (b : Buf) (n : Nat) : AppendFits .exact b n :=
  ⟨trivial, fun _ => trivial⟩

@[simp] theorem copyFits_exact (b : Buf) (n : Nat) : CopyFits .exact b n :=
  ⟨trivial, fun _ => trivial⟩

/-- What growing on demand leaves: the window as it was and, when it succeeds,
a block of at least `n` bytes. -/
structure Grown (A : Arith) (b : Buf) (al : Alloc) (n : Nat) (g : Buf × Bool) : Prop where
  wf : g.1.Wf
  content : g.1.content = b.content
  ext : b.Extends g.1
  len : g.1.len = b.len
  ok : al.isSome → g.2 = true
  holds : A.Holds g.1.size
  room : g.2 = true → n ≤ g.1.size ∧ g.1.start.isSome

/-- **Growing on demand.**  A room test followed by an expansion: either there
was room, or the block has grown. -/
theorem grow_spec {b : Buf} {asked n : Nat} {al : Alloc} {test : Prop} [Decidable test]
    (hwf : b.Wf) (hsize : A.Holds b.size) (hpos : 0 < n)
    (hgrows : test → A.Holds (25 * asked) ∧ b.size ≤ asked ∧ n ≤ asked)
    (hthere : ¬ test → n ≤ b.size)
    {g : Buf × Bool} (hg : g = if test then bufExpand A b asked al else (b, true)) :
    Grown A b al n g := by
  by_cases ht : test
  · obtain ⟨hholds, hle, hn⟩ := hgrows ht
    rw [if_pos ht] at hg
    obtain ⟨hwf', hcontent, hext, hret, hlen, hsome, hnone⟩ :=
      bufExpand_spec al hwf hholds hle (by omega)
    rw [← hg] at hwf' hcontent hext hret hlen hsome hnone
    refine ⟨hwf', hcontent, hext, hlen, fun hal => hret.trans hal, ?_, ?_⟩
    · cases hal : al with
      | none =>
          rw [hnone hal]
          exact hsize
      | some fresh =>
          rw [(hsome (by simp [hal])).2]
          exact hholds.mono (by omega)
    · intro hok
      obtain ⟨hstart, hsz⟩ := hsome (hret ▸ hok)
      exact ⟨by omega, hstart⟩
  · rw [if_neg ht] at hg
    subst hg
    have hroom := hthere ht
    have hstart : b.start.isSome := isSome_of_size_pos hwf (by omega)
    exact ⟨hwf, rfl, Buf.Extends.refl b, rfl, fun _ => rfl, hsize, fun _ => ⟨hroom, hstart⟩⟩

/-- The room test of the appending functions, made exact. -/
theorem room_test {b : Buf} {n : Nat} (hwf : b.Wf) (hsize : A.Holds b.size)
    (hfits : AppendFits A b n) :
    A.sub b.size b.len < A.wrap (n + 1) ↔ b.size - b.len < n + 1 := by
  rw [wrap_eq hfits.1, sub_eq hsize hwf.len_le]

/-- The appending functions grow the block: there is room for the window, `n`
bytes and a NUL. -/
theorem appendGrow_spec {b : Buf} {n : Nat} {al : Alloc} (hwf : b.Wf) (hsize : A.Holds b.size)
    (hfits : AppendFits A b n) {g : Buf × Bool}
    (hg : g = if A.sub b.size b.len < A.wrap (n + 1) then
      bufExpand A b (A.wrap (b.size + n + 1)) al else (b, true)) :
    Grown A b al (b.len + n + 1) g := by
  have htest := room_test hwf hsize hfits
  have hle := hwf.len_le
  refine grow_spec hwf hsize (Nat.succ_pos _) ?_ ?_ hg
  · intro h
    have hholds := hfits.2 (htest.mp h)
    rw [wrap_eq (hholds.mono (by omega))]
    exact ⟨hholds, by omega, by omega⟩
  · intro h
    have hroom : ¬ b.size - b.len < n + 1 := fun hshort => h (htest.mpr hshort)
    omega

/-- The copying functions grow the block: there is room for `n` bytes and a
NUL. -/
theorem copyGrow_spec {b : Buf} {n : Nat} {al : Alloc} (hwf : b.Wf) (hsize : A.Holds b.size)
    (hfits : CopyFits A b n) {g : Buf × Bool}
    (hg : g = if b.size < A.wrap (n + 1) then bufExpand A b (A.wrap (n + 1)) al
      else (b, true)) :
    Grown A b al (n + 1) g := by
  have hwrap : A.wrap (n + 1) = n + 1 := wrap_eq hfits.1
  rw [hwrap] at hg
  refine grow_spec hwf hsize (Nat.succ_pos n) ?_ ?_ hg
  · intro h
    exact ⟨hfits.2 h, by omega, Nat.le_refl _⟩
  · intro h
    omega

/-- **`spe_buf_append`.**  The bytes are appended, or nothing is changed and
the allocation failed. -/
theorem bufAppend_spec {b : Buf} {src : Bytes} (al : Alloc) (hwf : b.Wf)
    (hsize : A.Holds b.size) (hfits : AppendFits A b src.length) :
    (bufAppend A b src al).1.Wf ∧
    b.Extends (bufAppend A b src al).1 ∧
    (bufAppend A b src al).1.content
      = (if (bufAppend A b src al).2 then b.content ++ src else b.content) ∧
    (al.isSome → (bufAppend A b src al).2 = true) ∧
    A.Holds (bufAppend A b src al).1.size := by
  obtain ⟨g, hg⟩ : ∃ g, g = if A.sub b.size b.len < A.wrap (src.length + 1) then
      bufExpand A b (A.wrap (b.size + src.length + 1)) al else (b, true) := ⟨_, rfl⟩
  obtain ⟨hgwf, hgcontent, hgext, hglen, hgal, hgholds, hgroom⟩ :=
    appendGrow_spec hwf hsize hfits hg
  unfold bufAppend
  simp only [← hg]
  by_cases hok : g.2 = true
  · rw [if_neg (by simp [hok])]
    obtain ⟨hroom, hstart⟩ := hgroom hok
    have hsub : A.sub g.1.size g.1.len = g.1.size - g.1.len :=
      sub_eq hgholds hgwf.len_le
    rw [hsub, wrap_eq hfits.1]
    obtain ⟨c, hc⟩ : ∃ c, c = if ((g.1.size - g.1.len : Nat) : Int) - g.1.off
        < ((src.length + 1 : Nat) : Int) then g.1.compact else g.1 := ⟨_, rfl⟩
    rw [← hc]
    have hcspec : c.Wf ∧ c.content = g.1.content ∧ g.1.Extends c ∧ c.len = g.1.len ∧
        c.size = g.1.size ∧ c.start.isSome ∧
        c.off + c.len + src.length + 1 ≤ c.size := by
      rw [hc]
      split
      · obtain ⟨hcwf, hccontent, hcext⟩ := compact_spec hgwf hstart
        exact ⟨hcwf, hccontent, hcext, rfl, rfl, by simpa using hstart, by simp; omega⟩
      · rename_i hfar
        have hwindow := hgwf.window hstart
        exact ⟨hgwf, rfl, Buf.Extends.refl _, rfl, rfl, hstart, by omega⟩
    obtain ⟨hcwf, hccontent, hcext, hclen, hcsize, hcstart, hcroom⟩ := hcspec
    have hlenwrap : A.wrap (c.len + src.length) = c.len + src.length :=
      wrap_eq (hgholds.mono (by omega))
    rw [show (c.memcpy (c.off + c.len) src).len = c.len from rfl, hlenwrap]
    have hcopied : c.Extends (c.memcpy (c.off + c.len) src) := by
      refine Buf.Extends.of_log
        [.memcpy (c.off + c.len) src.length c.mem.length] rfl ?_
      intro a ha
      obtain rfl := List.mem_singleton.mp ha
      show c.off + c.len + src.length ≤ c.mem.length
      have hcap := hcwf.cap
      omega
    obtain ⟨hfwf, hfcontent, hfext⟩ := stored_spec
      (c := { c.memcpy (c.off + c.len) src with len := c.len + src.length }) src
      hcwf (by omega) (by simpa [Buf.memcpy, Buf.note, Buf.poke] using hcstart)
      (poke_mem c _ src) rfl rfl rfl
    refine ⟨hfwf, ?_, ?_, fun _ => rfl, ?_⟩
    · exact ((hgext.trans hcext).trans hcopied).trans hfext
    · rw [if_pos rfl, ← hgcontent, ← hccontent]
      exact hfcontent
    · show A.Holds c.size
      rw [hcsize]
      exact hgholds
  · rw [if_pos (by simpa using hok)]
    exact ⟨hgwf, hgext, by simpa using hgcontent, fun h => absurd (hgal h) hok, hgholds⟩

/-- **`spe_buf_copy`.**  The content is replaced, or nothing is changed and
the allocation failed. -/
theorem bufCopy_spec {b : Buf} {src : Bytes} (al : Alloc) (hwf : b.Wf)
    (hsize : A.Holds b.size) (hfits : CopyFits A b src.length) :
    (bufCopy A b src al).1.Wf ∧
    b.Extends (bufCopy A b src al).1 ∧
    (bufCopy A b src al).1.content = (if (bufCopy A b src al).2 then src else b.content) ∧
    (al.isSome → (bufCopy A b src al).2 = true) ∧
    A.Holds (bufCopy A b src al).1.size := by
  obtain ⟨g, hg⟩ : ∃ g, g = if b.size < A.wrap (src.length + 1) then
      bufExpand A b (A.wrap (src.length + 1)) al else (b, true) := ⟨_, rfl⟩
  obtain ⟨hgwf, hgcontent, hgext, _, hgal, hgholds, hgroom⟩ := copyGrow_spec hwf hsize hfits hg
  unfold bufCopy
  simp only [← hg]
  by_cases hok : g.2 = true
  · rw [if_neg (by simp [hok])]
    obtain ⟨hroom, hstart⟩ := hgroom hok
    have hgcap := hgwf.cap
    let c : Buf := { g.1.memcpy 0 src with off := 0, len := src.length }
    have hcmem : c.mem = Block.overwrite g.1.mem 0 src := poke_mem g.1 0 src
    have hccontent : c.content = src := by
      show Block.slice c.mem 0 src.length = src
      rw [hcmem]
      exact Block.slice_overwrite_self (by omega)
    have hcopied : g.1.Extends c := by
      apply Buf.Extends.of_log [.memcpy 0 src.length g.1.mem.length] rfl
      intro a ha
      obtain rfl := List.mem_singleton.mp ha
      show 0 + src.length ≤ g.1.mem.length
      omega
    obtain ⟨hfwf, hfcontent, hfext⟩ := terminate_spec (b := c)
      (by simpa [c, Buf.memcpy, Buf.note, Buf.poke] using hstart)
      (by rw [hcmem, Block.overwrite_length]; exact hgcap)
      (by show 0 + src.length + 1 ≤ g.1.size; omega)
    refine ⟨hfwf, (hgext.trans hcopied).trans hfext, ?_, fun _ => rfl, hgholds⟩
    rw [if_pos rfl]
    exact hfcontent.trans hccontent
  · rw [if_pos (by simpa using hok)]
    exact ⟨hgwf, hgext, by simpa using hgcontent, fun h => absurd (hgal h) hok, hgholds⟩

/-- Consuming from the left of an allocated buffer. -/
theorem bufLconsume_alloc {b : Buf} {n : Nat} (hwf : b.Wf) (hsome : b.start.isSome) :
    (bufLconsume b n).Wf ∧ b.Extends (bufLconsume b n) ∧
    (bufLconsume b n).content = b.content.drop n := by
  have hwindow := hwf.window hsome
  obtain ⟨k, hk⟩ : ∃ k, k = if b.len < n then b.len else n := ⟨_, rfl⟩
  have hkle : k ≤ b.len := by
    rw [hk]
    split <;> omega
  obtain ⟨hfwf, hfcontent, hfext⟩ := terminate_spec
    (b := { b with off := b.off + k, len := b.len - k }) hsome hwf.cap
    (by show b.off + k + (b.len - k) + 1 ≤ b.size; omega)
  unfold bufLconsume
  rw [← hk]
  refine ⟨hfwf, hfext, ?_⟩
  rw [hfcontent]
  show Block.slice b.mem (b.off + k) (b.len - k) = _
  rw [← Block.drop_slice]
  show b.content.drop k = b.content.drop n
  rw [hk]
  split
  · rename_i hlt
    have hlen := content_length hwf
    rw [List.drop_eq_nil_of_le (by omega), List.drop_eq_nil_of_le (by omega)]
  · rfl

/-- A buffer without a block cannot store: the window stays empty. -/
theorem terminate_null {b : Buf} (hnull : b.start = none) (hoff : b.off = 0)
    (hlen : b.len = 0) (hsize : b.size = 0) :
    b.terminate.Wf ∧ b.terminate.content = [] := by
  have hstart : b.terminate.start = none := by simp [Buf.terminate, Buf.note, Buf.poke, hnull]
  refine ⟨⟨?_, ?_, fun _ => ⟨hoff, hlen⟩, ?_⟩, content_of_null hstart⟩
  · simp [Buf.mem, hstart, hsize]
  · simp [hstart]
  · intro hpos
    have : b.len = 0 := hlen
    simp [this] at hpos

/-- A buffer without a block has size 0. -/
theorem Buf.Wf.size_null {b : Buf} (hwf : b.Wf) (hnull : b.start = none) : b.size = 0 := by
  have hcap := hwf.cap
  simpa [Buf.mem, hnull] using hcap.symm

/-- **`spe_buf_lconsume`** drops bytes at the left end, at most all. -/
theorem bufLconsume_spec {b : Buf} {n : Nat} (hwf : b.Wf) :
    (bufLconsume b n).Wf ∧ (bufLconsume b n).content = b.content.drop n ∧
    (bufLconsume b n).size = b.size := by
  cases hs : b.start with
  | some m =>
      obtain ⟨hfwf, _, hfcontent⟩ := bufLconsume_alloc (n := n) hwf (by simp [hs])
      exact ⟨hfwf, hfcontent, rfl⟩
  | none =>
      obtain ⟨hoff, hlen⟩ := hwf.null hs
      obtain ⟨hfwf, hfcontent⟩ := terminate_null
        (b := { b with off := b.off + (if b.len < n then b.len else n),
                       len := b.len - (if b.len < n then b.len else n) })
        hs (by show b.off + _ = 0; rw [hoff, hlen]; split <;> omega)
        (by show b.len - _ = 0; omega) (hwf.size_null hs)
      refine ⟨hfwf, ?_, rfl⟩
      rw [content_of_null hs, List.drop_nil]
      exact hfcontent

/-- Consuming from the right of an allocated buffer. -/
theorem bufRconsume_alloc {b : Buf} {n : Nat} (hwf : b.Wf) (hsome : b.start.isSome) :
    (bufRconsume b n).Wf ∧ b.Extends (bufRconsume b n) ∧
    (bufRconsume b n).content = b.content.take (b.len - n) := by
  have hwindow := hwf.window hsome
  have hcut : b.len - (if b.len ≤ n then b.len else n) = b.len - n := by
    split <;> omega
  obtain ⟨hfwf, hfcontent, hfext⟩ := terminate_spec
    (b := { b with len := b.len - n }) hsome hwf.cap
    (by show b.off + (b.len - n) + 1 ≤ b.size; omega)
  unfold bufRconsume
  simp only [hcut]
  refine ⟨hfwf, hfext, ?_⟩
  rw [hfcontent]
  show Block.slice b.mem b.off (b.len - n) = (Block.slice b.mem b.off b.len).take (b.len - n)
  exact (Block.take_slice (Nat.sub_le _ _)).symm

/-- **`spe_buf_rconsume`** drops bytes at the right end, at most all. -/
theorem bufRconsume_spec {b : Buf} {n : Nat} (hwf : b.Wf) :
    (bufRconsume b n).Wf ∧ (bufRconsume b n).content = b.content.take (b.len - n) ∧
    (bufRconsume b n).size = b.size := by
  cases hs : b.start with
  | some m =>
      obtain ⟨hfwf, _, hfcontent⟩ := bufRconsume_alloc (n := n) hwf (by simp [hs])
      exact ⟨hfwf, hfcontent, rfl⟩
  | none =>
      obtain ⟨hoff, hlen⟩ := hwf.null hs
      obtain ⟨hfwf, hfcontent⟩ := terminate_null
        (b := { b with len := b.len - (if b.len ≤ n then b.len else n) })
        hs hoff (by show b.len - _ = 0; omega) (hwf.size_null hs)
      refine ⟨hfwf, ?_, rfl⟩
      rw [content_of_null hs, List.take_nil]
      exact hfcontent

/-- **`spe_buf_clean`** empties the buffer. -/
theorem bufClean_spec {b : Buf} (hwf : b.Wf) :
    (bufClean b).Wf ∧ b.Extends (bufClean b) ∧ (bufClean b).content = [] ∧
    (bufClean b).size = b.size := by
  unfold bufClean
  dsimp only
  split
  · rename_i hsize
    have hsome := isSome_of_size_pos hwf (Nat.pos_of_ne_zero hsize)
    obtain ⟨hfwf, hfcontent, hfext⟩ := terminate_spec (b := { b with off := 0, len := 0 })
      hsome hwf.cap (by show 0 + 0 + 1 ≤ b.size; omega)
    exact ⟨hfwf, hfext, by rw [hfcontent]; exact Block.slice_zero _ _, rfl⟩
  · rename_i hsize
    have hzero : b.size = 0 := by simpa using hsize
    refine ⟨⟨hwf.cap, ?_, fun _ => ⟨rfl, rfl⟩, by simp⟩, Buf.Extends.refl b,
      Block.slice_zero _ _, rfl⟩
    intro hsome
    have hwindow := hwf.window hsome
    omega

/-- The room for `read`, made exact. -/
theorem read_room {b : Buf} (hsize : A.Holds b.size) {k : Nat} (hk : k + 1 ≤ b.size) :
    A.sub (A.sub b.size k) 1 = b.size - k - 1 := by
  rw [sub_eq hsize (by omega), sub_eq (hsize.mono (Nat.sub_le _ _)) (by omega)]

/-- `read` delivers at most what there is room for. -/
theorem bytes_length_le (r : ReadRes) (n : Nat) : (r.bytes n).length ≤ n := by
  cases r with
  | data bs =>
      simp only [ReadRes.bytes, List.length_take]
      exact Nat.min_le_left _ _
  | eof => exact Nat.zero_le _
  | err e => exact Nat.zero_le _

/-- A positive result counts the bytes delivered. -/
theorem ret_got {r : ReadRes} {room n : Nat} (h : r.ret room = .got n) :
    n = (r.bytes room).length := by
  cases r with
  | err e => simp [ReadRes.ret] at h
  | eof => simp [ReadRes.ret, ReadRes.bytes] at h
  | data bs =>
      simp only [ReadRes.ret] at h
      split at h
      · simp at h
      · exact (ReadRet.got.inj h).symm

/-- The number of bytes that `read` returns is positive. -/
theorem ret_got_pos {r : ReadRes} {room n : Nat} (h : r.ret room = .got n) : 0 < n := by
  have hn := ret_got h
  cases r with
  | err e => simp [ReadRes.ret] at h
  | eof => simp [ReadRes.ret, ReadRes.bytes] at h
  | data bs =>
      simp only [ReadRes.ret] at h
      split at h
      · simp at h
      · omega

/-- An error is the descriptor's. -/
theorem ret_fail {r : ReadRes} {room : Nat} {e : Errno} (h : r.ret room = .fail e) :
    r = .err e := by
  cases r with
  | err e' =>
      simp only [ReadRes.ret, ReadRet.fail.injEq] at h
      rw [h]
  | eof => simp [ReadRes.ret, ReadRes.bytes] at h
  | data bs =>
      simp only [ReadRes.ret] at h
      split at h <;> simp at h

/-- `read` itself does not return `SPE_BUF_ERROR`. -/
theorem ret_ne_bufError (r : ReadRes) (room : Nat) : r.ret room ≠ .bufError := by
  cases r with
  | err e => simp [ReadRes.ret]
  | eof => simp [ReadRes.ret, ReadRes.bytes]
  | data bs =>
      simp only [ReadRes.ret]
      split <;> simp

/-- A result that is not positive comes with no bytes. -/
theorem bytes_of_not_got {r : ReadRes} {room : Nat} (h : ∀ n, r.ret room ≠ .got n) :
    r.bytes room = [] := by
  cases r with
  | err e => rfl
  | eof => rfl
  | data bs =>
      simp only [ReadRes.ret] at h
      split at h
      · rename_i hzero
        exact List.length_eq_zero_iff.mp hzero
      · exact absurd rfl (h _)

/-- A `read` that delivers nothing keeps the window. -/
theorem readInto_spec {b : Buf} {r : ReadRes} (pos : Nat) {n : Nat} (hwf : b.Wf)
    (hnone : r.bytes n = [])
    (hin : pos + n ≤ b.size) :
    (b.readInto pos n r).Wf ∧ (b.readInto pos n r).content = b.content ∧
    b.Extends (b.readInto pos n r) := by
  have hkeep : Block.overwrite b.mem pos [] = b.mem := by simp [Block.overwrite]
  have hmem : (b.readInto pos n r).mem = b.mem := by
    rw [Buf.readInto, note_mem, poke_mem, hnone, hkeep]
  have hcap := hwf.cap
  have hstart : (b.readInto pos n r).start.isSome = b.start.isSome := by
    simp [Buf.readInto, Buf.note]
  refine ⟨⟨?_, ?_, ?_, ?_⟩, ?_, ?_⟩
  · rw [hmem]
    exact hcap
  · rw [hstart]
    exact hwf.window
  · intro hnull
    have : b.start = none := by simpa [hnull] using hstart.symm
    exact hwf.null this
  · rw [hmem]
    exact hwf.ended
  · rw [Buf.content, hmem]
    rfl
  · apply Buf.Extends.of_log [.read pos n b.mem.length] rfl
    intro a ha
    obtain rfl := List.mem_singleton.mp ha
    show pos + n ≤ b.mem.length
    omega

/-- **`spe_buf_read_fd_append`.**  The bytes read are appended; with any
result that is not positive the content is unchanged.  There is always room
for `len` bytes. -/
theorem bufReadFdAppend_spec {b : Buf} {len : Nat} (al : Alloc) (r : ReadRes)
    (hwf : b.Wf) (hsize : A.Holds b.size) (hfits : AppendFits A b len) :
    (bufReadFdAppend A b len al r).1.Wf ∧
    b.Extends (bufReadFdAppend A b len al r).1 ∧
    A.Holds (bufReadFdAppend A b len al r).1.size ∧
    (((bufReadFdAppend A b len al r).2 = .bufError ∧ al = none ∧
        (bufReadFdAppend A b len al r).1.content = b.content) ∨
      ∃ room, len ≤ room ∧ (bufReadFdAppend A b len al r).2 = r.ret room ∧
        (bufReadFdAppend A b len al r).1.content = b.content ++ r.bytes room) := by
  obtain ⟨g, hg⟩ : ∃ g, g = if A.sub b.size b.len < A.wrap (len + 1) then
      bufExpand A b (A.wrap (b.size + len + 1)) al else (b, true) := ⟨_, rfl⟩
  obtain ⟨hgwf, hgcontent, hgext, hglen, hgal, hgholds, hgroom⟩ :=
    appendGrow_spec hwf hsize hfits hg
  unfold bufReadFdAppend
  simp only [← hg]
  by_cases hok : g.2 = true
  · rw [if_neg (by simp [hok])]
    obtain ⟨hroom, hstart⟩ := hgroom hok
    -- the window is moved to the start of the block before the read
    obtain ⟨c, hc⟩ : ∃ c, c = if g.1.off ≠ 0 then g.1.compact else g.1 := ⟨_, rfl⟩
    rw [← hc]
    obtain ⟨hcwf, hccontent, hcext, hcoff, hclen, hcsize, hcsome⟩ := moved_spec hgwf hc
    have hcstart : c.start.isSome := hcsome.trans hstart
    have hcholds : A.Holds c.size := by rw [hcsize]; exact hgholds
    rw [read_room hcholds (k := c.len) (by omega)]
    obtain ⟨room, hroomeq⟩ : ∃ room, room = c.size - c.len - 1 := ⟨_, rfl⟩
    rw [← hroomeq]
    have hbytes := bytes_length_le r room
    have hcap := hcwf.cap
    have hread : c.Extends (c.readInto (c.off + c.len) room r) := by
      apply Buf.Extends.of_log [.read (c.off + c.len) room c.mem.length] rfl
      intro a ha
      obtain rfl := List.mem_singleton.mp ha
      show c.off + c.len + room ≤ c.mem.length
      omega
    cases hret : r.ret room with
    | got n =>
        have hn := ret_got hret
        have hlenwrap : A.wrap (c.len + n) = c.len + n := wrap_eq (hcholds.mono (by omega))
        obtain ⟨hfwf, hfcontent, hfext⟩ := stored_spec
          (c := { c.readInto (c.off + c.len) room r with len := c.len + n })
          (r.bytes room)
          hcwf (by omega) (by simpa [Buf.readInto, Buf.note, Buf.poke] using hcstart)
          (poke_mem c _ _) rfl (by rw [hn]) rfl
        dsimp only
        rw [show (c.readInto (c.off + c.len) room r).len = c.len from rfl, hlenwrap]
        refine ⟨hfwf, ((hgext.trans hcext).trans hread).trans hfext, hcholds, Or.inr ?_⟩
        refine ⟨room, by omega, hret.symm, ?_⟩
        rw [← hgcontent, ← hccontent]
        exact hfcontent
    | _ =>
        have hempty : r.bytes room = [] := bytes_of_not_got (by simp [hret])
        obtain ⟨hfwf, hfcontent, hfext⟩ := readInto_spec (c.off + c.len) hcwf
          hempty (by omega)
        refine ⟨hfwf, (hgext.trans hcext).trans hfext, hcholds, Or.inr ?_⟩
        refine ⟨room, by omega, hret.symm, ?_⟩
        rw [hempty, List.append_nil, ← hgcontent, ← hccontent]
        exact hfcontent
  · rw [if_pos (by simpa using hok)]
    refine ⟨hgwf, hgext, hgholds, Or.inl ⟨rfl, ?_, hgcontent⟩⟩
    cases al with
    | none => rfl
    | some fresh => exact absurd (hgal rfl) hok

/-- **`spe_buf_read_fd_copy`.**  The content is replaced by the bytes read;
with any result that is not positive it is unchanged. -/
theorem bufReadFdCopy_spec {b : Buf} {len : Nat} (al : Alloc) (r : ReadRes)
    (hwf : b.Wf) (hsize : A.Holds b.size) (hfits : CopyFits A b len) :
    (bufReadFdCopy A b len al r).1.Wf ∧
    b.Extends (bufReadFdCopy A b len al r).1 ∧
    A.Holds (bufReadFdCopy A b len al r).1.size ∧
    (((bufReadFdCopy A b len al r).2 = .bufError ∧ al = none ∧
        (bufReadFdCopy A b len al r).1.content = b.content) ∨
      ∃ room, len ≤ room ∧ (bufReadFdCopy A b len al r).2 = r.ret room ∧
        (bufReadFdCopy A b len al r).1.content
          = match r.ret room with
            | .got _ => r.bytes room
            | _ => b.content) := by
  obtain ⟨g, hg⟩ : ∃ g, g = if b.size < A.wrap (len + 1) then
      bufExpand A b (A.wrap (len + 1)) al else (b, true) := ⟨_, rfl⟩
  obtain ⟨hgwf, hgcontent, hgext, _, hgal, hgholds, hgroom⟩ := copyGrow_spec hwf hsize hfits hg
  unfold bufReadFdCopy
  simp only [← hg]
  by_cases hok : g.2 = true
  · rw [if_neg (by simp [hok])]
    obtain ⟨hroom, hstart⟩ := hgroom hok
    rw [sub_eq hgholds (b := 1) (by omega)]
    obtain ⟨room, hroomeq⟩ : ∃ room, room = g.1.size - 1 := ⟨_, rfl⟩
    rw [← hroomeq]
    have hbytes := bytes_length_le r room
    have hcap := hgwf.cap
    have hread : g.1.Extends (g.1.readInto 0 room r) := by
      apply Buf.Extends.of_log [.read 0 room g.1.mem.length] rfl
      intro a ha
      obtain rfl := List.mem_singleton.mp ha
      show 0 + room ≤ g.1.mem.length
      omega
    cases hret : r.ret room with
    | got n =>
        have hn := ret_got hret
        let c : Buf := { g.1.readInto 0 room r with off := 0, len := n }
        have hcmem : c.mem = Block.overwrite g.1.mem 0 (r.bytes room) := poke_mem g.1 0 _
        have hccontent : c.content = r.bytes room := by
          show Block.slice c.mem 0 n = r.bytes room
          rw [hcmem, hn]
          exact Block.slice_overwrite_self (by omega)
        obtain ⟨hfwf, hfcontent, hfext⟩ := terminate_spec (b := c)
          (by simpa [c, Buf.readInto, Buf.note, Buf.poke] using hstart)
          (by rw [hcmem, Block.overwrite_length]; exact hcap)
          (by show 0 + n + 1 ≤ g.1.size; omega)
        refine ⟨hfwf, (hgext.trans hread).trans hfext, hgholds, Or.inr ?_⟩
        refine ⟨room, by omega, hret.symm, ?_⟩
        rw [hret]
        exact hfcontent.trans hccontent
    | _ =>
        have hempty : r.bytes room = [] := bytes_of_not_got (by simp [hret])
        obtain ⟨hfwf, hfcontent, hfext⟩ := readInto_spec 0 hgwf hempty (by omega)
        refine ⟨hfwf, hgext.trans hfext, hgholds, Or.inr ?_⟩
        refine ⟨room, by omega, hret.symm, ?_⟩
        rw [hret, ← hgcontent]
        exact hfcontent
  · rw [if_pos (by simpa using hok)]
    refine ⟨hgwf, hgext, hgholds, Or.inl ⟨rfl, ?_, hgcontent⟩⟩
    cases al with
    | none => rfl
    | some fresh => exact absurd (hgal rfl) hok

/-- A new buffer is well formed and empty. -/
theorem bufCreate_spec : bufCreate.Wf ∧ bufCreate.content = [] :=
  ⟨⟨rfl, by simp [bufCreate], fun _ => ⟨rfl, rfl⟩, by simp [bufCreate]⟩, rfl⟩

/-- A window that is not empty stands before a NUL. -/
theorem window_terminated {b : Buf} (hwf : b.Wf) (hlen : 0 < b.len) :
    ∃ more, b.mem.drop b.off = b.content ++ 0 :: more := by
  have hended := hwf.ended hlen
  have hrest : b.mem.drop b.off = b.content ++ b.mem.drop (b.off + b.len) := by
    rw [Buf.content, Block.slice, ← List.drop_drop, List.take_append_drop]
  rw [Block.slice] at hended
  cases h : b.mem.drop (b.off + b.len) with
  | nil => simp [h] at hended
  | cons x more =>
      have hx : x = 0 := by simpa [h] using hended
      exact ⟨more, by rw [hrest, h, hx]⟩

/-- What a C string function sees holds no NUL. -/
theorem nul_not_mem_cstr (bs : Bytes) : (0 : UInt8) ∉ cstr bs := by
  induction bs with
  | nil => exact List.not_mem_nil
  | cons c bs ih =>
      rw [cstr, List.takeWhile_cons]
      split
      · rename_i hc
        intro hmem
        rcases List.mem_cons.mp hmem with rfl | hmem
        · simp at hc
        · exact ih hmem
      · exact List.not_mem_nil

/-- A string without NUL is seen to its end. -/
theorem cstr_of_clean {q : Bytes} (hq : (0 : UInt8) ∉ q) : cstr q = q := by
  induction q with
  | nil => rfl
  | cons c q ih =>
      have hne : c ≠ 0 := fun h => hq (h ▸ List.mem_cons_self)
      have hrest := ih fun hmem => hq (List.mem_cons_of_mem _ hmem)
      rw [cstr] at hrest ⊢
      rw [List.takeWhile_cons_of_pos (by simpa using hne), hrest]

/-- The bytes behind a NUL are not seen. -/
theorem cstr_terminated (q more : Bytes) : cstr (q ++ 0 :: more) = cstr q := by
  rw [cstr, cstr, List.takeWhile_append]
  split
  · rename_i hall
    rw [(List.takeWhile_prefix _).eq_of_length hall]
    simp
  · rfl

/-- What `strstr` sees of a well-formed window is what precedes its first
NUL. -/
theorem cstr_window {b : Buf} (hwf : b.Wf) (hlen : 0 < b.len) :
    cstr (b.mem.drop b.off) = cstr b.content := by
  obtain ⟨more, hmore⟩ := window_terminated hwf hlen
  rw [hmore, cstr_terminated]

/-- **`spe_buf_search`** finds the leftmost occurrence in the part of the
content before its first NUL. -/
theorem bufSearch_spec {b : Buf} (hwf : b.Wf) (key : Bytes) :
    bufSearch b key =
      if b.content = [] then none else Search.find key (cstr b.content) := by
  have hlen := content_length hwf
  unfold bufSearch
  by_cases hzero : b.len = 0
  · have hempty : b.content = [] := List.length_eq_zero_iff.mp (by omega)
    rw [if_pos hzero, if_pos hempty]
  · have hne : b.content ≠ [] := by
      intro h
      rw [h] at hlen
      exact hzero hlen.symm
    rw [if_neg hzero, if_neg hne, cstr_window hwf (Nat.pos_of_ne_zero hzero)]

/-- A well-formed buffer, its sizes read as exact integers. -/
structure ByteBuf where
  buf : Buf
  wf : buf.Wf

namespace ByteBuf

variable (b : ByteBuf)

/-- The byte string that the buffer holds. -/
def bytes : Bytes := b.buf.content

/-- `spe_buf_create`. -/
def create : ByteBuf := ⟨bufCreate, bufCreate_spec.1⟩

/-- `spe_buf_append`. -/
def append (src : Bytes) (al : Alloc) : ByteBuf × Bool :=
  let r := bufAppend .exact b.buf src al
  (⟨r.1, (bufAppend_spec al b.wf (holds_exact _) (appendFits_exact _ _)).1⟩, r.2)

/-- `spe_buf_lconsume`. -/
def lconsume (n : Nat) : ByteBuf := ⟨bufLconsume b.buf n, (bufLconsume_spec b.wf).1⟩

/-- `spe_buf_clean`. -/
def clean : ByteBuf := ⟨bufClean b.buf, (bufClean_spec b.wf).1⟩

/-- `spe_buf_read_fd_append`. -/
def readFdAppend (len : Nat) (al : Alloc) (r : ReadRes) : ByteBuf × ReadRet :=
  let res := bufReadFdAppend .exact b.buf len al r
  (⟨res.1, (bufReadFdAppend_spec al r b.wf (holds_exact _) (appendFits_exact _ _)).1⟩, res.2)

/-- `spe_buf_search`. -/
def search (key : Bytes) : Option Nat := bufSearch b.buf key

@[simp] theorem bytes_create : create.bytes = [] := bufCreate_spec.2

/-- What a buffer holds after an append. -/
theorem bytes_append (src : Bytes) (al : Alloc) :
    (b.append src al).1.bytes = if (b.append src al).2 then b.bytes ++ src else b.bytes :=
  (bufAppend_spec al b.wf (holds_exact _) (appendFits_exact _ _)).2.2.1

/-- An append fails only when the allocation does. -/
theorem append_ok {al : Alloc} (src : Bytes) (hal : al.isSome) :
    (b.append src al).2 = true :=
  (bufAppend_spec al b.wf (holds_exact _) (appendFits_exact _ _)).2.2.2.1 hal

/-- What a buffer holds after a successful append. -/
@[simp] theorem bytes_append_ok {al : Alloc} (src : Bytes) (hal : al.isSome) :
    (b.append src al).1.bytes = b.bytes ++ src := by
  rw [bytes_append, append_ok b src hal, if_pos rfl]

@[simp] theorem bytes_lconsume (n : Nat) : (b.lconsume n).bytes = b.bytes.drop n :=
  (bufLconsume_spec b.wf).2.1

@[simp] theorem bytes_clean : b.clean.bytes = [] :=
  (bufClean_spec b.wf).2.2.1

/-- What a buffer holds after a read: the bytes that were delivered are at its
end.  The room for them is at least what was asked for. -/
theorem bytes_readFdAppend (len : Nat) {al : Alloc} (r : ReadRes) (hal : al.isSome) :
    ∃ room, len ≤ room ∧ (b.readFdAppend len al r).2 = r.ret room ∧
      (b.readFdAppend len al r).1.bytes = b.bytes ++ r.bytes room := by
  obtain ⟨_, _, _, hfailed | hread⟩ := bufReadFdAppend_spec al r b.wf
    (holds_exact _) (appendFits_exact _ len)
  · rw [hfailed.2.1] at hal
    cases hal
  · exact hread

/-- The search sees the bytes before the first NUL. -/
theorem search_eq (key : Bytes) :
    b.search key = if b.bytes = [] then none else Search.find key (cstr b.bytes) :=
  bufSearch_spec b.wf key

/-- The length field. -/
theorem len_eq : b.buf.len = b.bytes.length := (content_length b.wf).symm

end ByteBuf

end Spe
