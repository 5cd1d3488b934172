import Spe.BufferFits
import Spe.BufferText

/-!
# Appending to a list of strings (`spe_bufs_append`)

Three allocations can fail in one call: the array, the new buffer, and its bytes.  The first two
are looked at, and the list is left as it was.  The result of `spe_buf_copy` is not: when the bytes
cannot be allocated, `spe_bufs_append` returns true, and the string it has added is what the
buffer held before.

Here the buffers are those of the machine (`Arith`), as a copy can also come out wrong when
`25 * len` wraps, and the array is nulled by a loop that counts with an `int`.
-/

namespace Spe

open Transition

/-- `spe_bufs_t`, with the buffers as the machine has them.  `_size` is the length of `data`. -/
structure RawBufs where
  data : List (Option Buf)
  len : Nat

namespace RawBufs

variable (A : Arith) (bufs : RawBufs) (src : Bytes) (al : BufsAlloc)

/-- `spe_bufs_create`. -/
def create : RawBufs := ⟨[], 0⟩

/-- The array after it has been allocated anew.  The new entries are nulled by a loop whose `int`
does not reach `2 ^ 31`: none is what the C standard leaves undefined. -/
def nulled : Option (List (Option Buf)) :=
  if bufs.len + 16 < 2 ^ 31 then some (bufs.data ++ List.replicate 16 none) else none

/-- The rest of `spe_bufs_append`, once there is room in the array. -/
def store (data : List (Option Buf)) : RawBufs × Bool :=
  match data.getD bufs.len none with
  | some b => ({ data := data.set bufs.len (some (bufCopy A b src al.copy).1),
                 len := bufs.len + 1 }, true)
  | none =>
      if ¬ al.create then ({ bufs with data := data }, false) else
      ({ data := data.set bufs.len (some (bufCopy A bufCreate src al.copy).1),
         len := bufs.len + 1 }, true)

/-- `spe_bufs_append`. -/
def append : Option (RawBufs × Bool) :=
  if bufs.len = bufs.data.length then
    if ¬ al.grow then some (bufs, false) else
    bufs.nulled.map (bufs.store A src al)
  else some (bufs.store A src al bufs.data)

/-- `spe_bufs_clean`. -/
def clean : RawBufs := { bufs with len := 0 }

/-- The strings. -/
def strings : List (Option Bytes) := (bufs.data.take bufs.len).map (Option.map Buf.content)

/-- The buffer that the string will be copied into, if the array and the buffer are there. -/
def target : Option Buf :=
  if bufs.len = bufs.data.length then
    if al.grow = true ∧ al.create = true then some bufCreate else none
  else
    match bufs.data.getD bufs.len none with
    | some b => some b
    | none => if al.create = true then some bufCreate else none

end RawBufs

/-- The calls on a `spe_bufs_t`. -/
inductive BufsCall
  | append (src : Bytes) (al : BufsAlloc)
  | clean

namespace RawBufs

/-- One call. -/
def step (bufs : RawBufs) : BufsCall → Option RawBufs
  | .append src al => (bufs.append .u32 src al).map Prod.fst
  | .clean => some bufs.clean

/-- The size computations of the copy do not wrap. -/
def Fits (bufs : RawBufs) : BufsCall → Prop
  | .append src al => ∀ b, bufs.target al = some b → CopyFits .u32 b src.length
  | .clean => True

/-- An array that grows stays below `2 ^ 31` entries. -/
def Counts (bufs : RawBufs) (al : BufsAlloc) : Prop :=
  bufs.len = bufs.data.length → al.grow = true → bufs.len + 16 < 2 ^ 31

/-- The array can be counted, and the copy, if there is one, does not wrap and finds room or
memory unless the string is empty. -/
def Copies (bufs : RawBufs) (src : Bytes) (al : BufsAlloc) : Prop :=
  bufs.Counts al ∧ ∀ b, bufs.target al = some b → CopyFits .u32 b src.length ∧
    (al.copy = none → b.size < src.length + 1 → src = [])

/-- Every pointer below `len` is a buffer, those behind are null or buffers, and all buffers are
well formed. -/
structure Sound (bufs : RawBufs) : Prop where
  room : bufs.len ≤ bufs.data.length
  below : ∀ i < bufs.len, ∃ b, bufs.data[i]? = some (some b)
  buffers : ∀ (i : Nat) b, bufs.data[i]? = some (some b) → BufSafe b

/-- All or nothing: the string is added behind the others, or the list is left as it was.  The
buffer behind the strings is the one that is used, and the other entries stay as they are. -/
structure Whole (bufs : RawBufs) (src : Bytes) (al : BufsAlloc) (r : RawBufs × Bool) : Prop where
  outcome : (r.2 = true ∧ r.1.strings = bufs.strings ++ [some src]) ∨
    (r.2 = false ∧ r.1.strings = bufs.strings)
  sound : Sound r.1
  reused : ∀ b, bufs.data[bufs.len]? = some (some b) →
    r.1.data[bufs.len]? = some (some (bufCopy .u32 b src al.copy).1)
  others : ∀ i < bufs.data.length, i ≠ bufs.len → r.1.data[i]? = bufs.data[i]?

/-- The call is defined, and all or nothing. -/
def AllOrNothing (bufs : RawBufs) (src : Bytes) (al : BufsAlloc) : Prop :=
  ∃ r, bufs.append .u32 src al = some r ∧ Whole bufs src al r

variable {bufs bufs' : RawBufs} {src : Bytes} {al : BufsAlloc}

/-- The array after it has grown, or not. -/
def grown (bufs : RawBufs) (al : BufsAlloc) : List (Option Buf) :=
  if bufs.len = bufs.data.length ∧ al.grow = true then bufs.data ++ List.replicate 16 none
  else bufs.data

/-- The array does not shrink. -/
theorem le_grown (bufs : RawBufs) (al : BufsAlloc) :
    bufs.data.length ≤ (bufs.grown al).length := by
  unfold grown
  split
  · rw [List.length_append]
    exact Nat.le_add_right _ _
  · exact Nat.le_refl _

/-- The entries that were there are there. -/
theorem grown_getElem (bufs : RawBufs) (al : BufsAlloc) {i : Nat} (hi : i < bufs.data.length) :
    (bufs.grown al)[i]? = bufs.data[i]? := by
  unfold grown
  split
  · exact List.getElem?_append_left hi
  · rfl

/-- The entries that are new are null. -/
theorem grown_some (bufs : RawBufs) (al : BufsAlloc) {i : Nat} {b : Buf}
    (h : (bufs.grown al)[i]? = some (some b)) : bufs.data[i]? = some (some b) := by
  by_cases hi : i < bufs.data.length
  · rwa [grown_getElem bufs al hi] at h
  · unfold grown at h
    split at h
    · rw [List.getElem?_append_right (Nat.le_of_not_lt hi)] at h
      have hmem := List.mem_of_getElem? h
      cases List.eq_of_mem_replicate hmem
    · exact h

/-- The strings are those of the entries that were there. -/
theorem grown_take (bufs : RawBufs) (al : BufsAlloc) (hroom : bufs.len ≤ bufs.data.length) :
    (bufs.grown al).take bufs.len = bufs.data.take bufs.len := by
  unfold grown
  split
  · exact List.take_append_of_le_length hroom
  · rfl

/-- An array that cannot be counted. -/
theorem append_none (A : Arith) (src : Bytes) (h : ¬ bufs.Counts al) :
    bufs.append A src al = none := by
  unfold Counts at h
  push Not at h
  obtain ⟨hfull, hgrow, hint⟩ := h
  unfold append nulled
  rw [if_pos hfull, if_neg (not_not.mpr hgrow), if_neg (Nat.not_lt.mpr hint)]
  rfl

/-- **`spe_bufs_append`**: the array or the buffer is not there, or the string is copied. -/
theorem append_eq (A : Arith) (src : Bytes) (hroom : bufs.len ≤ bufs.data.length)
    (hcounts : bufs.Counts al) :
    (bufs.target al = none ∧ bufs.append A src al = some (⟨bufs.grown al, bufs.len⟩, false)) ∨
    ∃ b, bufs.target al = some b ∧ bufs.len < (bufs.grown al).length ∧
      (bufs.data[bufs.len]? = some (some b) ∨
        b = bufCreate ∧ ∀ c, bufs.data[bufs.len]? ≠ some (some c)) ∧
      bufs.append A src al = some
        (⟨(bufs.grown al).set bufs.len (some (bufCopy A b src al.copy).1), bufs.len + 1⟩,
          true) := by
  obtain ⟨data, len⟩ := bufs
  by_cases hfull : len = data.length
  · subst hfull
    unfold target append grown
    cases hgrow : al.grow with
    | false =>
        left
        exact ⟨by simp, by simp⟩
    | true =>
        have hnulled : nulled ⟨data, data.length⟩ = some (data ++ List.replicate 16 none) :=
          if_pos (hcounts rfl hgrow)
        cases hcreate : al.create with
        | false =>
            left
            refine ⟨by simp, ?_⟩
            rw [hnulled]
            simp [store, hcreate]
        | true =>
            right
            refine ⟨bufCreate, by simp, by simp, Or.inr ⟨rfl, by simp⟩, ?_⟩
            rw [hnulled]
            simp [store, hcreate]
  · have hlt : len < data.length := Nat.lt_of_le_of_ne hroom hfull
    have hgrown : grown ⟨data, len⟩ al = data := if_neg (fun h => hfull h.1)
    rw [hgrown]
    unfold target append store
    dsimp only
    simp only [if_neg hfull]
    have hget : data[len]? = some (data.getD len none) := by
      rw [List.getD_eq_getElem?_getD, List.getElem?_eq_getElem hlt, Option.getD_some]
    cases hentry : data.getD len none with
    | some b =>
        right
        exact ⟨b, rfl, hlt, Or.inl (by rw [hget, hentry]), rfl⟩
    | none =>
        cases hcreate : al.create with
        | false =>
            left
            exact ⟨rfl, rfl⟩
        | true =>
            right
            refine ⟨bufCreate, rfl, hlt, Or.inr ⟨rfl, ?_⟩, rfl⟩
            intro c hc
            rw [hget, hentry] at hc
            cases Option.some.inj hc

/-- The content is no longer than the window. -/
theorem content_length_le (b : Buf) : b.content.length ≤ b.len := by
  unfold Buf.content Block.slice
  rw [List.length_take]
  exact Nat.min_le_left _ _

/-- A window with bytes in it is shorter than the block. -/
theorem len_lt_size {b : Buf} (h : b.Wf) (hlen : 0 < b.len) : b.len < b.size := by
  have hsome : b.start.isSome = true := by
    rw [Option.isSome_iff_ne_none]
    intro hnone
    have hzero := (h.null hnone).2
    omega
  have hwindow := h.window hsome
  omega

/-- An expansion leaves the length of the window. -/
theorem bufExpand_len (b : Buf) (n : Nat) (al : Alloc) : (bufExpand .u32 b n al).1.len = b.len := by
  have hmoved : (if b.off ≠ 0 then b.compact else b).len = b.len := by
    split
    · rfl
    · rfl
  unfold bufExpand
  dsimp only
  split
  · exact hmoved
  · exact hmoved

/-- A copy that does not wrap fails exactly when it finds neither room nor memory. -/
theorem bufCopy_false_iff {b : Buf} {src : Bytes} (hb : BufSafe b)
    (hfits : CopyFits .u32 b src.length) (al : Alloc) :
    (bufCopy .u32 b src al).2 = false ↔ al = none ∧ b.size < src.length + 1 := by
  obtain ⟨g, hg⟩ : ∃ g, g = if b.size < Arith.u32.wrap (src.length + 1) then
      bufExpand .u32 b (Arith.u32.wrap (src.length + 1)) al else (b, true) := ⟨_, rfl⟩
  have hret : (bufCopy .u32 b src al).2 = g.2 := by
    unfold bufCopy
    simp only [← hg]
    cases g.2 <;> rfl
  have hwrap : Arith.u32.wrap (src.length + 1) = src.length + 1 := wrap_eq hfits.1
  rw [hret, hg, hwrap]
  by_cases hless : b.size < src.length + 1
  · obtain ⟨_, _, _, hok, _⟩ :=
      bufExpand_spec al hb.wf (hfits.2 hless) (Nat.le_of_lt hless) (Nat.succ_pos _)
    rw [if_pos hless, hok, and_iff_left hless]
    cases al <;> simp
  · rw [if_neg hless]
    simp [hless]

/-- What growing for a copy leaves when it wraps: the block is too small if the expansion succeeds,
and else the window is. -/
theorem copyGrow_short {b : Buf} {n need : Nat} (hb : BufSafe b) (hnot : ¬ CopyFits .u32 b n)
    (hneed : need = (n + 1) % 2 ^ 32) {al : Alloc} {g : Buf × Bool}
    (hg : g = if b.size < need then bufExpand .u32 b need al else (b, true)) :
    (g.2 = true → g.1.size < n + 1) ∧ (g.2 = false → g.1.len < n) := by
  have hsize : b.size < 2 ^ 32 := hb.size
  have hle : need ≤ n + 1 := hneed ▸ Nat.mod_le _ _
  have hpos : 0 < n := by
    by_contra hzero
    refine hnot ⟨?_, fun _ => ?_⟩
    · show n + 1 < 2 ^ 32
      omega
    · show 25 * (n + 1) < 2 ^ 32
      omega
  rw [hg]
  by_cases hless : b.size < need
  · rw [if_pos hless]
    refine ⟨fun hok => ?_, fun _ => ?_⟩
    · rw [bufExpand_size hok]
      by_cases hbig : n + 1 < 2 ^ 32
      · have hsame : need = n + 1 := hneed.trans (Nat.mod_eq_of_lt hbig)
        have hwraps : ¬ 25 * need < 2 ^ 32 := by
          rw [hsame]
          exact fun h => hnot ⟨hbig, fun _ => h⟩
        rw [← growth_rule (hsame ▸ hbig)] at hwraps
        omega
      · omega
    · rw [bufExpand_len]
      by_cases hlen : 0 < b.len
      · have hwindow := len_lt_size hb.wf hlen
        omega
      · omega
  · rw [if_neg hless]
    refine ⟨fun _ => ?_, by simp⟩
    show b.size < n + 1
    by_contra hroom
    refine hnot ⟨?_, fun h => absurd h hroom⟩
    show n + 1 < 2 ^ 32
    omega

/-- A copy that wraps overruns the block, or leaves the content as it was. -/
theorem bufCopy_overrun {b : Buf} {src : Bytes} (hb : BufSafe b)
    (hnot : ¬ CopyFits .u32 b src.length) (al : Alloc) (hwf : (bufCopy .u32 b src al).1.Wf) :
    (bufCopy .u32 b src al).1.content ≠ src := by
  obtain ⟨need, hneed⟩ : ∃ need, need = Arith.u32.wrap (src.length + 1) := ⟨_, rfl⟩
  obtain ⟨g, hg⟩ : ∃ g, g = if b.size < need then bufExpand .u32 b need al else (b, true) :=
    ⟨_, rfl⟩
  obtain ⟨hblock, hcontent⟩ := copyGrow_short hb hnot hneed hg
  unfold bufCopy at hwf ⊢
  simp only [← hneed, ← hg] at hwf ⊢
  by_cases hok : g.2 = true
  · have hsmall := hblock hok
    rw [if_neg (by simp [hok])] at hwf
    cases hstart : g.1.start with
    | none =>
        have hnull := hwf.null (by simp [Buf.terminate, Buf.memcpy, Buf.poke, Buf.note, hstart])
        have hempty : src = [] := List.length_eq_zero_iff.mp hnull.2
        rw [hempty] at hnot
        refine absurd ⟨?_, fun _ => ?_⟩ hnot
        · show 1 < 2 ^ 32
          decide
        · show 25 * 1 < 2 ^ 32
          decide
    | some m =>
        have hwindow := hwf.window (by simp [Buf.terminate, Buf.memcpy, Buf.poke, Buf.note, hstart])
        have hfits : 0 + src.length + 1 ≤ g.1.size := hwindow
        omega
  · rw [if_pos hok]
    intro hsame
    have hlen := content_length_le g.1
    have hless := hcontent (by simpa using hok)
    rw [hsame] at hlen
    omega

/-- **The copy** puts the string into the buffer exactly when it does not wrap, and finds room or
memory unless the string is empty. -/
theorem copy_exact {b : Buf} (hb : BufSafe b) (src : Bytes) (al : Alloc) :
    (BufSafe (bufCopy .u32 b src al).1 ∧ (bufCopy .u32 b src al).1.content = src) ↔
      CopyFits .u32 b src.length ∧ (al = none → b.size < src.length + 1 → src = []) := by
  by_cases hfits : CopyFits .u32 b src.length
  · obtain ⟨hwf, hext, hcontent, _, hsize⟩ := bufCopy_spec al hb.wf hb.size hfits
    rw [and_iff_right hfits, and_iff_right ⟨hwf, hsize, log_of_extends hb.log hext⟩, hcontent]
    cases hok : (bufCopy .u32 b src al).2 with
    | true =>
        rw [if_pos rfl]
        refine iff_of_true rfl ?_
        intro hnone hless
        cases hok.symm.trans ((bufCopy_false_iff hb hfits al).mpr ⟨hnone, hless⟩)
    | false =>
        obtain ⟨hnone, hless⟩ := (bufCopy_false_iff hb hfits al).mp hok
        rw [if_neg Bool.false_ne_true]
        constructor
        · rintro hsame _ _
          by_contra hne
          have hpos := List.length_pos_of_ne_nil hne
          have hlen := content_length_le b
          rw [hsame] at hlen
          have hlt := len_lt_size hb.wf (by omega)
          omega
        · intro hnil
          have hnil := hnil hnone hless
          rw [hnil, List.length_nil] at hless
          have hlen := hb.wf.len_le
          have hcontent := content_length_le b
          rw [hnil]
          exact List.length_eq_zero_iff.mp (by omega)
  · refine iff_of_false ?_ (fun h => hfits h.1)
    rintro ⟨hsafe, hcontent⟩
    exact bufCopy_overrun hb hfits al hsafe.wf hcontent

/-- A buffer behind the strings is copied into. -/
theorem target_entry {b : Buf} (h : bufs.data[bufs.len]? = some (some b)) :
    bufs.target al = some b := by
  obtain ⟨hlt, hget⟩ := List.getElem?_eq_some_iff.mp h
  unfold target
  rw [if_neg (Nat.ne_of_lt hlt), List.getD_eq_getElem?_getD, h, Option.getD_some]

/-- The buffer that is copied into is well formed. -/
theorem Sound.target (h : Sound bufs) {b : Buf} (hfrom : bufs.data[bufs.len]? = some (some b) ∨
    b = bufCreate ∧ ∀ c, bufs.data[bufs.len]? ≠ some (some c)) : BufSafe b := by
  rcases hfrom with hentry | ⟨rfl, -⟩
  · exact h.buffers _ _ hentry
  · exact bufSafe_create

/-- An array that has grown. -/
theorem Sound.grown (h : Sound bufs) (al : BufsAlloc) : Sound ⟨bufs.grown al, bufs.len⟩ where
  room := Nat.le_trans h.room (le_grown bufs al)
  below i hi := by
    rw [grown_getElem bufs al (Nat.lt_of_lt_of_le hi h.room)]
    exact h.below i hi
  buffers i b hentry := h.buffers i b (grown_some bufs al hentry)

/-- A string that has been stored behind the others. -/
theorem Sound.stored (h : Sound bufs) {c : Buf} (hlt : bufs.len < bufs.data.length)
    (hc : BufSafe c) : Sound ⟨bufs.data.set bufs.len (some c), bufs.len + 1⟩ where
  room := by
    rw [List.length_set]
    exact hlt
  below i hi := by
    rcases Nat.lt_succ_iff_lt_or_eq.mp hi with hless | rfl
    · rw [List.getElem?_set_ne (Nat.ne_of_gt hless)]
      exact h.below i hless
    · exact ⟨c, List.getElem?_set_self hlt⟩
  buffers i b hentry := by
    by_cases hi : bufs.len = i
    · subst hi
      rw [List.getElem?_set_self hlt] at hentry
      cases hentry
      exact hc
    · rw [List.getElem?_set_ne hi] at hentry
      exact h.buffers i b hentry

/-- A new list. -/
theorem sound_create : Sound create where
  room := Nat.le_refl 0
  below _ hi := absurd hi (Nat.not_lt_zero _)
  buffers _ _ hentry := by cases hentry

/-- **Step lemma.**  A call whose copy does not wrap keeps the list well formed. -/
theorem sound_step {call : BufsCall} (h : Sound bufs) (hfits : Fits bufs call)
    (hstep : step bufs call = some bufs') : Sound bufs' := by
  cases call with
  | clean =>
      obtain rfl := Option.some.inj hstep
      exact ⟨Nat.zero_le _, fun _ hi => absurd hi (Nat.not_lt_zero _), h.buffers⟩
  | append src al =>
      by_cases hcounts : bufs.Counts al
      · rcases append_eq .u32 src h.room hcounts with ⟨_, happend⟩ | ⟨b, htarget, hlt, hfrom, happend⟩
        · simp only [step, happend, Option.map_some, Option.some.injEq] at hstep
          subst hstep
          exact h.grown al
        · simp only [step, happend, Option.map_some, Option.some.injEq] at hstep
          subst hstep
          have hcopied : BufSafe (bufCopy .u32 b src al.copy).1 :=
            bufSafe_step (h.target hfrom) (show NoWrap b (.copy src al.copy) from hfits b htarget) rfl
          exact (h.grown al).stored hlt hcopied
      · simp only [step, append_none .u32 src hcounts, Option.map_none] at hstep
        cases hstep

/-- The list of every run whose copies do not wrap is well formed. -/
theorem sound_run {calls : List BufsCall} (hrun : Run step Fits create calls bufs) : Sound bufs :=
  hrun.invariant _ sound_create (fun _ _ _ h hfits hstep => sound_step h hfits hstep)

/-- Without the array or the buffer, the list is left as it was. -/
theorem whole_failed (h : Sound bufs) (htarget : bufs.target al = none) :
    Whole bufs src al (⟨bufs.grown al, bufs.len⟩, false) where
  outcome := by
    right
    unfold strings
    exact ⟨rfl, by rw [grown_take bufs al h.room]⟩
  sound := h.grown al
  reused b hentry := by cases htarget.symm.trans (target_entry hentry)
  others i hi _ := grown_getElem bufs al hi

/-- The strings when one more has been stored. -/
theorem strings_stored (h : Sound bufs) (al : BufsAlloc) (c : Buf)
    (hlt : bufs.len < (bufs.grown al).length) :
    strings ⟨(bufs.grown al).set bufs.len (some c), bufs.len + 1⟩ =
      bufs.strings ++ [some c.content] := by
  unfold strings
  rw [take_set_last hlt, grown_take bufs al h.room, List.map_append]
  rfl

/-- With a buffer, the call is all or nothing exactly when the string is in the buffer. -/
theorem whole_stored_iff (h : Sound bufs) {b : Buf} (hlt : bufs.len < (bufs.grown al).length)
    (htarget : bufs.target al = some b) :
    Whole bufs src al
      (⟨(bufs.grown al).set bufs.len (some (bufCopy .u32 b src al.copy).1), bufs.len + 1⟩, true) ↔
    BufSafe (bufCopy .u32 b src al.copy).1 ∧ (bufCopy .u32 b src al.copy).1.content = src := by
  constructor
  · intro hwhole
    refine ⟨hwhole.sound.buffers bufs.len _ (List.getElem?_set_self hlt), ?_⟩
    rcases hwhole.outcome with ⟨_, hstrings⟩ | ⟨hfalse, _⟩
    · rw [strings_stored h al _ hlt] at hstrings
      have hlast := List.append_cancel_left hstrings
      simpa using hlast
    · cases hfalse
  · rintro ⟨hsafe, hcontent⟩
    refine ⟨Or.inl ⟨rfl, ?_⟩, (h.grown al).stored hlt hsafe, ?_, ?_⟩
    · rw [strings_stored h al _ hlt, hcontent]
    · intro c hentry
      cases htarget.symm.trans (target_entry hentry)
      exact List.getElem?_set_self hlt
    · intro i hi hne
      show ((bufs.grown al).set bufs.len _)[i]? = _
      rw [List.getElem?_set_ne hne.symm, grown_getElem bufs al hi]

/-- **An append is all or nothing** exactly when the array can be counted and the copy, if there
is one, does not wrap, and finds room or memory unless the string is empty: after any calls whose
copies did not wrap. -/
theorem append_all_or_nothing {calls : List BufsCall} (hrun : Run step Fits create calls bufs)
    (src : Bytes) (al : BufsAlloc) : AllOrNothing bufs src al ↔ Copies bufs src al := by
  have h := sound_run hrun
  by_cases hcounts : bufs.Counts al
  · unfold AllOrNothing Copies
    rw [and_iff_right hcounts]
    rcases append_eq .u32 src h.room hcounts with
      ⟨htarget, happend⟩ | ⟨b, htarget, hlt, hfrom, happend⟩
    · refine iff_of_true ⟨_, happend, whole_failed h htarget⟩ ?_
      intro b hb
      cases htarget.symm.trans hb
    · have hexact := copy_exact (h.target hfrom) src al.copy
      rw [← whole_stored_iff h hlt htarget] at hexact
      simp only [happend, Option.some.injEq, exists_eq_left', htarget, forall_eq']
      exact hexact
  · refine iff_of_false ?_ (fun hcopies => hcounts hcopies.1)
    rintro ⟨r, happend, _⟩
    cases (append_none .u32 src hcounts).symm.trans happend

/-- A list with one string. -/
def single : RawBufs :=
  ⟨some (bufCopy .u32 bufCreate [97] (some fun _ => 0)).1 :: List.replicate 15 none, 1⟩

/-- When the bytes of a second string cannot be allocated, the append of an empty one is all or
nothing, and that of a longer one is not. -/
theorem append_all_or_nothing_two :
    AllOrNothing single [] ⟨true, true, none⟩ ∧ ¬ AllOrNothing single [98] ⟨true, true, none⟩ := by
  have hrun : Run step Fits create [.append [97] ⟨true, true, some fun _ => 0⟩] single := by
    refine Run.cons rfl ?_ (Run.nil _)
    intro b _
    exact ⟨by show 2 < 2 ^ 32; decide, fun _ => by show 25 * 2 < 2 ^ 32; decide⟩
  constructor
  · refine (append_all_or_nothing hrun [] ⟨true, true, none⟩).mpr ⟨?_, ?_⟩
    · intro hfull
      cases hfull
    · intro b _
      exact ⟨⟨by show 1 < 2 ^ 32; decide, fun _ => by show 25 * 1 < 2 ^ 32; decide⟩,
        fun _ _ => rfl⟩
  · rw [append_all_or_nothing hrun [98] ⟨true, true, none⟩]
    intro hcopies
    cases (hcopies.2 bufCreate rfl).2 rfl (by decide)

/-- The bytes of the first string cannot be allocated: `spe_bufs_append` returns true, and the
string it has added is empty. -/
theorem append_all_or_nothing_fails :
    (create.append .u32 [97] ⟨true, true, none⟩).map (fun r => (r.2, r.1.strings)) =
      some (true, [some []]) ∧
    ¬ ∀ (calls : List BufsCall) (bufs : RawBufs) (src : Bytes) (al : BufsAlloc),
      Run step anyStep create calls bufs → AllOrNothing bufs src al := by
  refine ⟨by decide, fun hall => ?_⟩
  obtain ⟨r, happend, hwhole⟩ :=
    hall [] create [97] ⟨true, true, none⟩ (Run.nil _)
  have hresult : (create.append .u32 [97] ⟨true, true, none⟩).map (fun r => (r.2, r.1.strings)) =
      some (true, [some []]) := by decide
  rw [happend] at hresult
  obtain ⟨hok, hstrings⟩ := Prod.mk.inj (Option.some.inj hresult)
  rcases hwhole.outcome with ⟨_, hadded⟩ | ⟨hfalse, _⟩
  · rw [hstrings] at hadded
    cases hadded
  · cases hok.symm.trans hfalse

end RawBufs

/-- A list of strings, as the machine has it. -/
def Bufs.raw (bufs : Bufs) : RawBufs := ⟨bufs.data.map (Option.map ByteBuf.buf), bufs.len⟩

@[simp] theorem Bufs.raw_strings (bufs : Bufs) : bufs.raw.strings = bufs.strings := by
  unfold RawBufs.strings Bufs.strings Bufs.raw
  rw [← List.map_take, List.map_map]
  congr 1
  funext b
  cases b <;> rfl

namespace Bufs

variable (bufs : Bufs) (src : Bytes) {al : BufsAlloc}

/-- The rest of `spe_bufs_append` on well formed buffers. -/
def store (al : BufsAlloc) (data : List (Option ByteBuf)) : Bufs × Bool :=
  match data.getD bufs.len none with
  | some b => (⟨data.set bufs.len (some (b.copy src al.copy).1), bufs.len + 1⟩, true)
  | none =>
      if ¬ al.create then ({ bufs with data := data }, false) else
      (⟨data.set bufs.len (some (ByteBuf.create.copy src al.copy).1), bufs.len + 1⟩, true)

/-- `spe_bufs_append` by its parts. -/
theorem append_eq_store (al : BufsAlloc) :
    bufs.append src al = if bufs.len = bufs.data.length then
      if ¬ al.grow then (bufs, false) else bufs.store src al (bufs.data ++ List.replicate 16 none)
    else bufs.store src al bufs.data := by
  unfold append store
  by_cases hfull : bufs.len = bufs.data.length
  · cases hgrow : al.grow with
    | false => simp [hfull]
    | true => simp [hfull]
  · have hgrow : ¬ (bufs.len = bufs.data.length ∧ ¬ al.grow) := fun h => hfull h.1
    cases hentry : bufs.data.getD bufs.len none with
    | none => simp only [if_neg hfull, if_neg hgrow, hentry]
    | some b => simp only [if_neg hfull, if_neg hgrow, hentry]

/-- A store is the same in the machine. -/
theorem raw_store (al : BufsAlloc) (data : List (Option ByteBuf)) :
    bufs.raw.store .exact src al (data.map (Option.map ByteBuf.buf)) =
      ((bufs.store src al data).1.raw, (bufs.store src al data).2) := by
  have hentry : (data.map (Option.map ByteBuf.buf)).getD bufs.len none =
      (data.getD bufs.len none).map ByteBuf.buf := by
    rw [List.getD_eq_getElem?_getD, List.getD_eq_getElem?_getD, List.getElem?_map]
    cases data[bufs.len]? with
    | none => rfl
    | some b => rfl
  unfold RawBufs.store store raw
  rw [hentry]
  cases data.getD bufs.len none with
  | some b =>
      dsimp only [Option.map_some]
      rw [List.map_set]
      rfl
  | none =>
      dsimp only [Option.map_none]
      cases al.create with
      | false => rfl
      | true =>
          rw [if_neg (by simp), if_neg (by simp), List.map_set]
          rfl

/-- Without wrap-around, `spe_bufs_append` on well formed buffers is the one above. -/
theorem raw_append (hcounts : bufs.raw.Counts al) :
    bufs.raw.append .exact src al =
      some ((bufs.append src al).1.raw, (bufs.append src al).2) := by
  have hlength : bufs.raw.data.length = bufs.data.length := List.length_map _
  rw [append_eq_store]
  unfold RawBufs.append
  rw [hlength]
  show (if bufs.len = bufs.data.length then _ else _) = _
  by_cases hfull : bufs.len = bufs.data.length
  · rw [if_pos hfull, if_pos hfull]
    cases hgrow : al.grow with
    | false => rfl
    | true =>
        have hnulled : bufs.raw.nulled =
            some ((bufs.data ++ List.replicate 16 none).map (Option.map ByteBuf.buf)) := by
          unfold RawBufs.nulled
          rw [if_pos (hcounts (hfull.trans hlength.symm) hgrow), List.map_append,
            List.map_replicate]
          rfl
        rw [hnulled, if_neg (by simp), if_neg (by simp), Option.map_some, raw_store]
  · rw [if_neg hfull, if_neg hfull]
    exact congrArg some (raw_store bufs src al bufs.data)

/-- **`spe_bufs_append` on the machine** is the one above when its copy does not wrap. -/
theorem raw_append_machine (hroom : bufs.len ≤ bufs.data.length) (hcounts : bufs.raw.Counts al)
    (hfits : ∀ b, bufs.raw.target al = some b →
      bufCopy .u32 b src al.copy = bufCopy .exact b src al.copy) :
    bufs.raw.append .u32 src al =
      some ((bufs.append src al).1.raw, (bufs.append src al).2) := by
  have hraw : bufs.raw.len ≤ bufs.raw.data.length := by
    rw [show bufs.raw.data.length = bufs.data.length from List.length_map _]
    exact hroom
  rw [← raw_append bufs src hcounts]
  rcases RawBufs.append_eq .u32 src hraw hcounts with ⟨hnone, happend⟩ | ⟨b, hb, _, _, happend⟩
  · rcases RawBufs.append_eq .exact src hraw hcounts with ⟨_, hexact⟩ | ⟨c, hc, _⟩
    · rw [happend, hexact]
    · cases hnone.symm.trans hc
  · rcases RawBufs.append_eq .exact src hraw hcounts with ⟨hnone, _⟩ | ⟨c, hc, _, _, hexact⟩
    · cases hnone.symm.trans hb
    · obtain rfl := Option.some.inj (hb.symm.trans hc)
      rw [happend, hexact, hfits b hb]

/-- No size computation of an append wraps: the array can be counted, and the copy fits. -/
def Takes (bufs : Bufs) (src : Bytes) (al : BufsAlloc) : Prop :=
  (bufs.len = bufs.data.length → al.grow = true → bufs.len + 16 < 2 ^ 31) ∧
    ∀ b ∈ bufs.raw.target al, CopyFits .u32 b src.length

instance (bufs : Bufs) (src : Bytes) (al : BufsAlloc) : Decidable (bufs.Takes src al) :=
  inferInstanceAs (Decidable ((_ → _ → _) ∧ ∀ b ∈ bufs.raw.target al, CopyFits .u32 b src.length))

/-- Such an append is the one of the machine. -/
theorem Takes.machine {bufs : Bufs} {src : Bytes} {al : BufsAlloc} (h : bufs.Takes src al)
    (hroom : bufs.len ≤ bufs.data.length) :
    bufs.raw.append .u32 src al =
      some ((bufs.append src al).1.raw, (bufs.append src al).2) := by
  have hcounts : bufs.raw.Counts al := fun hfull hgrow =>
    h.1 (hfull.trans (List.length_map _)) hgrow
  exact raw_append_machine bufs src hroom hcounts fun b hb =>
    bufCopy_machine al.copy (h.2 b hb)

/-- The buffer that an append at an index copies into, or the one that is made for it. -/
def slot (bufs : Bufs) (i : Nat) : Buf := ((bufs.data.getD i none).getD .create).buf

/-- The strings can be appended one after the other without a size that wraps: each fits the
buffer at its index, and where the array has to grow it can be counted. -/
def Holds (bufs : Bufs) (srcs : List Bytes) : Prop :=
  ∀ i src, srcs[i]? = some src →
    CopyFits .u32 (bufs.slot (bufs.len + i)) src.length ∧
    (bufs.data.length ≤ bufs.len + i → 16 ∣ bufs.len + i - bufs.data.length →
      bufs.len + i + 16 < 2 ^ 31)

/-- No strings fit into every list. -/
theorem holds_nil (bufs : Bufs) : bufs.Holds [] := by
  intro i src h
  cases h

/-- The first strings of those that fit. -/
theorem Holds.left {bufs : Bufs} {srcs : List Bytes} (more : List Bytes)
    (h : bufs.Holds (srcs ++ more)) : bufs.Holds srcs := by
  intro i src hsrc
  refine h i src ?_
  obtain ⟨hi, _⟩ := List.getElem?_eq_some_iff.mp hsrc
  rw [List.getElem?_append_left hi, hsrc]

section Good

variable {bufs : Bufs} {al : BufsAlloc}

/-- When the allocator answers, an append copies into the buffer behind the strings. -/
theorem takes_good (hal : al.Good) (src : Bytes) :
    bufs.Takes src al ↔ (bufs.len = bufs.data.length → bufs.len + 16 < 2 ^ 31) ∧
      CopyFits .u32 (bufs.slot bufs.len) src.length := by
  have htarget : bufs.raw.target al = some (bufs.slot bufs.len) := by
    have hentry : bufs.raw.data.getD bufs.len none =
        (bufs.data.getD bufs.len none).map ByteBuf.buf := by
      change (bufs.data.map (Option.map ByteBuf.buf)).getD bufs.len none = _
      rw [List.getD_eq_getElem?_getD, List.getD_eq_getElem?_getD, List.getElem?_map]
      cases bufs.data[bufs.len]? <;> rfl
    unfold RawBufs.target slot
    rw [show bufs.raw.data.length = bufs.data.length from List.length_map _,
      show bufs.raw.len = bufs.len from rfl, hentry]
    by_cases hfull : bufs.len = bufs.data.length
    · have hnone : bufs.data.getD bufs.len none = none := by
        rw [List.getD_eq_getElem?_getD, List.getElem?_eq_none (Nat.le_of_eq hfull.symm)]
        rfl
      rw [if_pos hfull, if_pos ⟨hal.grow, hal.create⟩, hnone]
      rfl
    · rw [if_neg hfull]
      cases bufs.data.getD bufs.len none with
      | some b => rfl
      | none => exact if_pos hal.create
  unfold Takes
  rw [htarget]
  simp [hal.grow]

/-- An append leaves the buffers behind it as they are. -/
theorem append_slot (hal : al.Good) (src : Bytes) :
    (∀ i > bufs.len, (bufs.append src al).1.slot i = bufs.slot i) ∧
      (bufs.append src al).1.data.length =
        if bufs.len = bufs.data.length then bufs.data.length + 16 else bufs.data.length := by
  have hlength : bufs.grown.length =
      if bufs.len = bufs.data.length then bufs.data.length + 16 else bufs.data.length := by
    unfold grown
    split
    · rw [List.length_append, List.length_replicate]
    · rfl
  have hset : ∀ (b : ByteBuf) (n : Nat), (∀ i > bufs.len,
      slot ⟨bufs.grown.set bufs.len (some b), n⟩ i = bufs.slot i) := by
    intro b n i hi
    have hother : (bufs.grown.set bufs.len (some b)).getD i none = bufs.data.getD i none := by
      rw [List.getD_eq_getElem?_getD, List.getElem?_set_ne (Nat.ne_of_lt hi),
        ← List.getD_eq_getElem?_getD, bufs.grown_getD]
    unfold slot
    rw [hother]
  rw [bufs.append_grown src fun _ => hal.grow]
  cases bufs.data.getD bufs.len none with
  | some b => exact ⟨hset _ _, (List.length_set ..).trans hlength⟩
  | none =>
      dsimp only
      rw [if_neg (not_not.mpr hal.create)]
      exact ⟨hset _ _, (List.length_set ..).trans hlength⟩

/-- The first string, and the others after it. -/
theorem holds_cons (hal : al.Good) (hroom : bufs.len ≤ bufs.data.length) (src : Bytes)
    (srcs : List Bytes) :
    bufs.Holds (src :: srcs) ↔ bufs.Takes src al ∧ (bufs.append src al).1.Holds srcs := by
  obtain ⟨_, hlen, _⟩ := bufs.append_spec src hroom hal
  obtain ⟨hslot, hgrown⟩ := append_slot hal src
  have hone : ∀ i, bufs.len + (i + 1) = bufs.len + 1 + i := fun i => by omega
  have hcount : ∀ i, ((bufs.append src al).1.data.length ≤ bufs.len + 1 + i →
      16 ∣ bufs.len + 1 + i - (bufs.append src al).1.data.length →
        bufs.len + 1 + i + 16 < 2 ^ 31) ↔
      (bufs.data.length ≤ bufs.len + 1 + i → 16 ∣ bufs.len + 1 + i - bufs.data.length →
        bufs.len + 1 + i + 16 < 2 ^ 31) := by
    intro i
    rw [hgrown]
    split
    · omega
    · exact Iff.rfl
  unfold Holds
  rw [takes_good hal, hlen]
  constructor
  · intro h
    obtain ⟨hfirst, hcounts⟩ := h 0 src rfl
    refine ⟨⟨fun hfull => ?_, hfirst⟩, fun i more hmore => ?_⟩
    · exact hcounts (Nat.le_of_eq hfull.symm) (by rw [Nat.add_zero, hfull]; simp)
    · obtain ⟨hfits, hcounts⟩ := h (i + 1) more hmore
      rw [hone] at hfits hcounts
      rw [hslot _ (by omega), hcount]
      exact ⟨hfits, hcounts⟩
  · rintro ⟨⟨hcounts, hfits⟩, hrest⟩ i more hmore
    cases i with
    | zero =>
        obtain rfl := Option.some.inj hmore
        exact ⟨hfits, fun hfull _ => hcounts (Nat.le_antisymm hroom hfull)⟩
    | succ i =>
        obtain ⟨hfits, hcounts⟩ := hrest i more hmore
        rw [hslot _ (by omega)] at hfits
        rw [hcount] at hcounts
        rw [hone]
        exact ⟨hfits, hcounts⟩

end Good

end Bufs

end Spe
