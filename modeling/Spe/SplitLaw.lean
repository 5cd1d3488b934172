import Mathlib.Data.List.Forall2
import Spe.BufferSplit
import Spe.BufsAtomic
import Spe.SplitEnds

/-!
# The split law on the machine (`spe_buf_split`)

`spe_buf_split` copies every piece into a new buffer, and `spe_buf_copy` asks for a block of
`25 * len / 16` bytes in 32 bits.  So the strings returned are the pieces that are not empty,
each in a block of its own, exactly when no piece is of 171798691 bytes or more
(`split_pieces`).  A content can be that long: a buffer that has grown to 268435454 bytes takes
more without another expansion (`split_pieces_fails`).

`split_machine` says when the split in exact sizes is the one of the machine.
-/

namespace Spe

open Transition

/-- A piece is appended unless it is empty. -/
def RawBufs.appendPiece (bufs : RawBufs) (piece : Bytes) (al : BufsAlloc) : Option RawBufs :=
  if piece = [] then some bufs else (bufs.append .u32 piece al).map Prod.fst

namespace ByteBuf

variable (b : ByteBuf) (token : CStr) (als : Nat → BufsAlloc)

/-- The loop of `spe_buf_split` with the buffers of the machine. -/
def rawSplitLoop : Nat → Nat → RawBufs → Option (Nat × RawBufs)
  | 0, _, _ => none
  | fuel + 1, start, bufs =>
      if start < b.buf.len then
        match Search.find token.1 (b.cstrAt start) with
        | none => some (start, bufs)
        | some point =>
            match bufs.appendPiece ((b.bytes.drop start).take point) (als start) with
            | none => none
            | some bufs => rawSplitLoop fuel (start + point + token.1.length) bufs
      else some (start, bufs)

/-- `spe_buf_split` with the buffers of the machine. -/
def rawSplit (create : Bool) (fuel : Nat) : Option (Option RawBufs) :=
  if ¬ create then some none else
  (b.rawSplitLoop token als fuel 0 .create).bind fun r =>
    (r.2.appendPiece (b.bytes.drop r.1) (als r.1)).map some

end ByteBuf

namespace RawBufs

/-- There is room for the strings, and nothing is behind them. -/
structure Blank (bufs : RawBufs) : Prop where
  room : bufs.len ≤ bufs.data.length
  rest : ∀ i ≥ bufs.len, ∀ c, bufs.data[i]? ≠ some (some c)

variable {bufs : RawBufs} {ps : List Bytes}

/-- A new list. -/
theorem blank_create : Blank create := ⟨Nat.le_refl 0, fun _ _ _ => nofun⟩

/-- Behind the strings a new buffer is made for the next one, or nothing is. -/
theorem Blank.target_eq (h : Blank bufs) {al : BufsAlloc} {b : Buf}
    (hb : bufs.target al = some b) : b = bufCreate := by
  have hentry : bufs.data.getD bufs.len none = none := by
    rw [List.getD_eq_getElem?_getD]
    cases hget : bufs.data[bufs.len]? with
    | none => rfl
    | some e =>
        cases e with
        | none => rfl
        | some c => exact absurd hget (h.rest _ (Nat.le_refl _) c)
  unfold RawBufs.target at hb
  rw [hentry] at hb
  split at hb
  · exact (Option.some.inj (Option.ite_none_right_eq_some.mp hb).2).symm
  · exact (Option.some.inj (Option.ite_none_right_eq_some.mp hb).2).symm

/-- **An append** leaves the list, or copies into a new buffer behind the strings. -/
theorem Blank.append (A : Arith) (h : Blank bufs) (al : BufsAlloc) (p : Bytes)
    (hcounts : bufs.Counts al) :
    ∃ r, bufs.append A p al = some r ∧ Blank r.1 ∧
      ((bufs.target al = none ∧ r.1.len = bufs.len ∧
          r.1.data.take r.1.len = bufs.data.take bufs.len) ∨
        (bufs.target al = some bufCreate ∧ r.1.len = bufs.len + 1 ∧
          r.1.data.take r.1.len =
            bufs.data.take bufs.len ++ [some (bufCopy A bufCreate p al.copy).1])) := by
  rcases append_eq A p h.room hcounts with ⟨hnone, happend⟩ | ⟨b, hb, hlt, _, happend⟩
  · refine ⟨_, happend, ⟨Nat.le_trans h.room (le_grown bufs al), ?_⟩,
      Or.inl ⟨hnone, rfl, grown_take bufs al h.room⟩⟩
    exact fun i hi c hget => h.rest i hi c (grown_some bufs al hget)
  · obtain rfl := h.target_eq hb
    refine ⟨_, happend, ⟨?_, ?_⟩, Or.inr ⟨hb, rfl, ?_⟩⟩
    · rw [List.length_set]
      exact hlt
    · intro i hi c hget
      have hne : bufs.len ≠ i := Nat.ne_of_lt hi
      rw [List.getElem?_set_ne hne] at hget
      exact h.rest i (Nat.le_of_lt hi) c (grown_some bufs al hget)
    · rw [take_set_last hlt, grown_take bufs al h.room]

/-- Each string is a copy into a new buffer whose bytes could be allocated. -/
structure Copied (bufs : RawBufs) (ps : List Bytes) : Prop extends Blank bufs where
  entries : List.Forall₂ (fun e p => ∃ al : Alloc, al.isSome ∧
    e = some (bufCopy .u32 bufCreate p al).1) (bufs.data.take bufs.len) ps

/-- A new list. -/
theorem copied_create : Copied create [] := ⟨blank_create, .nil⟩

/-- The number of strings. -/
theorem Copied.len_eq (h : Copied bufs ps) : bufs.len = ps.length := by
  rw [← h.entries.length_eq, List.length_take_of_le h.room]

/-- When the allocator answers, there is a buffer to copy into. -/
theorem target_isSome {al : BufsAlloc} (hal : al.Good) : (bufs.target al).isSome := by
  unfold RawBufs.target
  simp only [hal.grow, hal.create, and_self, if_true]
  split
  · rfl
  · split <;> rfl

/-- One more string. -/
theorem Copied.append (h : Copied bufs ps) {al : BufsAlloc} (hal : al.Good) (p : Bytes)
    (hcounts : bufs.Counts al) :
    ∃ r, bufs.append .u32 p al = some r ∧ Copied r.1 (ps ++ [p]) := by
  obtain ⟨r, happend, hblank, ⟨hnone, _⟩ | ⟨_, _, htake⟩⟩ := h.toBlank.append .u32 al p hcounts
  · have hsome := @target_isSome bufs al hal
    rw [hnone] at hsome
    cases hsome
  · refine ⟨r, happend, hblank, ?_⟩
    rw [htake]
    exact List.rel_append h.entries (.cons ⟨al.copy, hal.copy, rfl⟩ .nil)

/-- A piece that is not empty is one more string. -/
theorem Copied.appendPiece (h : Copied bufs ps) {al : BufsAlloc} (hal : al.Good) (p : Bytes)
    (hcounts : bufs.Counts al) :
    ∃ bufs', bufs.appendPiece p al = some bufs' ∧
      Copied bufs' (ps ++ [p].filter fun p => p ≠ []) := by
  unfold RawBufs.appendPiece
  by_cases hnil : p = []
  · rw [if_pos hnil]
    refine ⟨bufs, rfl, ?_⟩
    rw [show ([p].filter fun p => p ≠ []) = [] by simp [hnil], List.append_nil]
    exact h
  · obtain ⟨r, happend, hcopied⟩ := h.append hal p hcounts
    rw [if_neg hnil, happend]
    refine ⟨r.1, rfl, ?_⟩
    rw [show ([p].filter fun p => p ≠ []) = [p] by simp [hnil]]
    exact hcopied

/-- The size computations of a copy into a new buffer. -/
theorem copyFits_create (n : Nat) : CopyFits .u32 bufCreate n ↔ 25 * (n + 1) < 2 ^ 32 := by
  constructor
  · exact fun h => h.2 (Nat.succ_pos n)
  · intro h
    refine ⟨?_, fun _ => h⟩
    show n + 1 < 2 ^ 32
    omega

/-- Copies into new buffers come out right exactly when none of them wraps. -/
theorem entries_exact {es : List (Option Buf)}
    (h : List.Forall₂ (fun e p => ∃ al : Alloc, al.isSome ∧
      e = some (bufCopy .u32 bufCreate p al).1) es ps) :
    (∀ b, some b ∈ es → BufSafe b) ∧ es.map (Option.map Buf.content) = ps.map some ↔
      ∀ p ∈ ps, 25 * (p.length + 1) < 2 ^ 32 := by
  induction h with
  | nil => simp
  | @cons e p es ps hcopy _ ih =>
      obtain ⟨al, hal, rfl⟩ := hcopy
      have hexact := copy_exact bufSafe_create p al
      have hmemory : al = none → bufCreate.size < p.length + 1 → p = [] := by
        rintro rfl
        cases hal
      rw [and_iff_left hmemory, copyFits_create] at hexact
      rw [List.forall_mem_cons, ← ih, ← hexact, List.map_cons, List.map_cons, List.cons.injEq,
        Option.map_some, Option.some.injEq]
      constructor
      · rintro ⟨hsafe, hcontent, hrest⟩
        exact ⟨⟨hsafe _ List.mem_cons_self, hcontent⟩,
          fun b hb => hsafe b (List.mem_cons_of_mem _ hb), hrest⟩
      · rintro ⟨⟨hfirst, hcontent⟩, hsafe, hrest⟩
        refine ⟨fun b hb => ?_, hcontent, hrest⟩
        rcases List.mem_cons.mp hb with heq | hb
        · obtain rfl := Option.some.inj heq
          exact hfirst
        · exact hsafe b hb

/-- **The list that is returned** is well formed and holds the pieces exactly when no copy wraps. -/
theorem Copied.exact (h : Copied bufs ps) :
    Sound bufs ∧ bufs.strings = ps.map some ↔ ∀ p ∈ ps, 25 * (p.length + 1) < 2 ^ 32 := by
  rw [← entries_exact h.entries]
  refine and_congr_left fun hstrings => ⟨?_, ?_⟩
  · intro hsound b hb
    obtain ⟨i, hi, hget⟩ := List.mem_iff_getElem.mp hb
    rw [List.getElem_take] at hget
    refine hsound.buffers i b ?_
    rw [List.getElem?_eq_getElem (by rw [List.length_take] at hi; omega), hget]
  · intro hsafe
    refine ⟨h.room, ?_, ?_⟩
    · intro i hi
      have hlt : i < (bufs.data.take bufs.len).length := by
        rw [List.length_take_of_le h.room]
        exact hi
      obtain ⟨al, _, he⟩ := h.entries.get hlt (by rw [← h.len_eq]; exact hi)
      rw [List.get_eq_getElem, List.getElem_take] at he
      exact ⟨_, (List.getElem?_eq_getElem (Nat.lt_of_lt_of_le hi h.room)).trans (congrArg some he)⟩
    · intro i b hget
      by_cases hi : i < bufs.len
      · refine hsafe b (List.mem_of_getElem? (i := i) ?_)
        rw [List.getElem?_take_of_lt hi]
        exact hget
      · exact absurd hget (h.rest i (Nat.le_of_not_lt hi) b)

end RawBufs

/-- A copy into a new buffer that does not wrap, or whose bytes cannot be allocated. -/
theorem copy_create_machine {p : Bytes} {al : Alloc} (hshort : p.length < 2 ^ 28)
    (hfits : al.isSome → 25 * (p.length + 1) < 2 ^ 32) :
    bufCopy .u32 bufCreate p al = bufCopy .exact bufCreate p al := by
  cases al with
  | some fresh => exact bufCopy_machine _ ((RawBufs.copyFits_create _).mpr (hfits rfl))
  | none =>
      have hneed : Arith.u32.wrap (p.length + 1) = Arith.exact.wrap (p.length + 1) :=
        Nat.mod_eq_of_lt (by omega)
      have hnone : ∀ A : Arith, bufExpand A bufCreate (Arith.exact.wrap (p.length + 1)) none =
          (bufCreate, false) := fun A => by
        unfold bufExpand
        rfl
      unfold bufCopy
      simp only [hneed, hnone]

section Machine

variable {bufs : Bufs} {q : Bytes}

/-- No string of the list is too long for the copy that has made it. -/
def Bufs.Short (bufs : Bufs) : Prop :=
  ∀ e ∈ bufs.strings, ∀ p ∈ e, 25 * (p.length + 1) < 2 ^ 32

instance (bufs : Bufs) : Decidable bufs.Short :=
  inferInstanceAs (Decidable (∀ e ∈ bufs.strings, ∀ p ∈ e, 25 * (p.length + 1) < 2 ^ 32))

/-- An append leaves the strings, or puts the string behind them if its bytes can be allocated. -/
theorem Bufs.append_blank (hblank : bufs.raw.Blank) (al : BufsAlloc) (p : Bytes)
    (hcounts : bufs.raw.Counts al) :
    (bufs.append p al).1.raw.Blank ∧ bufs.strings <+: (bufs.append p al).1.strings ∧
      (bufs.append p al).1.len ≤ bufs.len + 1 ∧
      (bufs.raw.target al = some bufCreate → al.copy.isSome →
        some p ∈ (bufs.append p al).1.strings) := by
  obtain ⟨r, hexact, hafter, hcases⟩ := hblank.append .exact al p hcounts
  rw [Bufs.raw_append bufs p hcounts] at hexact
  obtain rfl := Option.some.inj hexact
  rw [← Bufs.raw_strings, ← Bufs.raw_strings]
  unfold RawBufs.strings
  refine ⟨hafter, ?_⟩
  rcases hcases with ⟨hnone, hlen, htake⟩ | ⟨_, hlen, htake⟩
  · rw [htake]
    refine ⟨List.prefix_refl _, Nat.le_succ_of_le (Nat.le_of_eq hlen), fun htarget => ?_⟩
    cases hnone.symm.trans htarget
  · rw [htake, List.map_append]
    refine ⟨List.prefix_append _ _, Nat.le_of_eq hlen, fun _ hsome => ?_⟩
    obtain ⟨_, _, hcontent, hok, _⟩ := bufCopy_spec al.copy bufCreate_spec.1 (holds_exact _)
      (copyFits_exact bufCreate p.length)
    rw [List.map_singleton, Option.map_some, hcontent, hok hsome, if_pos rfl]
    exact List.mem_append_right _ (List.mem_singleton_self _)

/-- One append on the machine. -/
theorem Bufs.append_machine (hblank : bufs.raw.Blank) {al : BufsAlloc} {p : Bytes}
    (hcounts : bufs.raw.Counts al) (hlong : p.length < 2 ^ 28)
    (hfits : (bufs.append p al).1.Short) :
    bufs.raw.append .u32 p al = some ((bufs.append p al).1.raw, (bufs.append p al).2) := by
  have hroom : bufs.len ≤ bufs.data.length := by
    have hroom := hblank.room
    rwa [show bufs.raw.data.length = bufs.data.length from List.length_map _] at hroom
  obtain ⟨_, _, _, hadded⟩ := Bufs.append_blank hblank al p hcounts
  refine Bufs.raw_append_machine bufs p hroom hcounts fun b hb => ?_
  obtain rfl := hblank.target_eq hb
  exact copy_create_machine hlong fun hsome => hfits _ (hadded hb hsome) p rfl

/-- A piece that is not empty is put behind the strings. -/
theorem Bufs.appendPiece_blank (hblank : bufs.raw.Blank) (al : BufsAlloc) (p : Bytes)
    (hcounts : bufs.raw.Counts al) :
    (bufs.appendPiece p al).raw.Blank ∧ bufs.strings <+: (bufs.appendPiece p al).strings ∧
      (bufs.appendPiece p al).len ≤ bufs.len + p.length := by
  unfold Bufs.appendPiece
  by_cases hnil : p = []
  · rw [if_pos hnil]
    exact ⟨hblank, List.prefix_refl _, Nat.le_add_right _ _⟩
  · rw [if_neg hnil]
    obtain ⟨hafter, hprefix, hlen, _⟩ := Bufs.append_blank hblank al p hcounts
    have hpos := List.length_pos_of_ne_nil hnil
    exact ⟨hafter, hprefix, by omega⟩

/-- One piece on the machine. -/
theorem Bufs.appendPiece_machine (hblank : bufs.raw.Blank) {al : BufsAlloc} {p : Bytes}
    (hcounts : bufs.raw.Counts al) (hlong : p.length < 2 ^ 28)
    (hfits : (bufs.appendPiece p al).Short) :
    bufs.raw.appendPiece p al = some (bufs.appendPiece p al).raw := by
  unfold Bufs.appendPiece at hfits ⊢
  unfold RawBufs.appendPiece
  by_cases hnil : p = []
  · rw [if_pos hnil, if_pos hnil]
  · rw [if_neg hnil] at hfits ⊢
    rw [if_neg hnil, Bufs.append_machine hblank hcounts hlong hfits]
    rfl

/-- Strings that were there before are short, too. -/
theorem Bufs.Short.before {bufs' : Bufs} (h : bufs'.Short) (hpre : bufs.strings <+: bufs'.strings) :
    bufs.Short :=
  fun e he => h e (hpre.subset he)

namespace ByteBuf

variable {b : ByteBuf} {token : CStr} {als : Nat → BufsAlloc}

/-- The loop does not go beyond the content. -/
theorem splitLoop_le {fuel start : Nat} {bufs : Bufs} {r : Nat × Bufs}
    (hstart : start ≤ b.bytes.length)
    (hloop : b.splitLoop token als fuel start bufs = some r) : r.1 ≤ b.bytes.length := by
  induction fuel generalizing start bufs with
  | zero => cases hloop
  | succ fuel ih =>
      rw [splitLoop] at hloop
      split at hloop
      · rename_i hmore
        cases hfind : Search.find token.1 (b.cstrAt start) with
        | none =>
            rw [hfind] at hloop
            obtain rfl := Option.some.inj hloop
            exact hstart
        | some point =>
            rw [hfind] at hloop
            have hle := find_le hmore hfind
            rw [b.len_eq] at hle
            exact ih hle hloop
      · obtain rfl := Option.some.inj hloop
        exact hstart

/-- **The loop on the machine** goes as in exact sizes when no string of the list that it leads to
is too long. -/
theorem rawSplitLoop_machine {fuel start : Nat} {r : Nat × Bufs}
    (hsmall : b.bytes.length < 2 ^ 28) (hstart : start ≤ b.bytes.length)
    (hlen : bufs.len ≤ start) (hblank : bufs.raw.Blank)
    (hloop : b.splitLoop token als fuel start bufs = some r) (hfits : (b.splitTail als r).Short) :
    b.rawSplitLoop token als fuel start bufs.raw = some (r.1, r.2.raw) ∧
      r.2.raw.appendPiece (b.bytes.drop r.1) (als r.1) = some (b.splitTail als r).raw ∧
      bufs.strings <+: (b.splitTail als r).strings := by
  induction fuel generalizing start bufs with
  | zero => cases hloop
  | succ fuel ih =>
      have hcounts : bufs.raw.Counts (als start) := fun _ _ => by
        show bufs.len + 16 < 2 ^ 31
        omega
      have hlast : r = (start, bufs) →
          r.2.raw.appendPiece (b.bytes.drop r.1) (als r.1) = some (b.splitTail als r).raw ∧
          bufs.strings <+: (b.splitTail als r).strings := by
        rintro rfl
        obtain ⟨_, hprefix, _⟩ :=
          Bufs.appendPiece_blank hblank (als start) (b.bytes.drop start) hcounts
        refine ⟨Bufs.appendPiece_machine hblank hcounts ?_ hfits, hprefix⟩
        rw [List.length_drop]
        omega
      rw [splitLoop, b.len_eq] at hloop
      rw [rawSplitLoop, b.len_eq]
      by_cases hmore : start < b.bytes.length
      · rw [if_pos hmore] at hloop ⊢
        cases hfind : Search.find token.1 (b.cstrAt start) with
        | none =>
            rw [hfind] at hloop
            obtain rfl := Option.some.inj hloop
            exact ⟨rfl, hlast rfl⟩
        | some point =>
            rw [hfind] at hloop
            have hle := find_le (by rw [b.len_eq]; exact hmore) hfind
            rw [b.len_eq] at hle
            dsimp only at hloop ⊢
            rw [appendPiece_take bufs (als start) (by omega)] at hloop
            -- the rest of the loop keeps the piece, so that it is short
            obtain ⟨hafter, hprefix, hone⟩ := Bufs.appendPiece_blank hblank (als start)
              ((b.bytes.drop start).take point) hcounts
            rw [List.length_take] at hone
            obtain ⟨hrest, htail, hkept⟩ := ih hle (by omega) hafter hloop
            rw [Bufs.appendPiece_machine hblank hcounts (by rw [List.length_take]; omega)
              (hfits.before hkept)]
            exact ⟨hrest, htail, hprefix.trans hkept⟩
      · rw [if_neg hmore] at hloop ⊢
        obtain rfl := Option.some.inj hloop
        exact ⟨rfl, hlast rfl⟩

/-- **`spe_buf_split` on the machine** returns what it returns in exact sizes when no string of that
list is too long. -/
theorem split_machine {fuel : Nat} {bufs : Bufs} (hsmall : b.bytes.length < 2 ^ 28)
    (hsplit : b.split token true als fuel = some (some bufs)) (hfits : bufs.Short) :
    b.rawSplit token als true fuel = some (some bufs.raw) := by
  rw [b.split_eq token als fuel fun r => splitLoop_le (Nat.zero_le _)] at hsplit
  obtain ⟨r, hloop, htail⟩ := Option.map_eq_some_iff.mp hsplit
  obtain rfl := Option.some.inj htail
  obtain ⟨hraw, hlast, _⟩ := @rawSplitLoop_machine Bufs.create b token als fuel 0 r hsmall
    (Nat.zero_le _) (Nat.le_refl 0) RawBufs.blank_create hloop hfits
  unfold rawSplit
  rw [if_neg (by simp)]
  change (b.rawSplitLoop token als fuel 0 Bufs.create.raw).bind _ = _
  rw [hraw, Option.bind_some, hlast]
  rfl

end ByteBuf

end Machine

namespace ByteBuf

variable {b : ByteBuf} {token : CStr} {als : Nat → BufsAlloc}

/-- **The loop.**  From every start, the strings that are there at the end of the call are those
that were there and the pieces of the rest. -/
theorem rawSplitLoop_spec {fuel start : Nat} {bufs : RawBufs} {ps : List Bytes}
    (hne : token.1 ≠ []) (hclean : (0 : UInt8) ∉ b.bytes) (hals : ∀ start, (als start).Good)
    (hsmall : b.bytes.length < 2 ^ 28) (hstart : start ≤ b.bytes.length)
    (hlen : bufs.len ≤ start) (hbufs : bufs.Copied ps) (hfuel : b.bytes.length - start < fuel) :
    ∃ r bufs', b.rawSplitLoop token als fuel start bufs = some r ∧
      r.2.appendPiece (b.bytes.drop r.1) (als r.1) = some bufs' ∧
      bufs'.Copied (ps ++ Search.pieces token.1 (b.bytes.drop start)) := by
  induction fuel generalizing start bufs ps with
  | zero => exact absurd hfuel (Nat.not_lt_zero _)
  | succ fuel ih =>
      have hcounts : ∀ al, bufs.Counts al := fun al _ _ => by omega
      rw [rawSplitLoop, b.len_eq]
      by_cases hmore : start < b.bytes.length
      · rw [if_pos hmore, cstrAt_eq hmore hclean]
        cases hfind : Search.find token.1 (b.bytes.drop start) with
        | none =>
            obtain ⟨bufs', htail, hcopied⟩ :=
              hbufs.appendPiece (hals start) (b.bytes.drop start) (hcounts _)
            refine ⟨(start, bufs), bufs', rfl, htail, ?_⟩
            unfold Search.pieces
            rw [Search.cut_of_none hfind]
            exact hcopied
        | some point =>
            -- the turn appends what stands before the token and goes on behind it
            have hbound := Search.find_bound hfind
            have hpos := List.length_pos_iff.mpr hne
            rw [List.length_drop] at hbound
            obtain ⟨bufs₁, hpiece, hcopied⟩ := hbufs.appendPiece (hals start)
              ((b.bytes.drop start).take point) (hcounts _)
            have hone : bufs₁.len ≤ bufs.len + 1 := by
              rw [hcopied.len_eq, hbufs.len_eq, List.length_append]
              exact Nat.add_le_add_left (List.length_filter_le _ _) _
            obtain ⟨r, bufs', hloop, htail, hrest⟩ :=
              @ih (start + point + token.1.length) bufs₁ _ (by omega) (by omega) hcopied (by omega)
            refine ⟨r, bufs', ?_, htail, ?_⟩
            · dsimp only
              rw [hpiece]
              exact hloop
            · have hcut : Search.pieces token.1 (b.bytes.drop start) =
                  ([(b.bytes.drop start).take point].filter fun p => p ≠ []) ++
                    Search.pieces token.1 (b.bytes.drop (start + point + token.1.length)) := by
                unfold Search.pieces
                rw [Search.cut_of_some hne hfind, List.drop_drop, ← Nat.add_assoc,
                  ← List.filter_append, List.singleton_append]
              rw [hcut, ← List.append_assoc]
              exact hrest
      · rw [if_neg hmore]
        have hnil : b.bytes.drop start = [] := List.drop_of_length_le (Nat.le_of_not_lt hmore)
        refine ⟨(start, bufs), bufs, rfl, ?_, ?_⟩
        · unfold RawBufs.appendPiece
          rw [hnil, if_pos rfl]
        · rw [hnil]
          unfold Search.pieces
          rw [Search.cut_of_none (Search.find_nil hne)]
          simpa using hbufs

/-- **`spe_buf_split`** copies the pieces that are not empty. -/
theorem rawSplit_spec {fuel : Nat} (hne : token.1 ≠ []) (hclean : (0 : UInt8) ∉ b.bytes)
    (hals : ∀ start, (als start).Good) (hsmall : b.bytes.length < 2 ^ 28)
    (hfuel : b.bytes.length < fuel) :
    ∃ bufs, b.rawSplit token als true fuel = some (some bufs) ∧
      bufs.Copied (Search.pieces token.1 b.bytes) := by
  obtain ⟨r, bufs, hloop, htail, hcopied⟩ :=
    @rawSplitLoop_spec b token als fuel 0 RawBufs.create [] hne hclean hals hsmall (Nat.zero_le _)
      (Nat.le_refl 0) RawBufs.copied_create hfuel
  rw [List.drop_zero, List.nil_append] at hcopied
  refine ⟨bufs, ?_, hcopied⟩
  unfold rawSplit
  rw [if_neg (by simp), hloop, Option.bind_some, htail]
  rfl

/-- The law of the split: it returns the pieces that are not empty, each in a block of its own, in
order; no piece is empty or holds the token, and the content is the pieces of the scan with the
token between them. -/
structure SplitLaw (b : ByteBuf) (token : CStr) (als : Nat → BufsAlloc) (fuel : Nat) : Prop where
  returns : ∃ bufs, b.rawSplit token als true fuel = some (some bufs) ∧ bufs.Sound ∧
    bufs.strings = (Search.pieces token.1 b.bytes).map some ∧
    bufs.len = (Search.pieces token.1 b.bytes).length
  pieces : ∀ piece ∈ Search.pieces token.1 b.bytes,
    piece ≠ [] ∧ ∀ i, ¬ Search.OccursAt token.1 piece i
  covered : token.1.intercalate (Search.cut token.1 b.bytes) = b.bytes

section Law

variable {b : ByteBuf} {token : CStr} {als : Nat → BufsAlloc} {fuel : Nat}

/-- Where the law holds no copy of a piece has wrapped. -/
theorem SplitLaw.short (h : b.SplitLaw token als fuel) (hne : token.1 ≠ [])
    (hclean : (0 : UInt8) ∉ b.bytes) (hals : ∀ start, (als start).Good)
    (hsmall : b.bytes.length < 2 ^ 28) (hfuel : b.bytes.length < fuel) :
    ∀ piece ∈ Search.pieces token.1 b.bytes, 25 * (piece.length + 1) < 2 ^ 32 := by
  obtain ⟨bufs, hsplit, hcopied⟩ := rawSplit_spec hne hclean hals hsmall hfuel
  obtain ⟨bufs', hsplit', hsound, hstrings, _⟩ := h.returns
  obtain rfl := Option.some.inj (Option.some.inj (hsplit.symm.trans hsplit'))
  exact hcopied.exact.mp ⟨hsound, hstrings⟩

/-- On short pieces the law holds. -/
theorem splitLaw_of_short (hne : token.1 ≠ []) (hclean : (0 : UInt8) ∉ b.bytes)
    (hals : ∀ start, (als start).Good) (hsmall : b.bytes.length < 2 ^ 28)
    (hfuel : b.bytes.length < fuel)
    (hshort : ∀ piece ∈ Search.pieces token.1 b.bytes, 25 * (piece.length + 1) < 2 ^ 32) :
    b.SplitLaw token als fuel := by
  obtain ⟨bufs, hsplit, hcopied⟩ := rawSplit_spec hne hclean hals hsmall hfuel
  obtain ⟨hsound, hstrings⟩ := hcopied.exact.mpr hshort
  refine ⟨⟨bufs, hsplit, hsound, hstrings, hcopied.len_eq⟩, ?_, Search.intercalate_cut _ _⟩
  intro piece hpiece
  obtain ⟨hmem, hnonempty⟩ := List.mem_filter.mp hpiece
  exact ⟨of_decide_eq_true hnonempty, Search.not_occursAt_cut hne hmem⟩

end Law

end ByteBuf

/-- **Split.**  For a content without NUL and a token that is not empty, the law of the split holds
of `spe_buf_split` exactly when every piece that is not empty is shorter than 171798691 bytes. -/
theorem split_pieces (b : ByteBuf) (token : CStr) (als : Nat → BufsAlloc) (fuel : Nat)
    (hne : token.1 ≠ []) (hclean : (0 : UInt8) ∉ b.bytes) (hals : ∀ start, (als start).Good)
    (hsmall : b.bytes.length < 2 ^ 28) (hfuel : b.bytes.length < fuel) :
    b.SplitLaw token als fuel ↔
      ∀ piece ∈ Search.pieces token.1 b.bytes, 25 * (piece.length + 1) < 2 ^ 32 :=
  ⟨fun hlaw => hlaw.short hne hclean hals hsmall hfuel,
    ByteBuf.splitLaw_of_short hne hclean hals hsmall hfuel⟩

/-- ",a,,b" between commas. -/
theorem split_pieces_two :
    ∃ bufs, (ByteBuf.holding [44, 97, 44, 44, 98]).rawSplit ⟨[44], by decide⟩
        (fun _ => ⟨true, true, some fun _ => 0⟩) true 6 = some (some bufs) ∧
      bufs.strings = [some [97], some [98]] := by
  have hbytes := ByteBuf.bytes_holding [44, 97, 44, 44, 98]
  have hcomma : (0 : UInt8) ∉ [44] := by decide
  have hne : ([44] : Bytes) ≠ [] := List.cons_ne_nil 44 []
  have hpieces : Search.pieces [44] ([44, 97, 44, 44, 98] : Bytes) = [[97], [98]] := by
    have hfirst : Search.find [44] ([44, 97, 44, 44, 98] : Bytes) = some 0 := rfl
    have hsecond : Search.find [44] ([97, 44, 44, 98] : Bytes) = some 1 := rfl
    have hthird : Search.find [44] ([44, 98] : Bytes) = some 0 := rfl
    have hlast : Search.find [44] ([98] : Bytes) = none := rfl
    unfold Search.pieces
    rw [Search.cut_of_some hne hfirst]
    simp [Search.cut_of_some hne hsecond, Search.cut_of_some hne hthird,
      Search.cut_of_none hlast]
  have hlaw := (split_pieces (.holding [44, 97, 44, 44, 98]) ⟨[44], hcomma⟩
    (fun _ => ⟨true, true, some fun _ => 0⟩) 6 hne (by rw [hbytes]; decide)
    (fun _ => ⟨rfl, rfl, rfl⟩) (by rw [hbytes]; decide) (by rw [hbytes]; decide)).mpr (by
      intro piece hpiece
      rw [hbytes, hpieces] at hpiece
      rcases List.mem_cons.mp hpiece with rfl | hpiece
      · decide
      · rw [List.mem_singleton.mp hpiece]
        decide)
  obtain ⟨bufs, hsplit, _, hstrings, _⟩ := hlaw.returns
  refine ⟨bufs, hsplit, ?_⟩
  rw [hstrings, hbytes]
  change (Search.pieces [44] [44, 97, 44, 44, 98]).map some = _
  rw [hpieces]
  rfl

/-- A buffer of 268435454 bytes that holds 200000000: the largest block that `buf_expand` gives,
made for the first part, takes the second one, too. -/
def longContent (first second : Bytes) : ByteBuf :=
  ((ByteBuf.create.append first (some fun _ => 0)).1.append second (some fun _ => 0)).1

/-- The buffer is one of the machine, and no computation has wrapped. -/
theorem longContent_run {first second : Bytes} (hfirst : first.length = 171798690)
    (hsecond : second.length = 28201310) :
    Run (bufStep .u32) NoWrap bufCreate
      [.append first (some fun _ => 0), .append second (some fun _ => 0)]
      (longContent first second).buf := by
  obtain ⟨fresh, hfresh⟩ : ∃ fresh : Nat → UInt8, fresh = fun _ => 0 := ⟨_, rfl⟩
  unfold longContent
  rw [← hfresh]
  have hfits : ByteBuf.create.Fits first.length := by
    refine ByteBuf.fits_of_lt ?_
    show 25 * (0 + first.length + 1) < 2 ^ 32
    omega
  have hroom : Arith.exact.sub bufCreate.size bufCreate.len < Arith.exact.wrap (first.length + 1) :=
    Nat.succ_pos _
  obtain ⟨c, hc⟩ : ∃ c, c = (ByteBuf.create.append first (some fresh)).1 := ⟨_, rfl⟩
  have hsize : c.buf.size = 268435454 := by
    obtain ⟨_, _, _, _, _, hsome, _⟩ := bufExpand_spec (A := .exact) (b := bufCreate)
      (n := 0 + first.length + 1) (some fresh) bufCreate_spec.1 trivial (Nat.zero_le _)
      (Nat.succ_pos _)
    rw [hc]
    refine (bufAppend_size .exact bufCreate first (some fresh)).trans ?_
    rw [if_pos hroom]
    refine (hsome rfl).2.trans ?_
    omega
  have hlen : c.buf.len = 171798690 := by
    rw [c.len_eq, hc, ByteBuf.bytes_append_ok _ _ rfl, ByteBuf.bytes_create, List.nil_append, hfirst]
  have hmore : c.Fits second.length := by
    refine ByteBuf.fits_of_room ?_ ?_
    · rw [hsize]
      decide
    · rw [hsize, hlen]
      omega
  rw [← hc]
  refine Run.cons (m := c.buf) ?_ hfits.2 (Run.single ?_ hmore.2)
  · rw [hc]
    exact congrArg (fun r : Buf × Bool => some r.1) (ByteBuf.append_machine (some fresh) hfits)
  · exact congrArg (fun r : Buf × Bool => some r.1) (ByteBuf.append_machine (some fresh) hmore)

/-- A content of 200000000 bytes without the token is one piece, whose copy overruns its block of
44064545 bytes. -/
theorem split_pieces_fails :
    (Run (bufStep .u32) NoWrap bufCreate
      [.append (List.replicate 171798690 97) (some fun _ => 0),
        .append (List.replicate 28201310 97) (some fun _ => 0)]
      (longContent (List.replicate 171798690 97) (List.replicate 28201310 97)).buf) ∧
    ¬ ∀ (b : ByteBuf) (token : CStr) (als : Nat → BufsAlloc) (fuel : Nat), token.1 ≠ [] →
      (0 : UInt8) ∉ b.bytes → (∀ start, (als start).Good) → b.bytes.length < 2 ^ 28 →
      b.bytes.length < fuel → b.SplitLaw token als fuel := by
  obtain ⟨first, hfirst⟩ : ∃ first : Bytes, first = List.replicate 171798690 97 := ⟨_, rfl⟩
  obtain ⟨second, hsecond⟩ : ∃ second : Bytes, second = List.replicate 28201310 97 := ⟨_, rfl⟩
  rw [← hfirst, ← hsecond]
  have hflen : first.length = 171798690 := by rw [hfirst, List.length_replicate]
  have hslen : second.length = 28201310 := by rw [hsecond, List.length_replicate]
  refine ⟨longContent_run hflen hslen, fun hall => ?_⟩
  have hbytes : (longContent first second).bytes = first ++ second := by
    unfold longContent
    rw [ByteBuf.bytes_append_ok _ _ rfl, ByteBuf.bytes_append_ok _ _ rfl, ByteBuf.bytes_create,
      List.nil_append]
  have hall97 : ∀ c ∈ first ++ second, c = 97 := by
    intro c hc
    rcases List.mem_append.mp hc with hc | hc
    · rw [hfirst] at hc
      exact List.eq_of_mem_replicate hc
    · rw [hsecond] at hc
      exact List.eq_of_mem_replicate hc
  have hlen : (first ++ second).length = 200000000 := by
    rw [List.length_append, hflen, hslen]
  have hclean : (0 : UInt8) ∉ (longContent first second).bytes := by
    rw [hbytes]
    intro hmem
    cases hall97 0 hmem
  have hone : Search.find ([61] : Bytes) (first ++ second) = none :=
    Search.find_singleton_none.mpr fun hmem => nomatch hall97 61 hmem
  have hgood :
      ∀ start : Nat, ((fun _ => ⟨true, true, some fun _ => 0⟩ : Nat → BufsAlloc) start).Good :=
    fun _ => ⟨rfl, rfl, rfl⟩
  have hequals : (0 : UInt8) ∉ [61] := by decide
  have hsmall : (longContent first second).bytes.length < 2 ^ 28 := by
    rw [hbytes, hlen]
    decide
  have hlaw := hall (longContent first second) ⟨[61], hequals⟩
    (fun _ => ⟨true, true, some fun _ => 0⟩) ((longContent first second).bytes.length + 1)
    (List.cons_ne_nil _ _) hclean hgood hsmall (Nat.lt_succ_self _)
  have hshort := hlaw.short (List.cons_ne_nil _ _) hclean hgood hsmall (Nat.lt_succ_self _)
  have hpiece :
      first ++ second ∈ Search.pieces ([61] : Bytes) (longContent first second).bytes := by
    rw [hbytes]
    unfold Search.pieces
    rw [Search.cut_of_none hone, List.mem_filter]
    refine ⟨List.mem_singleton_self _, ?_⟩
    rw [decide_eq_true_eq]
    intro hnil
    rw [hnil] at hlen
    cases hlen
  have hless := hshort _ hpiece
  rw [hlen] at hless
  omega

end Spe
