import Spe.HandOver
import Spe.SplitLaw

/-!
# What a split returns for any content (`spe_buf_split`)

`strstr` looks no further than the first NUL, so behind it nothing is split: the last piece is all
that is left (`seenSplit`).  And an append may fail, so that its piece is left out, or its copy, so
that it leaves a buffer without a block.

`split_seen` says which pieces the list has for every content and every answer of the allocator;
the token is a single byte.
-/

namespace Spe

/-- What stands between the `c`s that a C string function finds one after the other: from the
first NUL on all is one piece. -/
def seenSplit (c : UInt8) : Bytes → List Bytes
  | [] => [[]]
  | x :: rest =>
      if x = 0 then [x :: rest]
      else if x = c then [] :: seenSplit c rest
      else (seenSplit c rest).modifyHead (x :: ·)

example : seenSplit 61 [107, 61, 118, 0, 61] = [[107], [118, 0, 61]] := rfl

/-- The pieces that are not empty. -/
def nonEmpty (pieces : List Bytes) : List Bytes := pieces.filter fun piece => piece ≠ []

/-- The pieces that a split is about. -/
def seenPieces (c : UInt8) (content : Bytes) : List Bytes := nonEmpty (seenSplit c content)

section Seen

variable {c : UInt8} {left right content : Bytes}

/-- There is at least one piece. -/
theorem seenSplit_cons (c : UInt8) (content : Bytes) :
    ∃ first later, seenSplit c content = first :: later := by
  induction content with
  | nil => exact ⟨[], [], rfl⟩
  | cons x rest ih =>
      obtain ⟨first, later, hrest⟩ := ih
      unfold seenSplit
      rw [hrest]
      split
      · exact ⟨_, _, rfl⟩
      · split <;> exact ⟨_, _, rfl⟩

/-- What no `c` and no NUL stands in belongs to the first piece. -/
theorem seenSplit_front (hc : c ∉ left) (hnul : (0 : UInt8) ∉ left) :
    seenSplit c (left ++ content) = (seenSplit c content).modifyHead (left ++ ·) := by
  induction left with
  | nil =>
      obtain ⟨first, later, hsplit⟩ := seenSplit_cons c content
      rw [List.nil_append, hsplit]
      rfl
  | cons x left ih =>
      rw [List.mem_cons, not_or] at hc hnul
      obtain ⟨first, later, hsplit⟩ := seenSplit_cons c content
      rw [List.cons_append, seenSplit, if_neg (Ne.symm hnul.1), if_neg (Ne.symm hc.1),
        ih hc.2 hnul.2, hsplit]
      rfl

/-- What stands on the two sides of a `c` that is found. -/
theorem seenSplit_append (right : Bytes) (hc : c ≠ 0) (hnul : (0 : UInt8) ∉ left) :
    seenSplit c (left ++ c :: right) = seenSplit c left ++ seenSplit c right := by
  induction left with
  | nil =>
      have hhead : seenSplit c (c :: right) = [] :: seenSplit c right := by
        rw [seenSplit, if_neg hc, if_pos rfl]
      exact hhead
  | cons x left ih =>
      rw [List.mem_cons, not_or] at hnul
      obtain ⟨first, later, hsplit⟩ := seenSplit_cons c left
      rw [List.cons_append, seenSplit, seenSplit, if_neg (Ne.symm hnul.1), if_neg (Ne.symm hnul.1),
        ih hnul.2, hsplit]
      split <;> rfl

/-- The first piece is empty when there is nothing, or a `c` at the front. -/
theorem seenSplit_empty {later : List Bytes} (h : seenSplit c content = [] :: later) :
    content = [] ∨ content.head? = some c := by
  cases content with
  | nil => exact Or.inl rfl
  | cons x rest =>
      obtain ⟨first, more, hsplit⟩ := seenSplit_cons c rest
      unfold seenSplit at h
      split at h
      · cases h
      · split at h
        · rename_i hx
          exact Or.inr (congrArg some hx)
        · rw [hsplit] at h
          cases h

/-- Where no `c` is found all is one piece. -/
theorem seenSplit_whole (h : c ∉ cstr content) : seenSplit c content = [content] := by
  induction content with
  | nil => rfl
  | cons x rest ih =>
      unfold seenSplit
      by_cases hx : x = 0
      · rw [if_pos hx]
      · have hseen : cstr (x :: rest) = x :: cstr rest := by simp [cstr, hx]
        rw [hseen, List.mem_cons, not_or] at h
        rw [if_neg hx, if_neg (Ne.symm h.1), ih h.2]
        rfl

/-- A `c` that is found first ends the first piece. -/
theorem seenSplit_find {point : Nat} (hc : c ≠ 0)
    (h : Search.find [c] (cstr content) = some point) :
    seenSplit c content = content.take point :: seenSplit c (content.drop (point + 1)) := by
  have hmem : c ∈ cstr content := by
    by_contra hnone
    cases h.symm.trans (Search.find_singleton_none.mpr hnone)
  obtain ⟨before, behind, hparts, hbefore⟩ := List.eq_append_cons_of_mem hmem
  have hfirst : Search.find [c] (cstr content) = some before.length := by
    rw [hparts]
    exact Search.find_singleton hbefore
  obtain rfl : before.length = point := Option.some.inj (hfirst.symm.trans h)
  have hcontent : content = before ++ c :: (behind ++ content.dropWhile (· ≠ 0)) := by
    have hall : cstr content ++ content.dropWhile (· ≠ 0) = content :=
      List.takeWhile_append_dropWhile
    rw [hparts, List.append_assoc] at hall
    exact hall.symm
  have hnul : (0 : UInt8) ∉ before := by
    intro hzero
    exact nul_not_mem_cstr content (hparts ▸ List.mem_append_left _ hzero)
  have hone : seenSplit c before = [before] :=
    seenSplit_whole fun hin => hbefore ((List.takeWhile_prefix _).subset hin)
  rw [hcontent, seenSplit_append _ hc hnul, hone, List.take_left, List.drop_length_add_append]
  rfl

/-- Without NUL all `c`s are found. -/
theorem seenSplit_clean (hnul : (0 : UInt8) ∉ content) :
    seenSplit c content = content.splitOn c := by
  induction content with
  | nil => rfl
  | cons x rest ih =>
      rw [List.mem_cons, not_or] at hnul
      unfold seenSplit
      rw [if_neg (Ne.symm hnul.1), ih hnul.2, List.splitOn_cons_eq_if_modifyHead]
      by_cases hx : x = c
      · simp [hx]
      · simp [hx]

/-- A piece is not longer than the content. -/
theorem length_of_seenSplit {piece : Bytes} (h : piece ∈ seenSplit c content) :
    piece.length ≤ content.length := by
  induction content generalizing piece with
  | nil => rw [List.mem_singleton.mp h]
  | cons y rest ih =>
      obtain ⟨first, later, hsplit⟩ := seenSplit_cons c rest
      unfold seenSplit at h
      split at h
      · rw [List.mem_singleton.mp h]
      · split at h
        · rcases List.mem_cons.mp h with rfl | h
          · exact Nat.zero_le _
          · exact Nat.le_succ_of_le (ih h)
        · rw [hsplit, List.modifyHead_cons] at h
          rcases List.mem_cons.mp h with rfl | h
          · exact Nat.succ_le_succ (ih (hsplit ▸ List.mem_cons_self))
          · exact Nat.le_succ_of_le (ih (hsplit ▸ List.mem_cons_of_mem _ h))

end Seen

/-- What a C string function sees from a place in a buffer. -/
theorem ByteBuf.cstrAt_drop {b : ByteBuf} {start : Nat} (hstart : start < b.bytes.length) :
    b.cstrAt start = cstr (b.bytes.drop start) := by
  have hlen : 0 < b.buf.len := by rw [b.len_eq]; omega
  obtain ⟨more, hmore⟩ := window_terminated b.wf hlen
  have hle : start ≤ b.buf.content.length := Nat.le_of_lt hstart
  unfold ByteBuf.cstrAt
  rw [← List.drop_drop, hmore, List.drop_append_of_le_length hle, cstr_terminated]
  rfl

/-- An append finds a buffer that it copies into: the array has an entry for it or can grow, and
in the entry stands a buffer or one can be made. -/
def Bufs.Offers (bufs : Bufs) (al : BufsAlloc) : Prop :=
  (bufs.len = bufs.data.length → al.grow = true) ∧
    ((bufs.data.getD bufs.len none).isNone = true → al.create = true)

instance (bufs : Bufs) (al : BufsAlloc) : Decidable (bufs.Offers al) :=
  inferInstanceAs (Decidable ((_ → _) ∧ (_ → _)))

/-- The strings are copies of the pieces into new buffers, with what the allocator answers
somewhere; behind them there are no buffers. -/
structure Bufs.Lists (bufs : Bufs) (als : Nat → BufsAlloc) (ps : List Bytes) : Prop where
  room : bufs.len ≤ bufs.data.length
  rest : ∀ i ≥ bufs.len, bufs.data.getD i none = none
  entries : List.Forall₂ (fun e p => ∃ start, e = some (ByteBuf.create.copy p (als start).copy).1)
    (bufs.data.take bufs.len) ps

namespace Bufs

variable {bufs : Bufs} {als : Nat → BufsAlloc} {ps : List Bytes}

/-- A new list. -/
theorem lists_create (als : Nat → BufsAlloc) : create.Lists als [] :=
  ⟨Nat.le_refl 0, fun _ _ => rfl, .nil⟩

/-- The number of strings. -/
theorem Lists.len_eq (h : bufs.Lists als ps) : bufs.len = ps.length := by
  rw [← h.entries.length_eq, List.length_take_of_le h.room]

/-- **`spe_bufs_append`** copies the string into a new buffer behind the others, if it finds one. -/
theorem Lists.append (h : bufs.Lists als ps) (start : Nat) (p : Bytes) :
    ((bufs.append p (als start)).1.Lists als (ps ++ [p]) ∧ bufs.Offers (als start)) ∨
      ((bufs.append p (als start)).1.Lists als ps ∧ ¬ bufs.Offers (als start)) := by
  obtain ⟨al, hal⟩ : ∃ al, al = als start := ⟨_, rfl⟩
  have hnone := h.rest bufs.len (Nat.le_refl _)
  rw [← hal]
  by_cases hstuck : bufs.len = bufs.data.length ∧ ¬ al.grow = true
  · unfold Bufs.append
    dsimp only
    rw [if_pos hstuck]
    exact Or.inr ⟨h, fun hoffers => hstuck.2 (hoffers.1 hstuck.1)⟩
  have hgrow : bufs.len = bufs.data.length → al.grow = true :=
    fun hfull => not_not.mp fun hno => hstuck ⟨hfull, hno⟩
  have hroom := bufs.lt_grown h.room
  have htake := bufs.grown_take h.room
  have hrest : ∀ i ≥ bufs.len, bufs.grown.getD i none = none :=
    fun i hi => (bufs.grown_getD i).trans (h.rest i hi)
  rw [bufs.append_grown p hgrow]
  unfold Bufs.Offers
  rw [hnone]
  dsimp only
  by_cases hcreate : al.create = true
  · rw [if_neg (not_not.mpr hcreate)]
    refine Or.inl ⟨⟨?_, ?_, ?_⟩, hgrow, fun _ => hcreate⟩
    · rw [List.length_set]
      exact hroom
    · intro i hi
      have hne : bufs.len ≠ i := Nat.ne_of_lt hi
      rw [List.getD_eq_getElem?_getD, List.getElem?_set_ne hne, ← List.getD_eq_getElem?_getD]
      exact hrest i (Nat.le_of_lt hi)
    · dsimp only
      rw [take_set_last hroom, htake]
      exact List.rel_append h.entries (.cons ⟨start, by rw [hal]⟩ .nil)
  · rw [if_pos hcreate]
    refine Or.inr ⟨⟨Nat.le_of_lt hroom, hrest, htake ▸ h.entries⟩, ?_⟩
    exact fun hoffers => hcreate (hoffers.2 rfl)

/-- A piece is listed if it is not empty and its append finds a buffer. -/
theorem Lists.appendPiece (h : bufs.Lists als ps) (start : Nat) (p : Bytes) :
    ∃ qs, (bufs.appendPiece p (als start)).Lists als (ps ++ qs) ∧
      qs.Sublist (nonEmpty [p]) ∧
      ((p ≠ [] → bufs.Offers (als start)) ↔ qs = nonEmpty [p]) := by
  unfold Bufs.appendPiece
  by_cases hnil : p = []
  · rw [if_pos hnil]
    refine ⟨[], by rwa [List.append_nil], List.nil_sublist _, ?_⟩
    simp [hnil, nonEmpty]
  · have hkept : nonEmpty [p] = [p] := by simp [hnil, nonEmpty]
    rw [if_neg hnil, hkept]
    rcases h.append start p with ⟨hlists, hoffers⟩ | ⟨hlists, hnone⟩
    · exact ⟨[p], hlists, List.Sublist.refl _, fun _ => rfl, fun _ _ => hoffers⟩
    · refine ⟨[], by rwa [List.append_nil], List.nil_sublist _, ?_⟩
      exact ⟨fun hall => absurd (hall hnil) hnone, fun hne => by cases hne⟩

end Bufs

namespace ByteBuf

variable {b : ByteBuf} {token : CStr} {als : Nat → BufsAlloc}

/-- Every append of a piece in the loop of `spe_buf_split` and behind it finds a buffer. -/
def SplitOffers (b : ByteBuf) (token : CStr) (als : Nat → BufsAlloc) : Nat → Nat → Bufs → Prop
  | 0, _, _ => True
  | fuel + 1, start, bufs =>
      if start < b.buf.len then
        match Search.find token.1 (b.cstrAt start) with
        | none => bufs.Offers (als start)
        | some point =>
            (point ≠ 0 → bufs.Offers (als start)) ∧
              SplitOffers b token als fuel (start + point + token.1.length)
                (bufs.appendPiece ((b.bytes.drop start).take point) (als start))
      else True

/-- An allocator that answers. -/
theorem splitOffers_good (hals : ∀ start, (als start).Good) (fuel start : Nat) (bufs : Bufs) :
    b.SplitOffers token als fuel start bufs := by
  have hoffers : ∀ (bufs : Bufs) start, bufs.Offers (als start) :=
    fun _ start => ⟨fun _ => (hals start).grow, fun _ => (hals start).create⟩
  induction fuel generalizing start bufs with
  | zero => trivial
  | succ fuel ih =>
      unfold SplitOffers
      split
      · split
        · exact hoffers _ _
        · exact ⟨fun _ => hoffers _ _, ih _ _⟩
      · trivial

/-- **The loop** lists the pieces of the rest for which it finds a buffer. -/
theorem splitLoop_seen {c : UInt8} {fuel start : Nat} {bufs : Bufs} {ps : List Bytes}
    (hc : c ≠ 0) (htoken : token.1 = [c]) (hstart : start ≤ b.bytes.length)
    (hbufs : bufs.Lists als ps) (hfuel : b.bytes.length - start < fuel) :
    ∃ r qs, b.splitLoop token als fuel start bufs = some r ∧ r.1 ≤ b.bytes.length ∧
      (b.splitTail als r).Lists als (ps ++ qs) ∧
      qs.Sublist (seenPieces c (b.bytes.drop start)) ∧
      (b.SplitOffers token als fuel start bufs ↔ qs = seenPieces c (b.bytes.drop start)) := by
  induction fuel generalizing start bufs ps with
  | zero => exact absurd hfuel (Nat.not_lt_zero _)
  | succ fuel ih =>
      rw [splitLoop, SplitOffers, b.len_eq, htoken]
      by_cases hmore : start < b.bytes.length
      · rw [if_pos hmore, if_pos hmore, cstrAt_drop hmore]
        cases hfind : Search.find [c] (cstr (b.bytes.drop start)) with
        | none =>
            obtain ⟨qs, hlists, hsub, hoffers⟩ := hbufs.appendPiece start (b.bytes.drop start)
            have hne : b.bytes.drop start ≠ [] := by
              intro hnil
              have hlen := List.drop_eq_nil_iff.mp hnil
              omega
            unfold seenPieces
            rw [seenSplit_whole (Search.find_singleton_none.mp hfind)]
            refine ⟨(start, bufs), qs, rfl, hstart, hlists, hsub, ?_⟩
            rw [← hoffers]
            exact ⟨fun h _ => h, fun h => h hne⟩
        | some point =>
            -- the turn lists what stands before the token and goes on behind it
            have hbound := Search.find_bound hfind
            have hseen : (cstr (b.bytes.drop start)).length ≤ (b.bytes.drop start).length :=
              (List.takeWhile_prefix _).length_le
            rw [List.length_drop] at hseen
            rw [List.length_singleton] at hbound
            have hpoint : start + point + 1 ≤ b.bytes.length := by omega
            have happend := appendPiece_take bufs (als start)
              (show start + point ≤ b.bytes.length by omega)
            obtain ⟨p, hp⟩ : ∃ p : Bytes, p = (b.bytes.drop start).take point := ⟨_, rfl⟩
            have hpiece : p ≠ [] ↔ point ≠ 0 := by
              rw [hp, ← List.length_pos_iff, List.length_take, List.length_drop]
              omega
            obtain ⟨qs, hlists, hsub, hoffers⟩ := hbufs.appendPiece start p
            obtain ⟨r, later, hloop, hend, hrest, hsub', hoffers'⟩ :=
              @ih (start + point + 1) _ _ hpoint hlists (by omega)
            have hpieces : seenPieces c (b.bytes.drop start) =
                nonEmpty [p] ++ seenPieces c (b.bytes.drop (start + point + 1)) := by
              unfold seenPieces nonEmpty
              rw [seenSplit_find hc hfind, List.drop_drop, ← Nat.add_assoc, ← List.filter_append,
                List.singleton_append, hp]
            rw [← hp] at happend
            rw [hpieces]
            refine ⟨r, qs ++ later, ?_, hend, ?_, hsub.append hsub', ?_⟩
            · dsimp only
              rw [← hp, happend]
              exact hloop
            · rw [← List.append_assoc]
              exact hrest
            · dsimp only
              rw [← hpiece, hoffers, List.length_singleton, ← hp, hoffers']
              constructor
              · rintro ⟨h, h'⟩
                rw [h, h']
              · intro hall
                have hlen := congrArg List.length hall
                have hle := hsub.length_le
                have hle' := hsub'.length_le
                rw [List.length_append, List.length_append] at hlen
                exact ⟨hsub.eq_of_length (by omega), hsub'.eq_of_length (by omega)⟩
      · rw [if_neg hmore, if_neg hmore]
        have hnil : b.bytes.drop start = [] := List.drop_of_length_le (Nat.le_of_not_lt hmore)
        refine ⟨(start, bufs), [], rfl, hstart, ?_, List.nil_sublist _, ?_⟩
        · unfold splitTail Bufs.appendPiece
          rw [hnil, if_pos rfl, List.append_nil]
          exact hbufs
        · rw [hnil]
          exact ⟨fun _ => rfl, fun _ => trivial⟩

/-- **`spe_buf_split`** lists the pieces for which it finds a buffer. -/
theorem split_seen {c : UInt8} {fuel : Nat} (als : Nat → BufsAlloc) (hc : c ≠ 0)
    (htoken : token.1 = [c]) (hfuel : b.bytes.length < fuel) :
    ∃ bufs qs, b.split token true als fuel = some (some bufs) ∧ bufs.Lists als qs ∧
      qs.Sublist (seenPieces c b.bytes) ∧
      (b.SplitOffers token als fuel 0 Bufs.create ↔ qs = seenPieces c b.bytes) := by
  obtain ⟨r, qs, hloop, hend, hlists, hsub, hoffers⟩ :=
    @splitLoop_seen b token als c fuel 0 Bufs.create [] hc htoken (Nat.zero_le _)
      (Bufs.lists_create als) hfuel
  have hsplit := b.split_eq token als fuel fun r' hr' => by
    obtain rfl := Option.some.inj (hloop.symm.trans hr')
    exact hend
  rw [hloop, Option.map_some] at hsplit
  exact ⟨_, qs, hsplit, hlists, hsub, hoffers⟩

/-- A copy into a new buffer holds the string, or the buffer has no block. -/
theorem copy_create (p : Bytes) (al : Alloc) :
    (create.copy p al).1.bytes = (if al.isSome then p else []) ∧
      (al = none → (create.copy p al).1.null = true) := by
  cases al with
  | some fresh => exact ⟨bytes_copy_ok create p rfl, nofun⟩
  | none =>
      have hnull : (create.copy p none).1.null = true := by
        unfold copy null bufCopy bufExpand
        rfl
      refine ⟨?_, fun _ => hnull⟩
      have hstart : (create.copy p none).1.buf.start = none := Option.isNone_iff_eq_none.mp hnull
      exact content_of_null hstart

/-- A copy that has a block holds the string. -/
theorem copy_whole {p : Bytes} {al : Alloc} (h : ¬ (create.copy p al).1.null = true) :
    (create.copy p al).1.bytes = p := by
  obtain ⟨hbytes, hnone⟩ := copy_create p al
  cases al with
  | none => exact absurd (hnone rfl) h
  | some fresh => exact hbytes

end ByteBuf

namespace Bufs

variable {bufs : Bufs} {als : Nat → BufsAlloc} {ps : List Bytes}

/-- A string of the list. -/
theorem Lists.entry (h : bufs.Lists als ps) {i : Nat} {p : Bytes} (hp : ps[i]? = some p) :
    ∃ start, bufs.data.getD i none = some (ByteBuf.create.copy p (als start).copy).1 := by
  obtain ⟨hi, hget⟩ := List.getElem?_eq_some_iff.mp hp
  have hlt : i < (bufs.data.take bufs.len).length := by
    rw [h.entries.length_eq]
    exact hi
  obtain ⟨start, he⟩ := h.entries.get hlt hi
  rw [List.get_eq_getElem, List.getElem_take, List.get_eq_getElem, hget] at he
  rw [List.length_take] at hlt
  refine ⟨start, ?_⟩
  rw [List.getD_eq_getElem?_getD, List.getElem?_eq_getElem (by omega), he]
  rfl

/-- When the allocator answers the strings are the pieces. -/
theorem Lists.strings (h : bufs.Lists als ps) (hals : ∀ start, (als start).Good) :
    bufs.strings = ps.map some := by
  have hall : List.Forall₂ Eq ((bufs.data.take bufs.len).map fun b => b.map ByteBuf.bytes)
      (ps.map some) := by
    rw [List.forall₂_map_left_iff, List.forall₂_map_right_iff]
    refine h.entries.imp ?_
    rintro e p ⟨start, rfl⟩
    rw [Option.map_some, (ByteBuf.copy_create p _).1, if_pos (hals start).copy]
  rwa [List.forall₂_eq_eq_eq] at hall

/-- Copies of short pieces are short. -/
theorem Lists.short (h : bufs.Lists als ps) (hps : ∀ p ∈ ps, 25 * (p.length + 1) < 2 ^ 32) :
    bufs.Short := by
  intro e he q hq
  obtain rfl := Option.mem_def.mp hq
  obtain ⟨b, hb, hbytes⟩ := List.mem_map.mp he
  obtain ⟨i, hi, rfl⟩ := List.mem_iff_getElem.mp hb
  have hi' : i < ps.length := h.entries.length_eq ▸ hi
  obtain ⟨start, hcopy⟩ := h.entries.get hi hi'
  rw [List.get_eq_getElem] at hcopy
  rw [hcopy, Option.map_some, (ByteBuf.copy_create _ _).1] at hbytes
  have hpiece := hps _ (List.getElem_mem hi')
  obtain rfl := Option.some.inj hbytes
  split
  · exact hpiece
  · exact (by decide : 25 * (0 + 1) < 2 ^ 32)

end Bufs

end Spe
