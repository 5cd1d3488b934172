import Mathlib.Algebra.Ring.Int.Defs
import Spe.BufferCapacity
import Spe.BufferText
import Spe.Rounds

/-!
# The loop of `spe_buf_split` ends

`start` is an `int`, compared with the `unsigned` length, and set from a 64-bit difference of
pointers.  All of it is exact: no buffer has 2^28 bytes or more, because `buf_expand` divides
a 32-bit product by 16 (`small_run`).

A token that is found moves `start` behind it, and no further than the length, as the search
stops at the NUL behind the content.  The empty token is found where the search begins, and
`start` stays where it is: then the loop does not end unless the content is empty
(`ByteBuf.split_ends`).
-/

namespace Spe

open Transition

/-- No buffer has as many bytes. -/
def Buf.Small (b : Buf) : Prop := b.size < 2 ^ 28

section Sizes

variable {b : Buf}

/-- An expansion keeps a buffer small. -/
theorem Buf.Small.expand (h : b.Small) (len : Nat) (al : Alloc) :
    (bufExpand .u32 b len al).1.Small := by
  have hcompact : (if b.off ≠ 0 then b.compact else b).Small := by
    split
    · exact h
    · exact h
  unfold bufExpand
  dsimp only
  split
  · exact hcompact
  · show 25 * len % 2 ^ 32 / 16 < 2 ^ 28
    omega

/-- So does an expansion that is made when it is needed. -/
theorem Buf.Small.grow (h : b.Small) {full : Prop} [Decidable full] {len : Nat} {al : Alloc}
    {g : Buf × Bool} (hg : g = if full then bufExpand .u32 b len al else (b, true)) :
    g.1.Small := by
  rw [hg]
  split
  · exact h.expand len al
  · exact h

/-- An append keeps a buffer small. -/
theorem Buf.Small.append (h : b.Small) (src : Bytes) (al : Alloc) :
    (bufAppend .u32 b src al).1.Small := by
  obtain ⟨g, hg⟩ : ∃ g, g = if Arith.u32.sub b.size b.len < Arith.u32.wrap (src.length + 1)
      then bufExpand .u32 b (Arith.u32.wrap (b.size + src.length + 1)) al
      else (b, true) := ⟨_, rfl⟩
  have hgrown := h.grow hg
  unfold bufAppend
  simp only [← hg]
  split
  · exact hgrown
  · -- neither the move to the left nor the copy changes the size
    have hmoved : (if (Arith.u32.sub g.1.size g.1.len : Int) - g.1.off <
        Arith.u32.wrap (src.length + 1) then g.1.compact else g.1).Small := by
      split
      · exact hgrown
      · exact hgrown
    exact hmoved

/-- An appending read keeps a buffer small. -/
theorem Buf.Small.readFdAppend (h : b.Small) (len : Nat) (al : Alloc) (r : ReadRes) :
    (bufReadFdAppend .u32 b len al r).1.Small := by
  obtain ⟨g, hg⟩ : ∃ g, g = if Arith.u32.sub b.size b.len < Arith.u32.wrap (len + 1) then
      bufExpand .u32 b (Arith.u32.wrap (b.size + len + 1)) al else (b, true) := ⟨_, rfl⟩
  have hgrown := h.grow hg
  unfold bufReadFdAppend
  simp only [← hg]
  split
  · exact hgrown
  · have hmoved : (if g.1.off ≠ 0 then g.1.compact else g.1).Small := by
      split
      · exact hgrown
      · exact hgrown
    split
    · exact hmoved
    · exact hmoved

/-- **Step lemma.**  A call keeps a buffer small. -/
theorem Buf.Small.step (h : b.Small) {op : BufOp} {b' : Buf} (hstep : bufStep .u32 b op = some b') :
    b'.Small := by
  cases op with
  | append src al =>
      obtain rfl := Option.some.inj hstep
      exact h.append src al
  | copy src al =>
      obtain rfl := Option.some.inj hstep
      obtain ⟨g, hg⟩ : ∃ g, g = if b.size < Arith.u32.wrap (src.length + 1) then
          bufExpand .u32 b (Arith.u32.wrap (src.length + 1)) al else (b, true) := ⟨_, rfl⟩
      have hgrown := h.grow hg
      unfold bufCopy
      simp only [← hg]
      split
      · exact hgrown
      · exact hgrown
  | lconsume len =>
      obtain rfl := Option.some.inj hstep
      exact h
  | rconsume len =>
      obtain rfl := Option.some.inj hstep
      exact h
  | clean =>
      obtain rfl := Option.some.inj hstep
      unfold bufClean
      dsimp only
      split
      · exact h
      · exact h
  | readFdAppend len al r =>
      obtain rfl := Option.some.inj hstep
      exact h.readFdAppend len al r
  | readFdCopy len al r =>
      obtain rfl := Option.some.inj hstep
      obtain ⟨g, hg⟩ : ∃ g, g = if b.size < Arith.u32.wrap (len + 1) then
          bufExpand .u32 b (Arith.u32.wrap (len + 1)) al else (b, true) := ⟨_, rfl⟩
      have hgrown := h.grow hg
      unfold bufReadFdCopy
      simp only [← hg]
      split
      · exact hgrown
      · split
        · exact hgrown
        · exact hgrown

/-- Every buffer is small. -/
theorem small_run {ok : Buf → BufOp → Prop} {ops : List BufOp}
    (h : Run (bufStep .u32) ok bufCreate ops b) : b.Small :=
  h.invariant Buf.Small (by show 0 < 2 ^ 28; decide) (fun _ _ _ hinv _ hstep => hinv.step hstep)

end Sizes

namespace ByteBuf

/-- A round of the loop of `spe_buf_split`: the next `start`, unless the loop is left. -/
def splitNext (b : ByteBuf) (token : CStr) (start : Int) : Option Int :=
  if (start % 2 ^ 32).toNat < b.buf.len then
    match Search.find token.1 (cstr (b.buf.mem.drop (b.buf.off + start).toNat)) with
    | none => none
    | some point => some (Int.bmod (start + point + token.1.length) (2 ^ 32))
  else none

/-- The loop ends, `start` goes up in every round, and it does not exceed the length. -/
structure SplitEnds (b : ByteBuf) (token : CStr) : Prop where
  ends : Rounds.Ends (b.splitNext token) 0
  ascends : ∀ k s s', Rounds.after (b.splitNext token) 0 k = some s →
    Rounds.after (b.splitNext token) 0 (k + 1) = some s' → s < s'
  bounded : ∀ k s, Rounds.after (b.splitNext token) 0 k = some s → 0 ≤ s ∧ s ≤ b.buf.len

variable {b : ByteBuf} {token : CStr}

/-- A token that is found ends within the content. -/
theorem find_le {start point : Nat} (hstart : start < b.buf.len)
    (hfind : Search.find token.1 (b.cstrAt start) = some point) :
    start + point + token.1.length ≤ b.buf.len := by
  obtain ⟨more, hmore⟩ := window_terminated b.wf (Nat.zero_lt_of_lt hstart)
  have hlen := content_length b.wf
  have hseen : b.cstrAt start = cstr (b.buf.content.drop start) := by
    unfold cstrAt
    rw [← List.drop_drop, hmore, List.drop_append_of_le_length (by omega), cstr_terminated]
  have hshort : (b.cstrAt start).length ≤ b.buf.len - start := by
    rw [hseen, ← hlen, ← List.length_drop]
    exact (List.takeWhile_prefix _).length_le
  have hbound := Search.find_bound hfind
  omega

/-- A round from a place in the content. -/
theorem splitNext_eq (hsize : b.buf.Small) {start : Nat} (hstart : start ≤ b.buf.len) :
    b.splitNext token start =
      if start < b.buf.len then
        (Search.find token.1 (b.cstrAt start)).map
          (fun point => ((start + point + token.1.length : Nat) : Int))
      else none := by
  have hlen : b.buf.len < 2 ^ 28 := Nat.lt_of_le_of_lt (Buf.Wf.len_le b.buf b.wf) hsize
  have hunsigned : ((start : Int) % 2 ^ 32).toNat = start := by omega
  have hplace : ((b.buf.off : Int) + start).toNat = b.buf.off + start := by omega
  unfold splitNext
  rw [hunsigned, hplace]
  by_cases hmore : start < b.buf.len
  · rw [if_pos hmore, if_pos hmore]
    change (match Search.find token.1 (b.cstrAt start) with
      | none => none
      | some point => _) = _
    cases hfind : Search.find token.1 (b.cstrAt start) with
    | none => rfl
    | some point =>
        have hle := find_le hmore hfind
        have hexact : Int.bmod (start + point + token.1.length) (2 ^ 32) =
            ((start + point + token.1.length : Nat) : Int) :=
          Int.bmod_eq_of_le (by omega) (by omega)
        exact congrArg some hexact
  · rw [if_neg hmore, if_neg hmore]

/-- **Step lemma.**  A round goes on behind the token, within the content. -/
theorem splitNext_some (hsize : b.buf.Small) {start : Nat} (hstart : start ≤ b.buf.len) {s : Int}
    (h : b.splitNext token start = some s) :
    ∃ behind : Nat, s = behind ∧ start + token.1.length ≤ behind ∧ behind ≤ b.buf.len ∧
      start < b.buf.len := by
  rw [splitNext_eq hsize hstart] at h
  obtain ⟨hmore, hround⟩ := Option.ite_none_right_eq_some.mp h
  obtain ⟨point, hfind, hbehind⟩ := Option.map_eq_some_iff.mp hround
  have hle := find_le hmore hfind
  exact ⟨start + point + token.1.length, hbehind.symm, by omega, hle, hmore⟩

/-- `start` is a place in the content. -/
def Within (b : ByteBuf) (s : Int) : Prop := ∃ start : Nat, s = start ∧ start ≤ b.buf.len

/-- A round stays within the content. -/
theorem Within.next (hsize : b.buf.Small) {s s' : Int} (h : b.Within s)
    (hnext : b.splitNext token s = some s') : b.Within s' := by
  obtain ⟨start, rfl, hstart⟩ := h
  obtain ⟨behind, rfl, _, hle, _⟩ := splitNext_some hsize hstart hnext
  exact ⟨behind, rfl, hle⟩

/-- So do all rounds. -/
theorem within_after (hsize : b.buf.Small) {k : Nat} {s : Int}
    (h : Rounds.after (b.splitNext token) 0 k = some s) : b.Within s :=
  Rounds.after_invariant b.Within ⟨0, rfl, Nat.zero_le _⟩
    (fun _ _ hwithin hnext => hwithin.next hsize hnext) h

/-- A token that is not empty moves `start`. -/
theorem splitNext_lt (hsize : b.buf.Small) (hne : token.1 ≠ []) {s s' : Int} (h : b.Within s)
    (hnext : b.splitNext token s = some s') : s < s' := by
  obtain ⟨start, rfl, hstart⟩ := h
  obtain ⟨behind, rfl, hbehind, _, _⟩ := splitNext_some hsize hstart hnext
  have hpos := List.length_pos_iff.mpr hne
  omega

/-- The loop ends for a token that is not empty. -/
theorem ends_of_token (hsize : b.buf.Small) (hne : token.1 ≠ []) :
    Rounds.Ends (b.splitNext token) 0 := by
  refine Rounds.ends_of_measure b.Within (fun s => b.buf.len - s.toNat) ⟨0, rfl, Nat.zero_le _⟩ ?_
  intro s s' hwithin hnext
  have hnext' := hwithin.next hsize hnext
  have hlt := splitNext_lt hsize hne hwithin hnext
  obtain ⟨start, rfl, _⟩ := hwithin
  obtain ⟨behind, rfl, hle⟩ := hnext'
  refine ⟨⟨behind, rfl, hle⟩, ?_⟩
  simp only [Int.toNat_natCast]
  omega

/-- The empty token is found at the first byte, again and again. -/
theorem not_ends_of_empty (hsize : b.buf.Small) (hlen : 0 < b.buf.len) (hnil : token.1 = []) :
    ¬ Rounds.Ends (b.splitNext token) 0 := by
  refine Rounds.not_ends_of_stays (fun s => s = 0) rfl ?_
  rintro s rfl
  refine ⟨0, ?_, rfl⟩
  have hround := @splitNext_eq b token hsize 0 (Nat.zero_le _)
  rw [if_pos hlen, hnil, Search.find_empty] at hround
  exact hround

/-- The loop over an empty content is not entered. -/
theorem splitNext_empty (hsize : b.buf.Small) (hlen : b.buf.len = 0) :
    b.splitNext token 0 = none := by
  have hround := @splitNext_eq b token hsize 0 (Nat.zero_le _)
  rw [if_neg (by omega)] at hround
  exact hround

/-- The model of `spe_buf_split` goes through these rounds. -/
theorem splitLoop_isSome_iff (hsize : b.buf.Small) (als : Nat → BufsAlloc) (fuel : Nat)
    {start : Nat} (hstart : start ≤ b.buf.len) (bufs : Bufs) :
    (b.splitLoop token als fuel start bufs).isSome ↔
      Rounds.after (b.splitNext token) start fuel = none := by
  induction fuel generalizing start bufs with
  | zero => simp [splitLoop, Rounds.after]
  | succ fuel ih =>
      rw [splitLoop, Rounds.after, splitNext_eq hsize hstart]
      by_cases hmore : start < b.buf.len
      · rw [if_pos hmore, if_pos hmore]
        cases hfind : Search.find token.1 (b.cstrAt start) with
        | none => simp
        | some point => exact ih (find_le hmore hfind) _
      · rw [if_neg hmore, if_neg hmore]
        simp

/-- `spe_buf_split` returns exactly when its loop ends. -/
theorem split_returns_iff (hsize : b.buf.Small) (als : Nat → BufsAlloc) :
    (∃ fuel, (b.split token true als fuel).isSome) ↔ Rounds.Ends (b.splitNext token) 0 := by
  unfold Rounds.Ends
  refine exists_congr fun fuel => ?_
  rw [← Int.natCast_zero, ← splitLoop_isSome_iff hsize als fuel (Nat.zero_le _) Bufs.create]
  unfold split
  simp

/-- **The loop of `spe_buf_split`.**  No call makes a buffer of 2^28 bytes or more; and below
that, the loop ends, with `start` going up in every round and never exceeding the length,
exactly when the content is empty or the token is not. -/
theorem split_ends (token : CStr) :
    (∀ ops b, Run (bufStep .u32) anyStep bufCreate ops b → b.Small) ∧
    ∀ b : ByteBuf, b.buf.Small → (b.SplitEnds token ↔ b.buf.len = 0 ∨ token.1 ≠ []) := by
  refine ⟨fun _ _ hrun => small_run hrun, ?_⟩
  intro b hsize
  constructor
  · intro h
    by_cases hlen : b.buf.len = 0
    · exact Or.inl hlen
    · exact Or.inr fun hnil => not_ends_of_empty hsize (Nat.pos_of_ne_zero hlen) hnil h.ends
  · intro hcond
    refine ⟨?_, ?_, ?_⟩
    · rcases hcond with hlen | hne
      · exact ⟨1, by rw [Rounds.after, splitNext_empty hsize hlen]; rfl⟩
      · exact ends_of_token hsize hne
    · intro k s s' hs hs'
      rw [Rounds.after_succ, hs] at hs'
      have hwithin := within_after hsize hs
      rcases hcond with hlen | hne
      · obtain ⟨start, rfl, hstart⟩ := hwithin
        obtain ⟨_, _, _, _, hmore⟩ := splitNext_some hsize hstart hs'
        omega
      · exact splitNext_lt hsize hne hwithin hs'
    · intro k s hs
      obtain ⟨start, rfl, hstart⟩ := within_after hsize hs
      omega

/-- "a,b" after an append to a new buffer, between commas. -/
theorem split_ends_comma :
    ∃ b : ByteBuf, b.buf = (bufAppend .u32 bufCreate [97, 44, 98] (some fun _ => 7)).1 ∧
      b.SplitEnds ⟨[44], by decide⟩ := by
  obtain ⟨buf, hbuf⟩ :
      ∃ buf, buf = (bufAppend .u32 bufCreate [97, 44, 98] (some fun _ => 7)).1 := ⟨_, rfl⟩
  have hrun : Run (bufStep .u32) NoWrap bufCreate [.append [97, 44, 98] (some fun _ => 7)] buf :=
    Run.single (by rw [hbuf]; rfl) (by simp [NoWrap, AppendFits, Arith.Holds, bufCreate])
  have hsafe : BufSafe buf :=
    hrun.invariant _ bufSafe_create (fun _ _ _ h hok hstep => bufSafe_step h hok hstep)
  have hcomma : (0 : UInt8) ∉ [44] := by decide
  obtain ⟨hsmall, hexact⟩ := split_ends ⟨[44], hcomma⟩
  have hsize : buf.Small := hsmall _ _ (hrun.mono fun _ _ _ => trivial)
  exact ⟨⟨buf, hsafe.wf⟩, hbuf, (hexact ⟨buf, hsafe.wf⟩ hsize).mpr (Or.inr (List.cons_ne_nil _ _))⟩

/-- "a" is never split at the empty token. -/
theorem split_ends_fails :
    ¬ ∀ (b : ByteBuf) (token : CStr), b.buf.Small → b.SplitEnds token := by
  intro hall
  have hsize : (holding [97]).buf.Small := by
    show (holding [97]).buf.size < 2 ^ 28
    decide
  have hends := (hall (holding [97]) ⟨[], List.not_mem_nil⟩ hsize).ends
  exact not_ends_of_empty hsize (by decide) rfl hends

end ByteBuf

end Spe
