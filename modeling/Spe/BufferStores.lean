import Spe.BufferRefines
import Spe.BufferText

/-!
# Where the buffer functions store (`spe_buf.c`)

Every function of `spe_buf.c` that changes a buffer stores through `data`, most of them a NUL
at `data[len]`.  Before the first allocation `data` is NULL.  `spe_buf_append`,
`spe_buf_copy` and the two `read_fd` functions then allocate first, `spe_buf_clean` looks at
`_size`, and the loops over the window have no byte to visit.  `spe_buf_lconsume`,
`spe_buf_rconsume` and `spe_buf_rstrim` store without a test.

* `stores_inside` — a run stores inside the blocks only, exactly when it calls these
  functions on buffers that have a block; so does `spe_conn_flush`, exactly when it does not
  consume from a `_write_buffer` that has none.
* `stores_inside_fails` — a new buffer, from which nothing is consumed.
-/

namespace Spe

open Transition

/-- What `spe_buf_to_lower` stores in place of a byte. -/
def lowered (c : UInt8) : Option UInt8 := if 65 ≤ c ∧ c ≤ 90 then some (c + 32) else none

/-- What `spe_buf_to_upper` stores in place of a byte. -/
def raised (c : UInt8) : Option UInt8 := if 97 ≤ c ∧ c ≤ 122 then some (c - 32) else none

/-- `buf->data[i] = c`. -/
def Buf.storeAt (b : Buf) (i : Nat) (c : UInt8) : Buf :=
  (b.poke (b.off + i) [c]).note (.store (b.off + i) b.mem.length)

/-- The loop of `spe_buf_to_lower` and `spe_buf_to_upper` from the byte `i` on, with `n`
bytes to go. -/
def caseLoop (change : UInt8 → Option UInt8) : Nat → Nat → Buf → Buf
  | 0, _, b => b
  | n + 1, i, b =>
      match change (b.mem.getD (b.off + i) 0) with
      | some c => caseLoop change n (i + 1) (b.storeAt i c)
      | none => caseLoop change n (i + 1) b

/-- `spe_buf_to_lower`. -/
def bufToLower (b : Buf) : Buf := caseLoop lowered b.len 0 b

/-- `spe_buf_to_upper`. -/
def bufToUpper (b : Buf) : Buf := caseLoop raised b.len 0 b

/-- The calls on a buffer, those on its text included. -/
inductive TextOp
  | buf (op : BufOp)
  | lstrim (token : CStr)
  | rstrim (token : CStr)
  | strim (token : CStr)
  | toLower
  | toUpper

/-- The buffer after a call, its sizes read as exact integers. -/
def textStep (b : Buf) : TextOp → Option Buf
  | .buf op => bufStep .exact b op
  | .lstrim token => some (bufLstrim b token)
  | .rstrim token => some (bufRstrim b token)
  | .strim token => some (bufStrim b token)
  | .toLower => some (bufToLower b)
  | .toUpper => some (bufToUpper b)

/-- The position `i` of the block is among those that the access may store to. -/
def Access.StoresAt (i : Nat) : Access → Prop
  | .memcpy pos n _ => pos ≤ i ∧ i < pos + n
  | .memmove _ n _ => i < n
  | .read pos n _ => pos ≤ i ∧ i < pos + n
  | .store pos _ => i = pos
  | .expand _ _ => False

/-- The size of the block at the time of the access. -/
def Access.cap : Access → Nat
  | .memcpy _ _ cap => cap
  | .memmove _ _ cap => cap
  | .read _ _ cap => cap
  | .store _ cap => cap
  | .expand _ got => got

/-- `_size` is the size of the block, and every byte stored so far was inside its block. -/
structure StoresInside (b : Buf) : Prop where
  size : b.mem.length = b.size
  stores : ∀ a ∈ b.log, ∀ i, a.StoresAt i → i < a.cap

/-- The functions that store without a test are called on a buffer that has a block. -/
def Held (b : Buf) : TextOp → Prop
  | .buf op => Allocated b op
  | .rstrim _ => b.start.isSome
  | .strim _ => b.start.isSome
  | _ => True

/-- An access in bounds stores inside its block. -/
theorem Access.InBounds.stores {a : Access} (h : a.InBounds) {i : Nat} (hi : a.StoresAt i) :
    i < a.cap := by
  cases a with
  | memcpy pos n cap =>
      have hroom : pos + n ≤ cap := h
      exact Nat.lt_of_lt_of_le hi.2 hroom
  | memmove pos n cap =>
      have hroom : pos + n ≤ cap := h
      have hlt : i < n := hi
      show i < cap
      omega
  | read pos n cap =>
      have hroom : pos + n ≤ cap := h
      exact Nat.lt_of_lt_of_le hi.2 hroom
  | store pos cap =>
      have hpos : i = pos := hi
      rw [hpos]
      exact h
  | expand asked got => exact hi.elim

/-- Accesses in bounds keep the stores inside. -/
theorem StoresInside.extend {b b' : Buf} (h : StoresInside b) (hwf : b'.Wf)
    (hext : b.Extends b') : StoresInside b' := by
  refine ⟨hwf.cap, ?_⟩
  intro a ha i hi
  rcases hext a ha with hold | hin
  · exact h.stores a hold i hi
  · exact hin.stores hi

/-- A NUL that was stored inside a block was stored in one. -/
theorem StoresInside.isSome {b b' : Buf} (h : StoresInside b')
    (hend : ∃ c : Buf, b' = c.terminate ∧ c.start = b.start) : b.start.isSome := by
  obtain ⟨c, rfl, hsame⟩ := hend
  have hmem : Access.store (c.off + c.len) c.mem.length ∈ c.terminate.log := by simp
  have hlt : c.off + c.len < c.mem.length := h.stores _ hmem _ rfl
  cases hstart : b.start with
  | none =>
      have hzero : c.mem.length = 0 := by rw [Buf.mem, hsame, hstart]; rfl
      omega
  | some m => rfl

/-- A byte of the window is stored. -/
theorem storeAt_spec {b : Buf} {i : Nat} (c : UInt8) (hwf : b.Wf) (hi : i < b.len) :
    (b.storeAt i c).Wf ∧ (b.storeAt i c).content = b.content.set i c ∧
    b.Extends (b.storeAt i c) := by
  have hsome : b.start.isSome := by
    cases hstart : b.start with
    | none =>
        have hlen := (hwf.null hstart).2
        omega
    | some m => rfl
  have hwindow := hwf.window hsome
  have hcap := hwf.cap
  have hmem : (b.storeAt i c).mem = b.mem.set (b.off + i) c := by
    unfold Buf.storeAt
    rw [note_mem, poke_mem, Block.overwrite_singleton c (by omega)]
  have hstart : (b.storeAt i c).start.isSome = b.start.isSome := by
    unfold Buf.storeAt
    rw [note_start, poke_isSome]
  refine ⟨⟨?_, ?_, ?_, ?_⟩, ?_, ?_⟩
  · rw [hmem, List.length_set]
    exact hcap
  · intro _
    exact hwindow
  · intro hnull
    rw [hnull, hsome] at hstart
    cases hstart
  · intro hlen
    rw [hmem]
    show Block.slice (b.mem.set (b.off + i) c) (b.off + b.len) 1 = [0]
    rw [Block.slice, List.drop_set_of_lt (by omega)]
    exact hwf.ended hlen
  · show Block.slice (b.storeAt i c).mem b.off b.len = (Block.slice b.mem b.off b.len).set i c
    rw [hmem]
    exact Block.slice_set b.mem b.off b.len i c
  · apply Buf.Extends.of_log [.store (b.off + i) b.mem.length] rfl
    intro a ha
    obtain rfl := List.mem_singleton.mp ha
    show b.off + i < b.mem.length
    omega

/-- The byte that the loop looks at. -/
theorem content_getD {b : Buf} (hwf : b.Wf) {i : Nat} (hi : i < b.len) :
    b.content[i]? = some (b.mem.getD (b.off + i) 0) := by
  have hlen := content_length hwf
  have hlt : i < b.content.length := by omega
  rw [List.getD_eq_getElem?_getD, Buf.content, Block.slice, List.getElem?_take_of_lt hi,
    List.getElem?_drop]
  have hin : b.off + i < b.mem.length := by
    rw [Buf.content, Block.slice, List.length_take, List.length_drop] at hlt
    omega
  rw [List.getElem?_eq_getElem hin, Option.getD_some]

/-- **Loop.**  The bytes from `i` on are changed one after the other. -/
theorem caseLoop_spec (change : UInt8 → Option UInt8) {n i : Nat} {b : Buf} (hwf : b.Wf)
    (hlen : i + n = b.len) :
    (caseLoop change n i b).Wf ∧ b.Extends (caseLoop change n i b) ∧
    (caseLoop change n i b).content =
      b.content.take i ++ (b.content.drop i).map (fun c => (change c).getD c) := by
  induction n generalizing i b with
  | zero =>
      refine ⟨hwf, Buf.Extends.refl b, ?_⟩
      have hle : b.content.length ≤ i := by rw [content_length hwf]; omega
      rw [List.take_of_length_le hle, List.drop_eq_nil_of_le hle, List.map_nil, List.append_nil]
      rfl
  | succ n ih =>
      have hi : i < b.len := by omega
      have hget := content_getD hwf hi
      obtain ⟨hlt, hbyte⟩ := List.getElem?_eq_some_iff.mp hget
      rw [caseLoop, List.drop_eq_getElem_cons hlt, hbyte, List.map_cons]
      cases hchange : change (b.mem.getD (b.off + i) 0) with
      | none =>
          obtain ⟨hnext, hext, hcontent⟩ := ih hwf (i := i + 1) (by omega)
          refine ⟨hnext, hext, hcontent.trans ?_⟩
          rw [List.take_succ_eq_append_getElem hlt, hbyte, List.append_assoc]
          rfl
      | some c =>
          obtain ⟨hstored, hset, hstore⟩ := storeAt_spec c hwf hi
          have hsame : i + 1 + n = (b.storeAt i c).len := by
            show i + 1 + n = b.len
            omega
          obtain ⟨hnext, hext, hcontent⟩ := ih hstored hsame
          refine ⟨hnext, hstore.trans hext, hcontent.trans ?_⟩
          rw [hset, take_set_last hlt, List.drop_set_of_lt (Nat.lt_succ_self i),
            List.append_assoc]
          rfl

example : (bufToLower (bufCopy .exact bufCreate [72, 105] (some fun _ => 7)).1).content =
    [104, 105] := by decide

/-- `spe_buf_lstrim` consumes only what is there. -/
theorem bufLstrim_extends {b : Buf} (hwf : b.Wf) (token : CStr) :
    b.Extends (bufLstrim b token) ∧
    (bufLstrim b token).start.isSome = b.start.isSome := by
  unfold bufLstrim
  dsimp only
  by_cases hpos : lstrimLoop token b.content 0 ≠ 0
  · rw [if_pos hpos]
    have hsome : b.start.isSome := by
      cases hstart : b.start with
      | none =>
          rw [content_of_null hstart] at hpos
          exact absurd rfl hpos
      | some m => rfl
    obtain ⟨_, hext, _⟩ := bufLconsume_alloc (n := lstrimLoop token b.content 0) hwf hsome
    refine ⟨hext, ?_⟩
    unfold bufLconsume
    dsimp only
    rw [terminate_isSome]
  · rw [if_neg hpos]
    exact ⟨Buf.Extends.refl b, rfl⟩

/-- `spe_buf_rstrim` on a block. -/
theorem bufRstrim_extends {b : Buf} (hwf : b.Wf) (token : CStr) (hsome : b.start.isSome) :
    b.Extends (bufRstrim b token) := by
  rw [bufRstrim_eq hwf]
  exact (bufRconsume_alloc hwf hsome).2.1

/-- Every call leaves a well formed buffer. -/
theorem Buf.Wf.textStep {b b' : Buf} {op : TextOp} (hwf : b.Wf)
    (hstep : textStep b op = some b') : b'.Wf := by
  cases op with
  | buf op => exact (hwf.step hstep).1
  | lstrim token =>
      obtain rfl := Option.some.inj hstep
      exact (bufLstrim_spec hwf token).1
  | rstrim token =>
      obtain rfl := Option.some.inj hstep
      exact (bufRstrim_spec hwf token).1
  | strim token =>
      obtain rfl := Option.some.inj hstep
      exact (bufRstrim_spec (bufLstrim_spec hwf token).1 token).1
  | toLower =>
      obtain rfl := Option.some.inj hstep
      exact (caseLoop_spec lowered hwf (Nat.zero_add _)).1
  | toUpper =>
      obtain rfl := Option.some.inj hstep
      exact (caseLoop_spec raised hwf (Nat.zero_add _)).1

/-- A call that is allowed keeps to its blocks. -/
theorem Held.extends {b b' : Buf} {op : TextOp} (hop : Held b op) (hwf : b.Wf)
    (hstep : textStep b op = some b') : b.Extends b' := by
  cases op with
  | buf op =>
      cases op with
      | append src al =>
          obtain rfl := Option.some.inj hstep
          exact (bufAppend_spec al hwf (holds_exact _) (appendFits_exact b src.length)).2.1
      | copy src al =>
          obtain rfl := Option.some.inj hstep
          exact (bufCopy_spec al hwf (holds_exact _) (copyFits_exact b src.length)).2.1
      | lconsume n =>
          obtain rfl := Option.some.inj hstep
          exact (bufLconsume_alloc hwf hop).2.1
      | rconsume n =>
          obtain rfl := Option.some.inj hstep
          exact (bufRconsume_alloc hwf hop).2.1
      | clean =>
          obtain rfl := Option.some.inj hstep
          exact (bufClean_spec hwf).2.1
      | readFdAppend len al r =>
          obtain rfl := Option.some.inj hstep
          exact (bufReadFdAppend_spec al r hwf (holds_exact _) (appendFits_exact b len)).2.1
      | readFdCopy len al r =>
          obtain rfl := Option.some.inj hstep
          exact (bufReadFdCopy_spec al r hwf (holds_exact _) (copyFits_exact b len)).2.1
  | lstrim token =>
      obtain rfl := Option.some.inj hstep
      exact (bufLstrim_extends hwf token).1
  | rstrim token =>
      obtain rfl := Option.some.inj hstep
      exact bufRstrim_extends hwf token hop
  | strim token =>
      obtain rfl := Option.some.inj hstep
      obtain ⟨hleft, hstart⟩ := bufLstrim_extends hwf token
      exact hleft.trans
        (bufRstrim_extends (bufLstrim_spec hwf token).1 token (hstart.trans hop))
  | toLower =>
      obtain rfl := Option.some.inj hstep
      exact (caseLoop_spec lowered hwf (Nat.zero_add _)).2.1
  | toUpper =>
      obtain rfl := Option.some.inj hstep
      exact (caseLoop_spec raised hwf (Nat.zero_add _)).2.1

/-- A call that keeps to its blocks was allowed: the others end in a store through NULL. -/
theorem held_of_inside {b b' : Buf} {op : TextOp} (hwf : b.Wf) (hstep : textStep b op = some b')
    (hinside : StoresInside b') : Held b op := by
  cases op with
  | buf op =>
      cases op with
      | lconsume n =>
          obtain rfl := Option.some.inj hstep
          exact hinside.isSome ⟨_, rfl, rfl⟩
      | rconsume n =>
          obtain rfl := Option.some.inj hstep
          exact hinside.isSome ⟨_, rfl, rfl⟩
      | append src al => trivial
      | copy src al => trivial
      | clean => trivial
      | readFdAppend len al r => trivial
      | readFdCopy len al r => trivial
  | rstrim token =>
      obtain rfl := Option.some.inj hstep
      exact hinside.isSome ⟨_, rfl, rfl⟩
  | strim token =>
      obtain rfl := Option.some.inj hstep
      have hsome : (bufLstrim b token).start.isSome := hinside.isSome ⟨_, rfl, rfl⟩
      rw [(bufLstrim_extends hwf token).2] at hsome
      exact hsome
  | lstrim token => trivial
  | toLower => trivial
  | toUpper => trivial

/-- **Step lemma.**  A call stores inside its blocks exactly when it is allowed. -/
theorem StoresInside.step {b b' : Buf} {op : TextOp} (h : StoresInside b) (hwf : b.Wf)
    (hstep : textStep b op = some b') : StoresInside b' ↔ Held b op := by
  constructor
  · exact held_of_inside hwf hstep
  · intro hop
    exact h.extend (hwf.textStep hstep) (hop.extends hwf hstep)

/-- A flush consumes from `_write_buffer` when the connection is usable and `write` does not
fail. -/
def Consumes (c : Conn) (w : WriteRes) : Prop :=
  c.closed = false ∧ c.error = false ∧ ∃ n, w = .wrote n

/-- **`spe_conn_flush`** stores inside the block of `_write_buffer` exactly when there is one
or nothing is consumed. -/
theorem flush_inside {c : Conn} {w : WriteRes} (h : StoresInside c.writeBuffer.buf) :
    StoresInside (c.flush w).1.writeBuffer.buf ↔
      (Consumes c w → c.writeBuffer.buf.start.isSome) := by
  have hwf := c.writeBuffer.wf
  unfold Conn.flush
  by_cases husable : (c.closed || c.error) = true
  · rw [if_pos husable]
    refine ⟨fun _ hconsumes => ?_, fun _ => h⟩
    rw [hconsumes.1, hconsumes.2.1] at husable
    cases husable
  · rw [if_neg husable]
    obtain ⟨hclosed, herror⟩ := Bool.or_eq_false_iff.mp (Bool.not_eq_true _ ▸ husable)
    cases w with
    | err e =>
        refine ⟨?_, fun _ => ?_⟩
        · rintro _ ⟨_, _, n, hw⟩
          cases hw
        · cases e <;> exact h
    | wrote n =>
        have hbuffer : ((if (c.wrote (.wrote n)).2 then ((c.wrote (.wrote n)).1, Outcome.done)
            else ({ (c.wrote (.wrote n)).1 with writeTimeout := false, writeType := .write },
              .pending)).1).writeBuffer.buf =
            bufLconsume c.writeBuffer.buf (min n c.writeBuffer.buf.len) := by
          split <;> rfl
        have hstep : textStep c.writeBuffer.buf
            (.buf (.lconsume (min n c.writeBuffer.buf.len))) =
            some (bufLconsume c.writeBuffer.buf (min n c.writeBuffer.buf.len)) := rfl
        have hexact := h.step hwf hstep
        refine ⟨fun hinside _ => ?_, fun hsome => ?_⟩
        · exact hexact.mp (hbuffer ▸ hinside)
        · exact hbuffer.symm ▸ hexact.mpr (hsome ⟨hclosed, herror, n, rfl⟩)

/-- A new buffer has stored nothing. -/
theorem storesInside_create : StoresInside bufCreate := by
  refine ⟨rfl, ?_⟩
  intro a ha
  cases ha

/-- **Stores.**  A run from a new buffer stores inside the blocks, in every state it goes
through, exactly when it consumes and trims at the right end of buffers that have a block
only; and a connection is flushed without a store outside exactly when nothing is consumed
from a `_write_buffer` that has no block. -/
theorem stores_inside {ops : List TextOp} {b : Buf} (hrun : Run textStep anyStep bufCreate ops b) :
    ((∀ fs gs m, ops = fs ++ gs → Run textStep anyStep bufCreate fs m → StoresInside m) ↔
      Run textStep Held bufCreate ops b) ∧
    ∀ (c : Conn) (w : WriteRes), StoresInside c.writeBuffer.buf →
      (StoresInside (c.flush w).1.writeBuffer.buf ↔
        (Consumes c w → c.writeBuffer.buf.start.isSome)) := by
  refine ⟨?_, fun c w h => flush_inside h⟩
  exact hrun.exact Buf.Wf StoresInside bufCreate_spec.1 storesInside_create
    (fun _ _ _ hwf _ hstep => hwf.textStep hstep)
    (fun _ _ _ hwf hinside hstep => hinside.step hwf hstep)

/-- A copy of two bytes, from which one is consumed at the right end. -/
theorem stores_inside_copied :
    StoresInside (bufRconsume (bufCopy .exact bufCreate [104, 105] (some fun _ => 7)).1 1) := by
  obtain ⟨b, hb⟩ : ∃ b, b = (bufCopy .exact bufCreate [104, 105] (some fun _ => 7)).1 :=
    ⟨_, rfl⟩
  rw [← hb]
  have hcopy : textStep bufCreate (.buf (.copy [104, 105] (some fun _ => 7))) = some b := by
    rw [hb]
    rfl
  have hsome : b.start.isSome := by rw [hb]; decide
  have hrun : Run textStep Held bufCreate
      [.buf (.copy [104, 105] (some fun _ => 7)), .buf (.rconsume 1)] (bufRconsume b 1) :=
    Run.cons hcopy trivial (Run.single rfl hsome)
  have hany : Run textStep anyStep bufCreate
      [.buf (.copy [104, 105] (some fun _ => 7)), .buf (.rconsume 1)] (bufRconsume b 1) :=
    hrun.mono (fun _ _ _ => trivial)
  exact (stores_inside hany).1.mpr hrun _ [] _ (List.append_nil _).symm hany

/-- Nothing is consumed from a new buffer, and a NUL is stored through NULL. -/
theorem stores_inside_fails :
    ¬ ∀ ops b, Run textStep anyStep bufCreate ops b → StoresInside b := by
  intro hall
  have hrun : Run textStep anyStep bufCreate [.buf (.lconsume 0)] (bufLconsume bufCreate 0) :=
    Run.single rfl trivial
  have hsome : bufCreate.start.isSome := (hall _ _ hrun).isSome ⟨_, rfl, rfl⟩
  cases hsome

end Spe
