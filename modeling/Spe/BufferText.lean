import Mathlib.Data.List.DropRight
import Spe.ConnCompletion
import Spe.Strip

/-!
# Trimming and splitting (`spe_buf.c`)

The text functions of `spe_buf.c`: `spe_buf_strim` takes the bytes of a token off both
ends, `spe_buf_split` copies what stands between the occurrences of a token into a
`spe_bufs_t`.  Both read the window byte by byte or through the C string functions, so
they are written here as the loops that they are, and then as functions of the byte
string.
-/

namespace Spe

/-- `strchr(token, c) != NULL`.  The NUL that ends the token is found, too. -/
def strchr (token : CStr) (c : UInt8) : Bool := c == 0 || token.1.contains c

/-- The loop of `spe_buf_lstrim`: how many bytes at the left are in the token. -/
def lstrimLoop (token : CStr) : Bytes → Nat → Nat
  | [], pos => pos
  | c :: bs, pos => if strchr token c then lstrimLoop token bs (pos + 1) else pos

/-- The loop of `spe_buf_rstrim`: the length up to the last byte that is not in the
token. -/
def rstrimLoop (token : CStr) (bs : Bytes) : Nat → Nat
  | 0 => 0
  | n + 1 => if strchr token (bs.getD n 0) then rstrimLoop token bs n else n + 1

/-- `spe_buf_lstrim`. -/
def bufLstrim (b : Buf) (token : CStr) : Buf :=
  let pos := lstrimLoop token b.content 0
  if pos ≠ 0 then bufLconsume b pos else b

/-- `spe_buf_rstrim`. -/
def bufRstrim (b : Buf) (token : CStr) : Buf :=
  ({ b with len := rstrimLoop token b.content b.len } : Buf).terminate

/-- `spe_buf_strim`. -/
def bufStrim (b : Buf) (token : CStr) : Buf := bufRstrim (bufLstrim b token) token

/-- The part of `spe_buf_lstrim` that is taken off. -/
theorem lstrimLoop_eq (token : CStr) (bs : Bytes) (pos : Nat) :
    lstrimLoop token bs pos = pos + (bs.takeWhile (strchr token)).length := by
  induction bs generalizing pos with
  | nil => rfl
  | cons c bs ih =>
      rw [lstrimLoop, List.takeWhile_cons]
      by_cases hc : strchr token c = true
      · rw [if_pos hc, if_pos hc, ih, List.length_cons]
        omega
      · rw [if_neg hc, if_neg hc]
        rfl

/-- The length that `spe_buf_rstrim` leaves. -/
theorem rstrimLoop_eq (token : CStr) {bs : Bytes} {n : Nat} (hn : n ≤ bs.length) :
    rstrimLoop token bs n = ((bs.take n).rdropWhile (strchr token)).length := by
  induction n with
  | zero => rfl
  | succ n ih =>
      have hlast : bs.take (n + 1) = bs.take n ++ [bs.getD n 0] := by
        rw [List.take_succ_eq_append_getElem (by omega), List.getD_eq_getElem?_getD,
          List.getElem?_eq_getElem (by omega), Option.getD_some]
      rw [rstrimLoop, hlast, List.rdropWhile_concat]
      by_cases hc : strchr token (bs.getD n 0) = true
      · rw [if_pos hc, if_pos hc]
        exact ih (by omega)
      · rw [if_neg hc, if_neg hc, List.length_append, List.length_take_of_le (by omega)]
        rfl

/-- **`spe_buf_lstrim`** drops the longest prefix of bytes in the token. -/
theorem bufLstrim_spec {b : Buf} (hwf : b.Wf) (token : CStr) :
    (bufLstrim b token).Wf ∧
    (bufLstrim b token).content = b.content.dropWhile (strchr token) := by
  have hpos : lstrimLoop token b.content 0 = (b.content.takeWhile (strchr token)).length := by
    rw [lstrimLoop_eq, Nat.zero_add]
  have hdrop : b.content.drop (b.content.takeWhile (strchr token)).length =
      b.content.dropWhile (strchr token) := by
    have hparts := List.takeWhile_append_dropWhile (p := strchr token) (l := b.content)
    calc b.content.drop (b.content.takeWhile (strchr token)).length
        = (b.content.takeWhile (strchr token) ++ b.content.dropWhile (strchr token)).drop
            (b.content.takeWhile (strchr token)).length := by rw [hparts]
      _ = b.content.dropWhile (strchr token) := List.drop_left
  unfold bufLstrim
  rw [hpos]
  dsimp only
  by_cases hzero : (b.content.takeWhile (strchr token)).length = 0
  · rw [if_neg (not_not.mpr hzero), ← hdrop, hzero]
    exact ⟨hwf, rfl⟩
  · rw [if_pos hzero, ← hdrop]
    obtain ⟨hcut, hcontent, _⟩ := bufLconsume_spec (n := (b.content.takeWhile (strchr token)).length) hwf
    exact ⟨hcut, hcontent⟩

/-- `spe_buf_rstrim` consumes from the right. -/
theorem bufRstrim_eq {b : Buf} (hwf : b.Wf) (token : CStr) :
    bufRstrim b token =
      bufRconsume b (b.len - (b.content.rdropWhile (strchr token)).length) := by
  have hlen := content_length hwf
  have hle := (List.rdropWhile_prefix (strchr token) (l := b.content)).length_le
  unfold bufRstrim bufRconsume
  rw [rstrimLoop_eq token (Nat.le_of_eq hlen.symm), ← hlen, List.take_length]
  have hkeep : b.content.length - (if b.content.length ≤
      b.content.length - (b.content.rdropWhile (strchr token)).length then b.content.length
      else b.content.length - (b.content.rdropWhile (strchr token)).length) =
      (b.content.rdropWhile (strchr token)).length := by
    split <;> omega
  dsimp only
  rw [hkeep]

/-- **`spe_buf_rstrim`** drops the longest suffix of bytes in the token. -/
theorem bufRstrim_spec {b : Buf} (hwf : b.Wf) (token : CStr) :
    (bufRstrim b token).Wf ∧
    (bufRstrim b token).content = b.content.rdropWhile (strchr token) := by
  have hlen := content_length hwf
  have hpre := List.rdropWhile_prefix (strchr token) (l := b.content)
  rw [bufRstrim_eq hwf]
  obtain ⟨hcut, hcontent, _⟩ := bufRconsume_spec
    (n := b.len - (b.content.rdropWhile (strchr token)).length) hwf
  refine ⟨hcut, ?_⟩
  have hle := hpre.length_le
  have hkeep : b.len - (b.len - (b.content.rdropWhile (strchr token)).length) =
      (b.content.rdropWhile (strchr token)).length := by omega
  rw [hcontent, hkeep]
  exact (List.prefix_iff_eq_take.mp hpre).symm

/-- The bytes between the longest prefix and the longest suffix in the token. -/
def trimmed (token : CStr) (bs : Bytes) : Bytes :=
  (bs.dropWhile (strchr token)).rdropWhile (strchr token)

/-- Nothing is left of bytes that are all in the token. -/
theorem trimmed_blank {token : CStr} {bs : Bytes} (h : ∀ c ∈ bs, strchr token c = true) :
    trimmed token bs = [] :=
  Strip.strip_nil h

/-- **Padding.**  Bytes in the token around a string that begins and ends with others. -/
theorem trimmed_padded {token : CStr} {left bs right : Bytes} {first last : UInt8}
    (hleft : ∀ c ∈ left, strchr token c = true) (hright : ∀ c ∈ right, strchr token c = true)
    (hfirst : bs.head? = some first) (hlast : bs.getLast? = some last)
    (hf : strchr token first = false) (hl : strchr token last = false) :
    trimmed token (left ++ bs ++ right) = bs := by
  refine (Strip.stripped_iff.mp ⟨⟨left, right, rfl, hleft, hright⟩, ?_, ?_⟩).symm
  · intro c hc
    obtain rfl := Option.some.inj (hfirst.symm.trans hc)
    exact hf
  · intro c hc
    obtain rfl := Option.some.inj (hlast.symm.trans hc)
    exact hl

namespace ByteBuf

variable (b : ByteBuf)

/-- `spe_buf_strim`. -/
def strim (token : CStr) : ByteBuf :=
  ⟨bufStrim b.buf token, (bufRstrim_spec (bufLstrim_spec b.wf token).1 token).1⟩

/-- What a buffer holds after it has been trimmed. -/
@[simp] theorem bytes_strim (token : CStr) : (b.strim token).bytes = trimmed token b.bytes := by
  obtain ⟨hwf, hleft⟩ := bufLstrim_spec b.wf token
  have hright := (bufRstrim_spec hwf token).2
  rw [hleft] at hright
  exact hright

/-- `spe_buf_copy`. -/
def copy (src : Bytes) (al : Alloc) : ByteBuf × Bool :=
  let r := bufCopy .exact b.buf src al
  (⟨r.1, (bufCopy_spec al b.wf (holds_exact _) (copyFits_exact _ _)).1⟩, r.2)

/-- What a buffer holds after a successful copy. -/
@[simp] theorem bytes_copy_ok {al : Alloc} (src : Bytes) (hal : al.isSome) :
    (b.copy src al).1.bytes = src := by
  obtain ⟨_, _, hcontent, hok, _⟩ :=
    @bufCopy_spec .exact b.buf src al b.wf (holds_exact _) (copyFits_exact _ _)
  rw [hok hal, if_pos rfl] at hcontent
  exact hcontent

/-- A buffer into which the bytes have been copied. -/
def holding (bs : Bytes) : ByteBuf := (create.copy bs (some fun _ => 0)).1

@[simp] theorem bytes_holding (bs : Bytes) : (holding bs).bytes = bs := bytes_copy_ok _ bs rfl

end ByteBuf

/-- `spe_bufs_t`.  `_size` is the length of `data`. -/
structure Bufs where
  data : List (Option ByteBuf)
  len : Nat

/-- What the allocator answers to an append to a `spe_bufs_t`. -/
structure BufsAlloc where
  grow : Bool
  create : Bool
  copy : Alloc

namespace Bufs

/-- `spe_bufs_create`. -/
def create : Bufs := ⟨[], 0⟩

/-- `spe_bufs_append`. -/
def append (bufs : Bufs) (src : Bytes) (al : BufsAlloc) : Bufs × Bool :=
  let full := bufs.len = bufs.data.length
  if full ∧ ¬ al.grow then (bufs, false) else
  let data := if full then bufs.data ++ List.replicate 16 none else bufs.data
  match data.getD bufs.len none with
  | some b =>
      ({ data := data.set bufs.len (some (b.copy src al.copy).1), len := bufs.len + 1 }, true)
  | none =>
      if ¬ al.create then ({ bufs with data := data }, false) else
      ({ data := data.set bufs.len (some (ByteBuf.create.copy src al.copy).1),
         len := bufs.len + 1 }, true)

/-- `spe_bufs_clean`. -/
def clean (bufs : Bufs) : Bufs := { bufs with len := 0 }

end Bufs

namespace ByteBuf

variable (b : ByteBuf)

/-- What a C string function sees at `data + start`. -/
def cstrAt (start : Nat) : Bytes := cstr (b.buf.mem.drop (b.buf.off + start))

/-- The loop of `spe_buf_split`: how far it got, and the pieces.  `als start` is what
the allocator answers to the append of the piece at `start`; without fuel the loop is still
running. -/
def splitLoop (token : CStr) (als : Nat → BufsAlloc) : Nat → Nat → Bufs → Option (Nat × Bufs)
  | 0, _, _ => none
  | fuel + 1, start, bufs =>
      if start < b.buf.len then
        match Search.find token.1 (b.cstrAt start) with
        | none => some (start, bufs)
        | some point =>
            let bufs :=
              if point ≠ 0 then (bufs.append ((b.bytes.drop start).take point) (als start)).1
              else bufs
            splitLoop token als fuel (start + point + token.1.length) bufs
      else some (start, bufs)

/-- `spe_buf_split`; a `spe_bufs_create` that fails makes it return NULL. -/
def split (token : CStr) (create : Bool) (als : Nat → BufsAlloc) (fuel : Nat) :
    Option (Option Bufs) :=
  if ¬ create then some none else
  (b.splitLoop token als fuel 0 Bufs.create).map fun r =>
    if b.buf.len ≠ r.1 then some (r.2.append (b.bytes.drop r.1) (als r.1)).1
    else some r.2

end ByteBuf

/-- The strings in a `spe_bufs_t`. -/
def Bufs.strings (bufs : Bufs) : List (Option Bytes) :=
  (bufs.data.take bufs.len).map fun b => b.map ByteBuf.bytes

/-- The allocator answers. -/
structure BufsAlloc.Good (al : BufsAlloc) : Prop where
  grow : al.grow = true
  create : al.create = true
  copy : al.copy.isSome

/-- An entry behind the strings. -/
theorem take_set_last {α : Type} {l : List α} {n : Nat} (h : n < l.length) (x : α) :
    (l.set n x).take (n + 1) = l.take n ++ [x] := by
  rw [List.take_succ_eq_append_getElem (by simpa using h), List.getElem_set_self,
    List.take_set_of_le (Nat.le_refl n)]

namespace Bufs

variable (bufs : Bufs)

/-- The array in which an append finds room. -/
def grown : List (Option ByteBuf) :=
  if bufs.len = bufs.data.length then bufs.data ++ List.replicate 16 none else bufs.data

/-- There is room behind the strings. -/
theorem lt_grown (h : bufs.len ≤ bufs.data.length) : bufs.len < bufs.grown.length := by
  unfold grown
  split
  · rw [List.length_append, List.length_replicate]
    omega
  · omega

/-- The strings stay where they are. -/
theorem grown_take (h : bufs.len ≤ bufs.data.length) :
    bufs.grown.take bufs.len = bufs.data.take bufs.len := by
  unfold grown
  split
  · exact List.take_append_of_le_length h
  · rfl

/-- The new entries are null. -/
theorem grown_getD (i : Nat) : bufs.grown.getD i none = bufs.data.getD i none := by
  unfold grown
  split
  · rw [List.getD_eq_getElem?_getD, List.getD_eq_getElem?_getD]
    by_cases hi : i < bufs.data.length
    · rw [List.getElem?_append_left hi]
    · rw [List.getElem?_append_right (Nat.le_of_not_lt hi),
        List.getElem?_eq_none (Nat.le_of_not_lt hi), List.getElem?_replicate]
      split <;> rfl
  · rfl

/-- An append that finds room, or memory for it. -/
theorem append_grown (src : Bytes) {al : BufsAlloc}
    (hgrow : bufs.len = bufs.data.length → al.grow = true) :
    bufs.append src al =
      match bufs.data.getD bufs.len none with
      | some b =>
          ({ data := bufs.grown.set bufs.len (some (b.copy src al.copy).1),
             len := bufs.len + 1 }, true)
      | none =>
          if ¬ al.create then ({ bufs with data := bufs.grown }, false) else
          ({ data := bufs.grown.set bufs.len (some (ByteBuf.create.copy src al.copy).1),
             len := bufs.len + 1 }, true) := by
  have hroom : ¬ (bufs.len = bufs.data.length ∧ ¬ al.grow = true) :=
    fun hfull => hfull.2 (hgrow hfull.1)
  rw [← bufs.grown_getD]
  unfold append
  rw [if_neg hroom]
  rfl

end Bufs

/-- **`spe_bufs_append`** puts the string behind the others. -/
theorem Bufs.append_spec (bufs : Bufs) {al : BufsAlloc} (src : Bytes)
    (hlen : bufs.len ≤ bufs.data.length) (hal : al.Good) :
    (bufs.append src al).1.strings = bufs.strings ++ [some src] ∧
    (bufs.append src al).1.len = bufs.len + 1 ∧
    (bufs.append src al).1.len ≤ (bufs.append src al).1.data.length := by
  have hstrings : ∀ (data : List (Option ByteBuf)) (b : ByteBuf),
      data.take bufs.len = bufs.data.take bufs.len → bufs.len < data.length → b.bytes = src →
      (Bufs.mk (data.set bufs.len (some b)) (bufs.len + 1)).strings =
        bufs.strings ++ [some src] := by
    intro data b htake hroom hb
    unfold Bufs.strings
    rw [take_set_last hroom, htake, List.map_append]
    simp [hb]
  have hroom := bufs.lt_grown hlen
  have htake := bufs.grown_take hlen
  rw [bufs.append_grown src fun _ => hal.grow]
  cases hentry : bufs.data.getD bufs.len none with
  | some b =>
      refine ⟨hstrings _ _ htake hroom (ByteBuf.bytes_copy_ok b src hal.copy), rfl, ?_⟩
      rw [List.length_set]
      exact hroom
  | none =>
      dsimp only
      rw [if_neg (not_not.mpr hal.create)]
      refine ⟨hstrings _ _ htake hroom (ByteBuf.bytes_copy_ok _ src hal.copy), rfl, ?_⟩
      rw [List.length_set]
      exact hroom

/-- A string without NUL is seen to its end from every start in it. -/
theorem ByteBuf.cstrAt_eq {b : ByteBuf} {start : Nat} (hstart : start < b.bytes.length)
    (hclean : (0 : UInt8) ∉ b.bytes) : b.cstrAt start = b.bytes.drop start := by
  have hlen : 0 < b.buf.len := by rw [b.len_eq]; omega
  obtain ⟨more, hmore⟩ := window_terminated b.wf hlen
  have hle : start ≤ b.buf.content.length := Nat.le_of_lt hstart
  have hrest : (0 : UInt8) ∉ b.bytes.drop start := fun hmem => hclean (List.mem_of_mem_drop hmem)
  unfold ByteBuf.cstrAt
  rw [← List.drop_drop, hmore, List.drop_append_of_le_length hle, cstr_terminated]
  exact cstr_of_clean hrest

end Spe
