import Spe.BufferText
import Spe.ConnPhase
import Spe.ReadAlloc

/-!
# What a search sees (`spe_buf_search`)

A buffer holds any bytes, and `spe_buf_search` hands them to `strstr`, which stops at the
first NUL.  So the search returns the leftmost occurrence of a key exactly when no NUL stands
before it (`NulClear`), and a request for a delimiter that has been received is completed by
its call, by `read_normal` and by `read_common` under the same condition.
-/

namespace Spe

/-- The key occurs in the bytes. -/
def Received (key bs : Bytes) : Prop := ∃ i, Search.OccursAt key bs i

/-- What a search for the key says: the least position at which it occurs, and -1 (`none`)
exactly when it occurs nowhere. -/
structure IsSearch (key bs : Bytes) (res : Option Nat) : Prop where
  least : ∀ i, res = some i → Search.OccursAt key bs i ∧ ∀ j, j < i → ¬ Search.OccursAt key bs j
  nowhere : res = none ↔ ¬ Received key bs

/-- No NUL stands before the leftmost occurrence of the key. -/
def NulClear (key bs : Bytes) : Prop :=
  ∀ i, Search.find key bs = some i → (0 : UInt8) ∉ bs.take i

/-- The key has been received where the leftmost occurrence is found. -/
theorem received_iff {key bs : Bytes} : Received key bs ↔ ∃ i, Search.find key bs = some i := by
  rw [← Option.isSome_iff_exists, Option.isSome_iff_ne_none, Ne, Search.find_eq_none]
  unfold Received
  rw [not_forall_not]

/-- The leftmost occurrence is the only answer. -/
theorem isSearch_iff {key bs : Bytes} {res : Option Nat} :
    IsSearch key bs res ↔ res = Search.find key bs := by
  constructor
  · rintro ⟨hleast, hnowhere⟩
    cases res with
    | none =>
        have hnone := hnowhere.mp rfl
        rw [received_iff, ← Option.isSome_iff_exists, Option.not_isSome_iff_eq_none] at hnone
        exact hnone.symm
    | some i => exact (Search.find_eq_some.mpr (hleast i rfl)).symm
  · rintro rfl
    refine ⟨fun i hi => Search.find_eq_some.mp hi, ?_⟩
    rw [Search.find_eq_none]
    unfold Received
    rw [not_exists]

/-- A key that a C string holds stands at the same place in the whole of the bytes. -/
theorem find_of_cstr {key bs : Bytes} {i : Nat} (h : Search.find key (cstr bs) = some i) :
    Search.find key bs = some i := by
  obtain ⟨rest, hrest⟩ : cstr bs <+: bs := List.takeWhile_prefix _
  have hfound := Search.find_append rest h
  rwa [hrest] at hfound

/-- **What `strstr` sees.**  It finds the leftmost occurrence exactly when no NUL stands before
it. -/
theorem find_cstr_iff {key : CStr} {bs : Bytes} {i : Nat} (h : Search.find key.1 bs = some i) :
    Search.find key.1 (cstr bs) = some i ↔ (0 : UInt8) ∉ bs.take i := by
  constructor
  · intro hseen hnul
    have hbound := Search.find_bound hseen
    obtain ⟨rest, hrest⟩ : cstr bs <+: bs := List.takeWhile_prefix _
    rw [← hrest, List.take_append_of_le_length (by omega)] at hnul
    have hnonzero := List.mem_takeWhile_imp (List.mem_of_mem_take hnul)
    simp at hnonzero
  · intro hclean
    have hend : (0 : UInt8) ∉ bs.take (i + key.1.length) := by
      rw [Search.take_of_find h, List.mem_append]
      rintro (hbefore | hkey)
      · exact hclean hbefore
      · exact key.2 hkey
    obtain ⟨seen, hseen⟩ := cstr_clean hend (bs.drop (i + key.1.length))
    rw [List.take_append_drop] at hseen
    have hbound := Search.find_bound h
    have hfirst : Search.find key.1 (bs.take (i + key.1.length)) = some i := by
      refine Search.find_of_append (bs.drop (i + key.1.length)) ?_ ?_
      · rw [List.take_append_drop]
        exact h
      · rw [List.length_take]
        omega
    rw [hseen]
    exact Search.find_append seen hfirst

/-- `spe_buf_search` for a key that is not empty. -/
theorem ByteBuf.search_cstr (b : ByteBuf) {key : Bytes} (hkey : key ≠ []) :
    b.search key = Search.find key (cstr b.bytes) := by
  rw [b.search_eq]
  split
  · rename_i hnil
    rw [hnil]
    exact (Search.find_nil hkey).symm
  · rfl

/-- **`spe_buf_search`** answers rightly exactly when no NUL is in the way. -/
theorem isSearch_search_iff (b : ByteBuf) {key : CStr} (hkey : key.1 ≠ []) :
    IsSearch key.1 b.bytes (b.search key.1) ↔ NulClear key.1 b.bytes := by
  rw [isSearch_iff, b.search_cstr hkey]
  unfold NulClear
  cases hfind : Search.find key.1 b.bytes with
  | none =>
      have hnone : Search.find key.1 (cstr b.bytes) = none := by
        cases hseen : Search.find key.1 (cstr b.bytes) with
        | none => rfl
        | some i => cases hfind.symm.trans (find_of_cstr hseen)
      simp [hnone]
  | some i =>
      rw [find_cstr_iff hfind]
      simp

/-- The code finds the frame of a delimiter that has been received exactly when no NUL is in the
way. -/
theorem codeFrame_until_iff {key : CStr} {bs : Bytes} (hkey : key.1 ≠ [])
    (h : Received key.1 bs) :
    (∃ n, codeFrame (.readUntil (some key)) bs = some n) ↔ NulClear key.1 bs := by
  obtain ⟨i, hi⟩ := received_iff.mp h
  have hne : bs ≠ [] := by
    intro hnil
    rw [hnil] at hi
    cases (Search.find_nil hkey).symm.trans hi
  have hclear : NulClear key.1 bs ↔ (0 : UInt8) ∉ bs.take i := by
    unfold NulClear
    rw [hi]
    simp
  rw [hclear, ← find_cstr_iff hi, codeFrame, if_neg hne]
  constructor
  · rintro ⟨n, hn⟩
    obtain ⟨j, hj, rfl⟩ := Option.map_eq_some_iff.mp hn
    obtain rfl := Option.some.inj (hi.symm.trans (find_of_cstr hj))
    exact hj
  · intro hseen
    rw [hseen]
    exact ⟨_, rfl⟩

/-- `spe_conn_read_until` on an open connection ends when its attempt does, or when it finds the
frame. -/
theorem readUntil_done_iff {c : Conn} {key : CStr} {al : Allocs} {r : ReadRes}
    (hclosed : c.closed = false) (herror : c.error = false) :
    (c.issue (.readUntil (some key)) al r).2 = .done ↔
      (∃ n, codeFrame (.readUntil (some key)) (c.attempt al r).1.bytes = some n) ∨
      (c.attempt al r).2.fatal = true ∨ (c.attempt al r).2 = .zero := by
  by_cases hstop : (c.attempt al r).2.fatal = true ∨ (c.attempt al r).2 = .zero
  · obtain ⟨c₁, hsync, _⟩ := readSync_stops hstop
    have hproper : Request.Proper (.readUntil (some key)) := rfl
    rw [issue_ended hclosed herror hproper (by rw [hsync])]
    exact iff_of_true rfl (Or.inr hstop)
  · have hsync := readSync_goes hclosed herror hstop
    rw [or_iff_left hstop, ← search_frame]
    simp only [Conn.issue, Conn.readUntil, hclosed, herror, hsync, Bool.or_self,
      Bool.false_eq_true, if_false]
    cases (c.attempt al r).1.search key.1 with
    | none => simp
    | some pos => simp

/-- `read_common` returns before any read exactly when it finds the frame in `_rbuf`. -/
theorem readCommon_at_once_iff {io : Io} {req : Request} (hreq : io.request = some req)
    (buf : ByteBuf) (al : Alloc) (fd : Descriptor) :
    (io.readCommon buf al fd []).isSome ↔ ∃ n, codeFrame req io.rbuf.bytes = some n := by
  unfold Io.request at hreq
  unfold Io.readCommon Io.checkType
  cases htype : io.rtype with
  | readNone => simp [htype] at hreq
  | read =>
      obtain rfl : .read = req := by simpa [htype] using hreq
      by_cases hempty : io.rbuf.bytes = []
      · simp [codeFrame, ByteBuf.len_eq, hempty]
      · have hpos : 0 < io.rbuf.bytes.length := List.length_pos_iff.mpr hempty
        simp [codeFrame, ByteBuf.len_eq, hempty, hpos]
  | readBytes =>
      obtain rfl : .readbytes io.rbytes = req := by simpa [htype] using hreq
      by_cases hle : io.rbytes ≤ io.rbuf.bytes.length <;> simp [codeFrame, ByteBuf.len_eq, hle]
  | readUntil =>
      obtain rfl : .readUntil (some io.delim) = req := by simpa [htype] using hreq
      rw [← search_frame]
      dsimp only
      cases io.rbuf.search io.delim.1 with
      | none => simp
      | some pos => simp

/-- **Search.**  For every content and every key, `spe_buf_search` returns the least position at
which the key occurs, and -1 for a key that occurs nowhere, exactly when no NUL stands before the
leftmost occurrence.  A request for a delimiter that has been received is complete under the same
condition, unless something else ends it: after the attempt of `spe_conn_read_until`, after the
loop of `read_normal`, and at the head of the loop of `read_common`, which then makes no further
read. -/
theorem search_is_leftmost (key : CStr) (hkey : key.1 ≠ []) (b : ByteBuf) (c : Conn) (al : Allocs)
    (io : Io) :
    (IsSearch key.1 b.bytes (b.search key.1) ↔ NulClear key.1 b.bytes) ∧
    (∀ r, c.closed = false → c.error = false → Received key.1 (c.attempt al r).1.bytes →
      ((c.issue (.readUntil (some key)) al r).2 = .done ↔
        NulClear key.1 (c.attempt al r).1.bytes ∨
        (c.attempt al r).2.fatal = true ∨ (c.attempt al r).2 = .zero)) ∧
    (∀ timedOut rs b' ret c' out, c.request = some (.readUntil (some key)) →
      ¬ (c.readExpireTime ≠ 0 ∧ timedOut = true) →
      Conn.readLoop c.readBuffer al rs = some (b', ret) → Received key.1 b'.bytes →
      c.readNormal timedOut al rs = some (c', out) →
      (out = .done ↔
        NulClear key.1 b'.bytes ∨
        ret = .zero ∨ (ret.fatal = true ∧ ret ≠ .bufError) ∨ c.closed = true ∨ c.error = true)) ∧
    ∀ dest fresh fd, io.request = some (.readUntil (some key)) → Received key.1 io.rbuf.bytes →
      ((io.readCommon dest fresh fd []).isSome ↔ NulClear key.1 io.rbuf.bytes) := by
  refine ⟨isSearch_search_iff b hkey, ?_, ?_, ?_⟩
  · intro r hclosed herror hreceived
    rw [readUntil_done_iff hclosed herror, codeFrame_until_iff hkey hreceived]
  · intro timedOut rs b' ret c' out hreq htime hloop hreceived hnormal
    rw [readNormal_done_iff hnormal]
    unfold ReadCompletes
    rw [or_iff_right htime, ← codeFrame_until_iff hkey hreceived]
    simp [hloop, hreq]
  · intro dest fresh fd hreq hreceived
    rw [readCommon_at_once_iff hreq, codeFrame_until_iff hkey hreceived]

/-- A reader that looks for "b" and has read "ab". -/
def Io.lookingForB : Io :=
  { Io.create with rbuf := .holding [97, 98], rtype := .readUntil, delim := ⟨[98], by decide⟩ }

theorem search_is_leftmost_ab :
    IsSearch [98] [97, 98] ((ByteBuf.holding [97, 98]).search [98]) ∧
    (Io.lookingForB.readCommon .create none ⟨[], 0⟩ []).isSome = true := by
  have hkey : (0 : UInt8) ∉ [98] := by decide
  have hne : ([98] : Bytes) ≠ [] := List.cons_ne_nil 98 []
  obtain ⟨hsearch, _, _, hreader⟩ := search_is_leftmost ⟨[98], hkey⟩ hne (.holding [97, 98])
    (Conn.zero.create 3) ⟨none, none⟩ Io.lookingForB
  have hbytes : Io.lookingForB.rbuf.bytes = [97, 98] := ByteBuf.bytes_holding _
  rw [ByteBuf.bytes_holding] at hsearch
  have hclear : NulClear [98] [97, 98] := by
    intro i hi
    obtain rfl : 1 = i := Option.some.inj hi
    decide
  have hreceived : Received [98] Io.lookingForB.rbuf.bytes := by
    rw [hbytes]
    exact received_iff.mpr ⟨1, rfl⟩
  refine ⟨hsearch.mpr hclear, (hreader .create none ⟨[], 0⟩ rfl hreceived).mpr ?_⟩
  rw [hbytes]
  exact hclear

/-- "b" has been received behind a NUL. -/
theorem search_is_leftmost_fails :
    ¬ ∀ (b : ByteBuf) (key : CStr), key.1 ≠ [] → IsSearch key.1 b.bytes (b.search key.1) := by
  intro hall
  have hkey : (0 : UInt8) ∉ [98] := by decide
  have hne : ([98] : Bytes) ≠ [] := List.cons_ne_nil 98 []
  have hclear := (isSearch_search_iff _ hne).mp (hall (.holding [97, 0, 98]) ⟨[98], hkey⟩ hne)
  rw [ByteBuf.bytes_holding] at hclear
  have hclear : NulClear [98] [97, 0, 98] := hclear
  exact hclear 2 (by decide) (by decide)

end Spe
