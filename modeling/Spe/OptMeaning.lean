import Spe.OptReads
import Spe.Strip

/-!
# What a config file means to `spe_opt_create`

`lineMeans` is what the body of the loop makes of the bytes of a line: nothing, a section, a
pair or a line that rejects the file.  A line is any bytes; a NUL is trimmed like a blank, and
behind one `strstr` finds no `=`.  `entriesIn` are the entries of a file under the names that it
spells out.

`optCreate_means` connects the two: while the allocations succeed, the reads do not fail and no
NUL stands before a line end, `spe_opt_create` accepts exactly the files without a bad line, and
stores their entries, each as the arrays of `spe_opt_t` hold it.  It returns exactly when every
turn of its loop is defined (`optCreate_returns_iff`).
-/

namespace Spe

open Transition

/-- What a line means. -/
inductive LineMeaning
  | skip
  | header (name : Bytes)
  | pair (key val : Bytes)
  | bad
  deriving DecidableEq

/-- What stands between the `=`s of a line, without what is empty. -/
def equalsPieces (line : Bytes) : List Bytes := seenPieces 61 line

/-- The meaning of a line by its pieces. -/
def piecesMean : List Bytes → LineMeaning
  | [key, val] => .pair key val
  | _ => .bad

/-- The meaning of a line that has been trimmed. -/
def coreMeans (line : Bytes) : LineMeaning :=
  if line = [] ∨ line.head? = some 35 then .skip
  else if line.head? = some 91 ∧ line.getLast? = some 93 then
    let name := trimmed headerBlank line
    if name = [] then .bad else .header name
  else piecesMean ((equalsPieces line).map (trimmed space))

/-- The meaning of a line. -/
def lineMeans (line : Bytes) : LineMeaning := coreMeans (trimmed lineBlank line)

/-- A string as the C string functions see it in an array of `n` bytes. -/
def cutTo (n : Nat) (bs : Bytes) : Bytes := (cstr bs).take (n - 1)

/-- An entry as the arrays of `spe_opt_t` hold it. -/
def Entry.cut (e : Entry) : Entry :=
  ⟨cutTo SEC_MAXLEN e.sec, cutTo KEY_MAXLEN e.key, cutTo VAL_MAXLEN e.val⟩

namespace LineMeaning

/-- The section after a line. -/
def sectionAfter (cur : Bytes) : LineMeaning → Bytes
  | header name => name
  | _ => cur

/-- The entry of a line. -/
def entry (cur : Bytes) : LineMeaning → List Entry
  | pair key val => [⟨cur, key, val⟩]
  | _ => []

/-- What a line with the given meaning does to the loop of `spe_opt_create`, when the `calloc` for
an entry succeeds, and when it fails. -/
def Does (m : LineMeaning) (cur : Bytes) (options : List OptEntry) (stored : Bool)
    (done : LineDone) : Prop :=
  if m = .bad then done = .reject else
  ∃ sec' line' options', done = .next sec' line' options' ∧
    cstr sec' = cutTo SEC_MAXLEN (m.sectionAfter cur) ∧
    options'.map OptEntry.view = options.map OptEntry.view ++
      if stored then (m.entry cur).map Entry.cut else []

end LineMeaning

/-- The entries of lines behind the header `cur`. -/
def entriesFrom (cur : Bytes) : List Bytes → List Entry
  | [] => []
  | line :: lines =>
      (lineMeans line).entry cur ++ entriesFrom ((lineMeans line).sectionAfter cur) lines

/-- The entries of a file. -/
def entriesIn (content : Bytes) : List Entry := entriesFrom global.1 (linesOf content)

/-- No line of the file is bad. -/
def Readable (content : Bytes) : Prop := ∀ line ∈ linesOf content, lineMeans line ≠ .bad

/-! ## Strings in arrays -/

section Arrays

variable {n : Nat} {bs : Bytes}

/-- No NUL stands in it. -/
theorem cutTo_clean (n : Nat) (bs : Bytes) : (0 : UInt8) ∉ cutTo n bs :=
  fun hmem => nul_not_mem_cstr bs (List.mem_of_mem_take hmem)

/-- There is room for the NUL at its end. -/
theorem cutTo_length (hn : 0 < n) (bs : Bytes) : (cutTo n bs).length < n := by
  unfold cutTo
  rw [List.length_take]
  omega

/-- What fits is not cut. -/
theorem cutTo_of_fits (hclean : (0 : UInt8) ∉ bs) (hfits : bs.length < n) : cutTo n bs = bs := by
  unfold cutTo
  rw [cstr_of_clean hclean, List.take_of_length_le (Nat.le_sub_one_of_lt hfits)]

/-- The copy of a string into an array, with the NUL that `spe_opt_create` puts at its end. -/
theorem cstr_strncpyEnd_eq (hn : 0 < n) (src : Bytes) :
    cstr (strncpyEnd src n) = cutTo n src := by
  have hclean := nul_not_mem_cstr src
  have hseen := cstr_of_clean hclean
  unfold cutTo
  by_cases hfits : (cstr src).length < n
  · rw [cstr_strncpyEnd hfits, List.take_of_length_le (by omega)]
  · obtain ⟨m, rfl⟩ : ∃ m, n = m + 1 := ⟨n - 1, by omega⟩
    have hlen : ((cstr src).take m).length = m := List.length_take_of_le (by omega)
    have harray : strncpyEnd src (m + 1) = (cstr src).take m ++ [0] := by
      unfold strncpyEnd strncpy
      rw [Nat.sub_eq_zero_of_le (Nat.le_of_not_lt hfits), List.replicate_zero, List.append_nil,
        List.take_succ_eq_append_getElem (by omega), Nat.add_sub_cancel,
        List.set_append_right _ _ (by omega), hlen, Nat.sub_self]
      rfl
    have hpart : (0 : UInt8) ∉ (cstr src).take m := fun h => hclean (List.mem_of_mem_take h)
    rw [harray, cstr_terminated, cstr_of_clean hpart, Nat.add_sub_cancel]

end Arrays

/-- A window that has been terminated stands before a NUL. -/
theorem terminate_window {c : Buf} (hroom : c.off + c.len + 1 ≤ c.mem.length) :
    ∃ more, c.terminate.mem.drop c.off = c.terminate.content ++ 0 :: more := by
  have hnul : Block.slice c.terminate.mem (c.off + c.len) 1 = [0] := by
    rw [terminate_mem]
    exact Block.slice_overwrite_self hroom
  have hrest : c.terminate.mem.drop c.off =
      c.terminate.content ++ c.terminate.mem.drop (c.off + c.len) := by
    rw [Buf.content, Block.slice, ← List.drop_drop, terminate_off, terminate_len,
      List.take_append_drop]
  rw [Block.slice] at hnul
  cases htail : c.terminate.mem.drop (c.off + c.len) with
  | nil =>
      rw [htail] at hnul
      cases hnul
  | cons x more =>
      rw [htail] at hnul
      obtain rfl : x = 0 := (List.cons.inj hnul).1
      exact ⟨more, by rw [hrest, htail]⟩

/-- `spe_buf_lstrim` keeps the block. -/
theorem bufLstrim_isSome (b : Buf) (token : CStr) :
    (bufLstrim b token).start.isSome = b.start.isSome := by
  unfold bufLstrim bufLconsume
  dsimp only
  split
  · rw [terminate_isSome]
  · rfl

/-- **What `strncpy` gets.**  A trimmed buffer ends with a NUL also when nothing is left. -/
theorem ByteBuf.cstrAt_strim {b : ByteBuf} (token : CStr) (hnull : b.null = false) :
    (b.strim token).cstrAt 0 = cstr (trimmed token b.bytes) := by
  have hsome : (bufLstrim b.buf token).start.isSome := by
    rw [bufLstrim_isSome]
    simpa [ByteBuf.null] using hnull
  have hwf := (bufLstrim_spec b.wf token).1
  have hlen := content_length hwf
  have hroom := hwf.window hsome
  have hcap := hwf.cap
  have hshort : rstrimLoop token (bufLstrim b.buf token).content (bufLstrim b.buf token).len ≤
      (bufLstrim b.buf token).len := by
    rw [rstrimLoop_eq token (Nat.le_of_eq hlen.symm), ← hlen, List.take_length]
    exact (List.rdropWhile_prefix (strchr token) _).length_le
  obtain ⟨more, hmore⟩ := @terminate_window { bufLstrim b.buf token with
      len := rstrimLoop token (bufLstrim b.buf token).content (bufLstrim b.buf token).len } (by
    show (bufLstrim b.buf token).off + rstrimLoop token (bufLstrim b.buf token).content
      (bufLstrim b.buf token).len + 1 ≤ (bufLstrim b.buf token).mem.length
    omega)
  have hbytes := b.bytes_strim token
  have hseen : (b.strim token).cstrAt 0 = cstr ((b.strim token).bytes ++ 0 :: more) :=
    congrArg cstr hmore
  rw [hseen, hbytes, cstr_terminated]

/-- A trimmed string in an array. -/
theorem ByteBuf.copied_strim {b : ByteBuf} (token : CStr) {n : Nat} (hn : 0 < n)
    (hnull : b.null = false) :
    cstr (strncpyEnd ((b.strim token).cstrAt 0) n) = cutTo n (trimmed token b.bytes) := by
  rw [cstr_strncpyEnd_eq hn, b.cstrAt_strim token hnull]
  unfold cutTo
  rw [cstr_of_clean (nul_not_mem_cstr _)]

/-- A buffer is empty when it has no bytes. -/
theorem ByteBuf.empty_iff (b : ByteBuf) : b.buf.len = 0 ↔ b.bytes = [] := by
  rw [b.len_eq, List.length_eq_zero_iff]

/-! ## The body of the loop -/

/-- A line whose pieces are a key and a value has a meaning. -/
theorem piecesMean_eq_bad {pieces : List Bytes} : piecesMean pieces = .bad ↔ pieces.length ≠ 2 := by
  rcases pieces with _ | ⟨a, _ | ⟨b, _ | ⟨c, more⟩⟩⟩ <;> simp [piecesMean]

section Lines

variable {sec cur : Bytes} {line : ByteBuf} {options : List OptEntry} {env : LineEnv}
  {done : LineDone}

/-- **Pairs.**  What `spe_opt_create` makes of the pieces for which `spe_buf_split` has found a
buffer; these are all when it has found one for each. -/
theorem optPair_does (hsec : cstr sec = cutTo SEC_MAXLEN cur)
    (h : optPair sec line options env = some done) :
    ∃ qs, qs.Sublist (equalsPieces line.bytes) ∧
      (line.SplitOffers equals env.pieces (line.buf.len + 1) 0 Bufs.create ↔
        qs = equalsPieces line.bytes) ∧
      (piecesMean (qs.map (trimmed space))).Does cur options env.entry done := by
  obtain ⟨bufs, qs, hsplit, hlists, hsub, hoffers⟩ :=
    @ByteBuf.split_seen line equals 61 (line.buf.len + 1) env.pieces (by decide) rfl
      (by rw [line.len_eq]; exact Nat.lt_succ_self _)
  refine ⟨qs, hsub, hoffers, ?_⟩
  unfold optPair at h
  cases hbufs : env.bufs with
  | false =>
      rw [hbufs] at h
      cases h
  | true =>
      rw [hbufs, hsplit] at h
      dsimp only at h
      split at h
      · cases h
      split at h
      · -- not a key and a value
        rename_i hcount
        rw [hlists.len_eq] at hcount
        have hbad : piecesMean (qs.map (trimmed space)) = .bad := by
          rw [piecesMean_eq_bad, List.length_map]
          exact hcount
        unfold LineMeaning.Does
        rw [if_pos hbad]
        exact (Option.some.inj h).symm
      · rename_i hcount
        rw [hlists.len_eq] at hcount
        obtain ⟨key, val, rfl⟩ := List.length_eq_two.mp (not_not.mp hcount)
        obtain ⟨s, hkey⟩ := hlists.entry (i := 0) rfl
        obtain ⟨s', hval⟩ := hlists.entry (i := 1) rfl
        rw [hkey, hval] at h
        dsimp only at h
        split at h
        · cases h
        rename_i hnull
        obtain ⟨hknull, hvnull⟩ := not_or.mp hnull
        have hk := @ByteBuf.copied_strim _ space KEY_MAXLEN (by decide) (by simpa using hknull)
        have hv := @ByteBuf.copied_strim _ space VAL_MAXLEN (by decide) (by simpa using hvnull)
        rw [ByteBuf.copy_whole hknull] at hk
        rw [ByteBuf.copy_whole hvnull] at hv
        unfold LineMeaning.Does
        rw [if_neg (by simp [piecesMean])]
        refine ⟨_, _, _, (Option.some.inj h).symm, hsec, ?_⟩
        cases env.entry with
        | false => exact (List.append_nil _).symm
        | true =>
            rw [optSet_view, hsec, hk, hv]
            · rfl
            · rw [hsec]
              exact cutTo_length (by decide) _
            · rw [hk]
              exact cutTo_length (by decide) _
            · rw [hv]
              exact cutTo_length (by decide) _

/-- **Lines.**  A line that is not split does what it means, and the others do what the pieces mean
for which there has been a buffer. -/
theorem optLine_does (hsec : cstr sec = cutTo SEC_MAXLEN cur)
    (h : optLine sec line options env = some done) :
    (¬ Splits line.bytes → (coreMeans line.bytes).Does cur options true done) ∧
    (Splits line.bytes → ∃ qs, qs.Sublist (equalsPieces line.bytes) ∧
      (line.SplitOffers equals env.pieces (line.buf.len + 1) 0 Bufs.create ↔
        qs = equalsPieces line.bytes) ∧
      (piecesMean (qs.map (trimmed space))).Does cur options env.entry done) := by
  unfold optLine at h
  unfold coreMeans Splits
  by_cases hskip : line.bytes = [] ∨ line.bytes.head? = some 35
  · rw [if_pos (hskip.imp_left line.empty_iff.mpr)] at h
    rw [if_pos hskip]
    refine ⟨fun _ => ?_, fun hsplits => absurd hskip hsplits.1⟩
    exact ⟨sec, line, options, (Option.some.inj h).symm, hsec, (List.append_nil _).symm⟩
  have hgoes : ¬ (line.buf.len = 0 ∨ line.bytes.head? = some 35) :=
    fun h => hskip (h.imp_left line.empty_iff.mp)
  rw [if_neg hgoes] at h
  rw [if_neg hskip]
  by_cases hheader : line.bytes.head? = some 91 ∧ line.bytes.getLast? = some 93
  · rw [if_pos hheader] at h
    rw [if_pos hheader]
    refine ⟨fun _ => ?_, fun hsplits => absurd hheader hsplits.2⟩
    dsimp only at h ⊢
    have hleft : (line.strim headerBlank).buf.len = 0 ↔ trimmed headerBlank line.bytes = [] := by
      rw [ByteBuf.empty_iff, ByteBuf.bytes_strim]
    by_cases hname : trimmed headerBlank line.bytes = []
    · rw [if_pos (hleft.mpr hname)] at h
      rw [if_pos hname]
      exact (Option.some.inj h).symm
    · rw [if_neg (mt hleft.mp hname)] at h
      rw [if_neg hname]
      have hne : line.bytes ≠ [] := fun hnil => hskip (Or.inl hnil)
      refine ⟨_, line.strim headerBlank, options, (Option.some.inj h).symm, ?_,
        (List.append_nil _).symm⟩
      exact ByteBuf.copied_strim headerBlank (by decide) (ByteBuf.not_null hne)
  · rw [if_neg hheader] at h
    exact ⟨fun hsplits => absurd ⟨hskip, hheader⟩ hsplits, fun _ => optPair_does hsec h⟩

/-- A line that is split means what its pieces say. -/
theorem coreMeans_pieces {core : Bytes} (h : Splits core) :
    coreMeans core = piecesMean ((equalsPieces core).map (trimmed space)) := by
  unfold coreMeans
  rw [if_neg h.1, if_neg h.2]

/-- While the allocations succeed, the body of the loop does what the line means. -/
theorem optLine_means (hgood : env.Good) (hsec : cstr sec = cutTo SEC_MAXLEN cur)
    (h : optLine sec line options env = some done) :
    (coreMeans line.bytes).Does cur options true done := by
  obtain ⟨hother, hpair⟩ := optLine_does hsec h
  by_cases hsplits : Splits line.bytes
  · obtain ⟨qs, _, hoffers, hdoes⟩ := hpair hsplits
    rw [hoffers.mp (ByteBuf.splitOffers_good hgood.pieces _ _ _), hgood.entry] at hdoes
    rw [coreMeans_pieces hsplits]
    exact hdoes
  · exact hother hsplits

/-- While the allocations succeed, the body of the loop returns exactly when no size wraps where
the pieces are copied. -/
theorem optLine_isSome_iff (options : List OptEntry) (hgood : env.Good) :
    (optLine sec line options env).isSome ↔
      (Splits line.bytes →
        ∀ piece ∈ equalsPieces line.bytes, 25 * (piece.length + 1) < 2 ^ 32) := by
  unfold optLine Splits
  by_cases hskip : line.bytes = [] ∨ line.bytes.head? = some 35
  · rw [if_pos (hskip.imp_left line.empty_iff.mpr)]
    exact ⟨fun _ hsplits => absurd hskip hsplits.1, fun _ => rfl⟩
  have hgoes : ¬ (line.buf.len = 0 ∨ line.bytes.head? = some 35) :=
    fun h => hskip (h.imp_left line.empty_iff.mp)
  rw [if_neg hgoes]
  by_cases hheader : line.bytes.head? = some 91 ∧ line.bytes.getLast? = some 93
  · rw [if_pos hheader]
    refine ⟨fun _ hsplits => absurd hheader hsplits.2, fun _ => ?_⟩
    dsimp only
    split <;> rfl
  rw [if_neg hheader]
  obtain ⟨bufs, qs, hsplit, hlists, _, hoffers⟩ :=
    @ByteBuf.split_seen line equals 61 (line.buf.len + 1) env.pieces (by decide) rfl
      (by rw [line.len_eq]; exact Nat.lt_succ_self _)
  obtain rfl := hoffers.mp (ByteBuf.splitOffers_good hgood.pieces _ _ _)
  have hshort : bufs.Short ↔
      ∀ piece ∈ equalsPieces line.bytes, 25 * (piece.length + 1) < 2 ^ 32 := by
    unfold Bufs.Short
    rw [hlists.strings hgood.pieces, List.forall_mem_map]
    exact forall₂_congr fun piece _ => by simp
  have hnull : ∀ p s, (ByteBuf.create.copy p (env.pieces s).copy).1.null = false :=
    fun p s => ByteBuf.create.copy_not_null p (hgood.pieces s).copy
  rw [forall_prop_of_true ⟨hskip, hheader⟩, ← hshort]
  unfold optPair
  rw [hgood.bufs, hsplit]
  dsimp only
  by_cases hfits : bufs.Short
  · rw [if_neg (not_not.mpr hfits)]
    refine iff_of_true ?_ hfits
    split
    · rfl
    · rename_i hcount
      rw [hlists.len_eq] at hcount
      obtain ⟨key, val, heq⟩ := List.length_eq_two.mp (not_not.mp hcount)
      rw [heq] at hlists
      obtain ⟨s, hkey⟩ := hlists.entry (i := 0) rfl
      obtain ⟨s', hval⟩ := hlists.entry (i := 1) rfl
      rw [hkey, hval]
      dsimp only
      rw [hnull, hnull, if_neg (by simp)]
      rfl
  · rw [if_pos hfits]
    exact iff_of_false (by simp) hfits

end Lines

namespace LineMeaning

variable {m : LineMeaning} {cur : Bytes} {options : List OptEntry} {stored : Bool}

/-- Only a bad line rejects the file. -/
theorem does_reject : m.Does cur options stored .reject ↔ m = .bad := by
  unfold Does
  constructor
  · intro h
    by_contra hnot
    rw [if_neg hnot] at h
    obtain ⟨_, _, _, hdone, _⟩ := h
    cases hdone
  · exact fun h => (if_pos h).symm ▸ rfl

/-- What the others leave. -/
theorem does_next {sec : Bytes} {line : ByteBuf} {options' : List OptEntry} :
    m.Does cur options stored (.next sec line options') ↔
      m ≠ .bad ∧ cstr sec = cutTo SEC_MAXLEN (m.sectionAfter cur) ∧
        options'.map OptEntry.view = options.map OptEntry.view ++
          if stored then (m.entry cur).map Entry.cut else [] := by
  unfold Does
  by_cases hbad : m = .bad
  · rw [if_pos hbad]
    exact ⟨nofun, fun h => absurd hbad h.1⟩
  · rw [if_neg hbad, and_iff_right hbad]
    constructor
    · rintro ⟨_, _, _, hdone, hleft⟩
      obtain ⟨rfl, _, rfl⟩ := LineDone.next.inj hdone
      exact hleft
    · exact fun hleft => ⟨sec, line, options', rfl, hleft⟩

end LineMeaning

/-! ## The loop -/

/-- The line end is trimmed with the line. -/
theorem lineMeans_newline (line : Bytes) : lineMeans (line ++ [10]) = lineMeans line := by
  have hend : ∀ c ∈ ([10] : Bytes), strchr lineBlank c = true := by
    intro c hc
    obtain rfl := List.mem_singleton.mp hc
    rfl
  have htrim : trimmed lineBlank (line ++ [10]) = trimmed lineBlank line := by
    have hpad := @Strip.strip_padded _ (strchr lineBlank) [] [10] line (by simp) hend
    rwa [List.nil_append] at hpad
  unfold lineMeans
  rw [htrim]

/-- What `spe_opt_create` returns on lines behind the header `cur`: it accepts them when none is
bad, and then their entries stand behind the options. -/
structure LoopMeans (cur : Bytes) (options : List OptEntry) (lines : List Bytes)
    (out : Bool × List OptEntry) : Prop where
  accepts : out.1 = true ↔ ∀ line ∈ lines, lineMeans line ≠ .bad
  entries : out.1 = true →
    out.2.map OptEntry.view = options.map OptEntry.view ++ (entriesFrom cur lines).map Entry.cut

/-- A bad line ends the loop. -/
theorem LoopMeans.reject {cur line : Bytes} (options : List OptEntry) (lines : List Bytes)
    (h : lineMeans line = .bad) : LoopMeans cur options (line :: lines) (false, options) := by
  constructor
  · constructor
    · rintro ⟨⟩
    · intro hall
      exact absurd h (hall line List.mem_cons_self)
  · rintro ⟨⟩

/-- The last line. -/
theorem LoopMeans.last {cur line : Bytes} {options options' : List OptEntry}
    (hgood : lineMeans line ≠ .bad)
    (hview : options'.map OptEntry.view =
      options.map OptEntry.view ++ ((lineMeans line).entry cur).map Entry.cut) :
    LoopMeans cur options [line] (true, options') := by
  constructor
  · simp [hgood]
  · intro _
    rw [hview, entriesFrom, entriesFrom, List.append_nil]

/-- A line before others. -/
theorem LoopMeans.cons {cur line : Bytes} {lines : List Bytes} {options options' : List OptEntry}
    {out : Bool × List OptEntry} (hgood : lineMeans line ≠ .bad)
    (hview : options'.map OptEntry.view =
      options.map OptEntry.view ++ ((lineMeans line).entry cur).map Entry.cut)
    (h : LoopMeans ((lineMeans line).sectionAfter cur) options' lines out) :
    LoopMeans cur options (line :: lines) out := by
  constructor
  · rw [h.accepts, List.forall_mem_cons]
    exact (and_iff_right hgood).symm
  · intro hok
    rw [h.entries hok, hview, entriesFrom, List.map_append, List.append_assoc]

namespace OptTurn

variable {t : OptTurn} {r : IoResult} {done : LineDone}

/-- The text of a turn is the first of the lines that remain. -/
theorem whole_line (hready : t.io.Ready t.line) (hgood : t.env.Good)
    (hclear : EndsClear t.remaining) (hr : t.result = some r) :
    ∃ l, lineMeans t.text = lineMeans l ∧
      ((0 < r.ret ∧ linesOf t.remaining = l :: linesOf (r.io.rbuf.bytes ++ r.fd.rest) ∧
          EndsClear (r.io.rbuf.bytes ++ r.fd.rest) ∧
          (ShortLines t.remaining → ShortLines (r.io.rbuf.bytes ++ r.fd.rest))) ∨
        (¬ 0 < r.ret ∧ linesOf t.remaining = [l])) := by
  obtain ⟨handed, hhands⟩ := hands hready hr
  have hturn := undisturbed_of_good hready hgood hr
  have htext := (hhands.undisturbed.mp hturn).1
  by_cases hpos : 0 < r.ret
  · obtain ⟨_, _, l, rfl, hl, _⟩ := hhands.line hpos
    have hrem : t.remaining = l ++ 10 :: (r.io.rbuf.bytes ++ r.fd.rest) := by
      rw [hhands.parts, List.append_assoc]
      rfl
    rw [hrem] at hclear ⊢
    refine ⟨l, by rw [htext, lineMeans_newline], Or.inl ⟨hpos, linesOf_line _ hl, ?_, ?_⟩⟩
    · exact ((endsClear_line _ hl).mp hclear).2
    · exact fun hshort => ((shortLines_line _ hl).mp hshort).2
  · obtain ⟨hframe, _⟩ := hhands.last hpos
    rw [hhands.whole hturn hpos] at hclear ⊢
    exact ⟨handed, by rw [htext], Or.inr ⟨hpos, linesOf_last (no_line hframe hclear)⟩⟩

/-- While the allocations succeed, a turn does what its text means. -/
theorem done_means {cur : Bytes} (hgood : t.env.Good) (hsec : cstr t.sec = cutTo SEC_MAXLEN cur)
    (h : t.done = some (r, done)) : (lineMeans t.text).Does cur t.options true done := by
  obtain ⟨_, _, htext, _, _, hline⟩ := done_spec h
  have hdoes := optLine_means hgood hsec hline
  rw [ByteBuf.bytes_strim, ← htext] at hdoes
  exact hdoes

/-- **Defined turns.**  When the allocations succeed, and `read` delivers often enough and is at
most interrupted, a turn is done exactly when it is defined. -/
theorem done_isSome_iff (hready : t.io.Ready t.line) (hgood : t.env.Good)
    (hmany : t.fd.rest.length < deliveries t.env.cuts) : t.done.isSome ↔ t.Defined := by
  obtain ⟨r, hr, hnull⟩ := returns_of_good hready hgood hmany
  have hbody : t.body.isSome ↔ (Splits (trimmed lineBlank t.text) →
      ∀ piece ∈ seenPieces 61 (trimmed lineBlank t.text), 25 * (piece.length + 1) < 2 ^ 32) := by
    have htext : trimmed lineBlank t.text = (r.buf.strim lineBlank).bytes := by
      unfold OptTurn.text
      rw [hr, ByteBuf.bytes_strim]
      rfl
    unfold OptTurn.body
    rw [hr, Option.bind_some, hnull, if_neg (by simp), optLine_isSome_iff _ hgood, htext]
    rfl
  unfold OptTurn.done
  by_cases hdefined : t.io.CallDefined t.fd t.call
  · rw [if_pos hdefined, hr, Option.bind_some, Option.isSome_map, hbody]
    exact ⟨fun h => ⟨hdefined, h⟩, fun h => h.pieces⟩
  · rw [if_neg hdefined]
    exact iff_of_false (by simp) fun h => hdefined h.call

end OptTurn

section Loop

variable {sec cur : Bytes} {io : Io} {line : ByteBuf} {fd : Descriptor} {options : List OptEntry}
  {envs : List LineEnv}

/-- **The loop** does what the lines mean that remain. -/
theorem optLoop_means (hready : io.Ready line) (hclear : EndsClear (io.rbuf.bytes ++ fd.rest))
    (hsec : cstr sec = cutTo SEC_MAXLEN cur) (hgood : ∀ env ∈ envs, env.Good)
    {out : Bool × List OptEntry} (hrun : optLoop sec io line fd options envs = some out) :
    LoopMeans cur options (linesOf (io.rbuf.bytes ++ fd.rest)) out := by
  induction envs generalizing sec cur io line fd options with
  | nil => cases hrun
  | cons env envs ih =>
      have henv := hgood env List.mem_cons_self
      rcases OptTurn.turn_cases ⟨sec, io, line, fd, options, env⟩ envs with
        ⟨_, hloop, _⟩ | ⟨r, hdone, hloop, _⟩ | ⟨r, sec', line', options', hdone, hlast, hloop, _⟩ |
        ⟨r, sec', line', options', hdone, hpos, hloop, _⟩
      · cases hloop.symm.trans hrun
      all_goals
        obtain ⟨_, hr, _⟩ := OptTurn.done_spec hdone
        obtain ⟨l, hmeans, hrem⟩ :=
          @OptTurn.whole_line ⟨sec, io, line, fd, options, env⟩ r hready henv hclear hr
        have hdoes := OptTurn.done_means henv hsec hdone
        rw [hmeans] at hdoes
      · obtain rfl := Option.some.inj (hloop.symm.trans hrun)
        have hbad := LineMeaning.does_reject.mp hdoes
        rcases hrem with ⟨_, hlines, _⟩ | ⟨_, hlines⟩
        · rw [show linesOf (io.rbuf.bytes ++ fd.rest) = _ from hlines]
          exact .reject options _ hbad
        · rw [show linesOf (io.rbuf.bytes ++ fd.rest) = _ from hlines]
          exact .reject options _ hbad
      · obtain rfl := Option.some.inj (hloop.symm.trans hrun)
        obtain ⟨hok, _, hview⟩ := LineMeaning.does_next.mp hdoes
        rcases hrem with ⟨hpos, _⟩ | ⟨_, hlines⟩
        · exact absurd hpos hlast
        · rw [show linesOf (io.rbuf.bytes ++ fd.rest) = _ from hlines]
          exact .last hok hview
      · obtain ⟨hok, hsec', hview⟩ := LineMeaning.does_next.mp hdoes
        rcases hrem with ⟨_, hlines, hlater, _⟩ | ⟨hlast, _⟩
        · rw [show linesOf (io.rbuf.bytes ++ fd.rest) = _ from hlines]
          refine .cons hok hview ?_
          exact ih (OptTurn.ready_next hready hdone hpos) hlater hsec'
            (fun env henv => hgood env (List.mem_cons_of_mem _ henv)) (hloop.symm.trans hrun)
        · exact absurd hpos hlast

/-- **Returning.**  When there are enough lines and reads, the loop returns exactly when every turn
is defined. -/
theorem optLoop_returns_iff (hready : io.Ready line) (hclear : EndsClear (io.rbuf.bytes ++ fd.rest))
    (hgood : ∀ env ∈ envs, env.Good)
    (hlen : (linesOf (io.rbuf.bytes ++ fd.rest)).length ≤ envs.length)
    (hmany : ∀ env ∈ envs, fd.rest.length < deliveries env.cuts) :
    (optLoop sec io line fd options envs).isSome ↔
      ∀ t ∈ optTurns sec io line fd options envs, t.Defined := by
  induction envs generalizing sec io line fd options with
  | nil =>
      have hsome : linesOf (io.rbuf.bytes ++ fd.rest) ≠ [] := List.splitOn_ne_nil _ _
      exact absurd (List.length_eq_zero_iff.mp (Nat.le_zero.mp hlen)) hsome
  | cons env envs ih =>
      have henv := hgood env List.mem_cons_self
      have hdefined := @OptTurn.done_isSome_iff ⟨sec, io, line, fd, options, env⟩ hready henv
        (hmany env List.mem_cons_self)
      rcases OptTurn.turn_cases ⟨sec, io, line, fd, options, env⟩ envs with
        ⟨hdone, hloop, hturns⟩ | ⟨r, hdone, hloop, hturns⟩ |
        ⟨r, sec', line', options', hdone, _, hloop, hturns⟩ |
        ⟨r, sec', line', options', hdone, hpos, hloop, hturns⟩
      all_goals
        dsimp only at hloop hturns
        rw [hdone] at hdefined
        rw [hloop, hturns]
      · rw [List.forall_mem_singleton]
        exact hdefined
      · rw [List.forall_mem_singleton]
        exact hdefined
      · rw [List.forall_mem_singleton]
        exact hdefined
      · rw [List.forall_mem_cons, and_iff_right (hdefined.mp rfl)]
        obtain ⟨_, hr, _⟩ := OptTurn.done_spec hdone
        obtain ⟨handed, hhands⟩ := OptTurn.hands hready hr
        obtain ⟨l, _, hrem⟩ :=
          @OptTurn.whole_line ⟨sec, io, line, fd, options, env⟩ r hready henv hclear hr
        rcases hrem with ⟨_, hlines, hlater, _⟩ | ⟨hlast, _⟩
        · rw [show linesOf (io.rbuf.bytes ++ fd.rest) = _ from hlines] at hlen
          refine ih (OptTurn.ready_next hready hdone hpos) hlater
            (fun env henv => hgood env (List.mem_cons_of_mem _ henv))
              (Nat.le_of_succ_le_succ hlen) ?_
          exact fun env henv =>
            Nat.lt_of_le_of_lt hhands.rest (hmany env (List.mem_cons_of_mem _ henv))
        · exact absurd hpos hlast

/-- **Short lines.**  On short lines every turn is defined. -/
theorem optTurns_defined (hready : io.Ready line) (hclear : EndsClear (io.rbuf.bytes ++ fd.rest))
    (hshort : ShortLines (io.rbuf.bytes ++ fd.rest)) (hgood : ∀ env ∈ envs, env.Good) :
    ∀ t ∈ optTurns sec io line fd options envs, t.Defined := by
  induction envs generalizing sec io line fd options with
  | nil => exact fun t ht => absurd ht List.not_mem_nil
  | cons env envs ih =>
      have henv := hgood env List.mem_cons_self
      have hdefined :=
        @OptTurn.defined_of_short ⟨sec, io, line, fd, options, env⟩ hready henv hclear hshort
      rcases OptTurn.turn_cases ⟨sec, io, line, fd, options, env⟩ envs with
        ⟨_, _, hturns⟩ | ⟨_, _, _, hturns⟩ | ⟨_, _, _, _, _, _, _, hturns⟩ |
        ⟨r, sec', line', options', hdone, hpos, _, hturns⟩
      all_goals
        dsimp only at hturns
        rw [hturns]
      · exact List.forall_mem_singleton.mpr hdefined
      · exact List.forall_mem_singleton.mpr hdefined
      · exact List.forall_mem_singleton.mpr hdefined
      · rw [List.forall_mem_cons]
        refine ⟨hdefined, ?_⟩
        obtain ⟨_, hr, _⟩ := OptTurn.done_spec hdone
        obtain ⟨l, _, hrem⟩ :=
          @OptTurn.whole_line ⟨sec, io, line, fd, options, env⟩ r hready henv hclear hr
        rcases hrem with ⟨_, _, hlater, hshorter⟩ | ⟨hlast, _⟩
        · exact ih (OptTurn.ready_next hready hdone hpos) hlater (hshorter hshort)
            fun env henv => hgood env (List.mem_cons_of_mem _ henv)
        · exact absurd hpos hlast

end Loop

/-- The turns of `spe_opt_create` on a file. -/
def fileTurns (content : Bytes) (before : List OptEntry) (envs : List LineEnv) : List OptTurn :=
  optTurns (strncpy global.1 SEC_MAXLEN) Io.create .create ⟨content, 0⟩ before envs

section Files

variable {content : Bytes} {envs : List LineEnv}

/-- The section at the start of a file. -/
theorem cstr_global : cstr (strncpy global.1 SEC_MAXLEN) = cutTo SEC_MAXLEN global.1 := by decide

/-- **What a config file means.**  On a file without NUL before a line end, while the allocations
succeed and the reads do not fail, `spe_opt_create` returns true when no line is bad and false
otherwise, and an accepted file leaves its entries in the options, as their arrays hold them. -/
theorem optCreate_means (hclear : EndsClear content) (hgood : ∀ env ∈ envs, env.Good)
    {out : Bool × List OptEntry}
    (hrun : optCreate (some Io.create) (some .create) ⟨content, 0⟩ [] envs = some out) :
    (out.1 = true ↔ Readable content) ∧
    (out.1 = true → out.2.map OptEntry.view = (entriesIn content).map Entry.cut) := by
  obtain ⟨haccepts, hentries⟩ := @optLoop_means _ _ _ _ ⟨content, 0⟩ _ _ Io.ready_create hclear
    cstr_global hgood _ hrun
  exact ⟨haccepts, hentries⟩

/-- When there are enough lines and reads, `spe_opt_create` returns exactly when no size computation
of a turn wraps. -/
theorem optCreate_returns_iff (hclear : EndsClear content) (hgood : ∀ env ∈ envs, env.Good)
    (hlen : (linesOf content).length ≤ envs.length)
    (hmany : ∀ env ∈ envs, content.length < deliveries env.cuts) :
    (optCreate (some Io.create) (some .create) ⟨content, 0⟩ [] envs).isSome ↔
      ∀ t ∈ fileTurns content [] envs, t.Defined :=
  @optLoop_returns_iff _ _ _ ⟨content, 0⟩ _ _ Io.ready_create hclear hgood hlen hmany

/-- On short lines none does. -/
theorem fileTurns_defined (before : List OptEntry) (hclear : EndsClear content)
    (hshort : ShortLines content) (hgood : ∀ env ∈ envs, env.Good) :
    ∀ t ∈ fileTurns content before envs, t.Defined :=
  @optTurns_defined _ _ _ ⟨content, 0⟩ _ _ Io.ready_create hclear hshort hgood

/-- A line for which `read` delivers often enough, one byte at a time. -/
def readsFor (n : Nat) : LineEnv :=
  let fresh : Alloc := some fun _ => 0
  ⟨fresh, List.replicate n (.deliver 0, fresh), true, fun _ => ⟨true, true, fresh⟩, true⟩

theorem readsFor_good (n : Nat) : (readsFor n).Good := by
  refine ⟨rfl, ?_, rfl, fun _ => ⟨rfl, rfl, rfl⟩, rfl⟩
  intro c hc
  obtain rfl := List.eq_of_mem_replicate hc
  simp

theorem deliveries_readsFor (n : Nat) : deliveries (readsFor n).cuts = n := by
  unfold deliveries readsFor
  rw [List.countP_replicate]
  rfl

/-- Lines and reads that are enough for a file. -/
def readsOf (content : Bytes) : List LineEnv :=
  List.replicate (linesOf content).length (readsFor (content.length + 1))

theorem readsOf_enough (content : Bytes) :
    (∀ env ∈ readsOf content, env.Good) ∧ (linesOf content).length ≤ (readsOf content).length ∧
      ∀ env ∈ readsOf content, content.length < deliveries env.cuts := by
  refine ⟨?_, by rw [readsOf, List.length_replicate], ?_⟩
  · intro env henv
    obtain rfl := List.eq_of_mem_replicate henv
    exact readsFor_good _
  · intro env henv
    obtain rfl := List.eq_of_mem_replicate henv
    rw [deliveries_readsFor]
    exact Nat.lt_succ_self _

end Files

end Spe
