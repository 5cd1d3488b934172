import Spe.OptMeaning

/-!
# Whether a config file is read as a whole

The loop of `spe_opt_create` returns true whichever way `spe_io_readuntil` has ended it, and it
looks at the result of neither `spe_buf_split` nor `spe_opt_set`.  So a file may be accepted of
which a part has not been read, or a line has been read and lost.

In a run that returns true the loop gets the lines of the file, each with its end, and does what
each of them means, exactly when no turn was disturbed (`OptTurn.Undisturbed`), no NUL stands before
a line end, and there was memory for the pieces and the entry of each pair (`OptTurn.Affords`).
-/

namespace Spe

open Transition

namespace OptTurn

variable (t : OptTurn)

/-- The body of the loop does what its text means. -/
def Processed : Prop :=
  ∃ done, t.body = some done ∧ (lineMeans t.text).Does (cstr t.sec) t.options true done

/-- When the line goes to `spe_buf_split`, there are buffers for its pieces, and memory for its
entry. -/
def Affords : Prop :=
  ∀ r, t.result = some r → Splits (r.buf.strim lineBlank).bytes →
    (r.buf.strim lineBlank).SplitOffers equals t.env.pieces
      ((r.buf.strim lineBlank).buf.len + 1) 0 Bufs.create ∧ t.env.entry = true

end OptTurn

/-- What a run of `spe_opt_create` that returns true is for: it has read every line of the file with
its end, up to the real end of the file, and done what it means. -/
structure AcceptedWhole (content : Bytes) (before : List OptEntry) (envs : List LineEnv) :
    Prop where
  read : (fileTurns content before envs).map OptTurn.text = withEnds (linesOf content)
  processed : ∀ t ∈ fileTurns content before envs, t.Processed

namespace OptTurn

variable {t : OptTurn} {r : IoResult} {sec : Bytes} {line : ByteBuf} {options : List OptEntry}

/-- A turn that others may follow leaves a section that fits its array. -/
theorem sec_next (hsec : (cstr t.sec).length < SEC_MAXLEN)
    (h : t.done = some (r, .next sec line options)) : (cstr sec).length < SEC_MAXLEN := by
  obtain ⟨_, _, _, _, _, hline⟩ := done_spec h
  have hcur : cstr t.sec = cutTo SEC_MAXLEN (cstr t.sec) :=
    (cutTo_of_fits (nul_not_mem_cstr _) hsec).symm
  obtain ⟨hother, hpair⟩ := optLine_does hcur hline
  have hleft : ∀ {m : LineMeaning} {stored : Bool},
      m.Does (cstr t.sec) t.options stored (.next sec line options) →
      (cstr sec).length < SEC_MAXLEN := by
    intro m stored hdoes
    rw [(LineMeaning.does_next.mp hdoes).2.1]
    exact cutTo_length (by decide) _
  by_cases hsplits : Splits (r.buf.strim lineBlank).bytes
  · obtain ⟨qs, _, _, hdoes⟩ := hpair hsplits
    exact hleft hdoes
  · exact hleft (hother hsplits)

/-- **Processing.**  A turn that does not reject the file does what its text means exactly when
there is memory for it. -/
theorem processed_iff (hsec : (cstr t.sec).length < SEC_MAXLEN)
    (h : t.done = some (r, .next sec line options)) : t.Processed ↔ t.Affords := by
  obtain ⟨_, hr, htext, _, hbody, hline⟩ := done_spec h
  have hcur : cstr t.sec = cutTo SEC_MAXLEN (cstr t.sec) :=
    (cutTo_of_fits (nul_not_mem_cstr _) hsec).symm
  obtain ⟨hother, hpair⟩ := optLine_does hcur hline
  have hmeans : lineMeans t.text = coreMeans (r.buf.strim lineBlank).bytes := by
    rw [ByteBuf.bytes_strim, ← htext]
    rfl
  have hprocessed : t.Processed ↔ (coreMeans (r.buf.strim lineBlank).bytes).Does (cstr t.sec)
      t.options true (.next sec line options) := by
    unfold Processed
    rw [hmeans]
    constructor
    · rintro ⟨done, hdone, hdoes⟩
      obtain rfl := Option.some.inj (hbody.symm.trans hdone)
      exact hdoes
    · exact fun hdoes => ⟨_, hbody, hdoes⟩
  have hafford : t.Affords ↔ (Splits (r.buf.strim lineBlank).bytes →
      (r.buf.strim lineBlank).SplitOffers equals t.env.pieces
        ((r.buf.strim lineBlank).buf.len + 1) 0 Bufs.create ∧ t.env.entry = true) := by
    unfold Affords
    constructor
    · exact fun hall => hall r hr
    · intro hall r' hr'
      obtain rfl := Option.some.inj (hr.symm.trans hr')
      exact hall
  rw [hprocessed, hafford]
  by_cases hsplits : Splits (r.buf.strim lineBlank).bytes
  · rw [forall_prop_of_true hsplits]
    obtain ⟨qs, hsub, hoffers, hdoes⟩ := hpair hsplits
    rw [hoffers, coreMeans_pieces hsplits]
    obtain ⟨hqs, _, hview⟩ := LineMeaning.does_next.mp hdoes
    have htwo : qs.length = 2 := by
      rw [Ne, piecesMean_eq_bad, List.length_map] at hqs
      exact not_not.mp hqs
    constructor
    · intro hwhole
      obtain ⟨hall, _, hstored⟩ := LineMeaning.does_next.mp hwhole
      have hpieces : qs = equalsPieces (r.buf.strim lineBlank).bytes := by
        rw [Ne, piecesMean_eq_bad, List.length_map] at hall
        exact hsub.eq_of_length (htwo.trans (not_not.mp hall).symm)
      refine ⟨hpieces, ?_⟩
      -- without memory for the entry the options are as before
      by_contra hnot
      rw [if_neg hnot] at hview
      rw [if_pos rfl, hview, ← hpieces] at hstored
      obtain ⟨key, val, rfl⟩ := List.length_eq_two.mp htwo
      have hlen := congrArg List.length hstored
      simp [piecesMean, LineMeaning.entry] at hlen
    · rintro ⟨hpieces, hentry⟩
      rw [hpieces, hentry] at hdoes
      exact hdoes
  · exact iff_of_true (hother hsplits) fun h => absurd h hsplits

/-- The last turn of a run that returns true. -/
theorem Hands.last_iff {handed : Bytes} (h : t.Hands r handed) (hlast : ¬ 0 < r.ret) :
    [t.text] = withEnds (linesOf t.remaining) ↔ t.Undisturbed ∧ EndsClear t.remaining := by
  obtain ⟨hframe, hrbuf, _⟩ := h.last hlast
  have hparts := h.parts
  rw [hrbuf, List.nil_append] at hparts
  by_cases hline : (10 : UInt8) ∈ t.remaining
  · -- a line end is left: the text is not all, or a NUL hides the line end
    constructor
    · intro htexts
      obtain ⟨l, later, hsplit, hl⟩ := List.eq_append_cons_of_mem hline
      rw [hsplit, linesOf_line later hl, withEnds_line] at htexts
      obtain ⟨next, lines, hlines⟩ :=
        List.exists_cons_of_ne_nil (List.splitOn_ne_nil (10 : UInt8) later)
      have hrest : withEnds (linesOf later) = [] := (List.cons.inj htexts).2.symm
      have hlines : linesOf later = next :: lines := hlines
      rw [hlines] at hrest
      cases lines <;> cases hrest
    · rintro ⟨hturn, hclear⟩
      have hall := h.whole hturn hlast
      rw [hall] at hclear hline
      exact absurd hline (no_line hframe hclear)
  · have hclear : EndsClear t.remaining := by
      unfold EndsClear
      rw [linesOf_last hline]
      exact fun line hmem => absurd hmem List.not_mem_nil
    rw [linesOf_last hline, withEnds, and_iff_left hclear]
    constructor
    · intro htexts
      have htext : t.text = handed ++ r.fd.rest := (List.cons.inj htexts).1.trans hparts
      rw [h.undisturbed]
      rcases h.text with hhanded | hnil
      · rw [hhanded] at htext
        exact ⟨hhanded, fun _ => List.append_cancel_left (by rw [← htext, List.append_nil])⟩
      · rw [hnil] at htext
        obtain ⟨hnone, hrest⟩ := List.append_eq_nil_iff.mp htext.symm
        exact ⟨by rw [hnil, hnone], fun _ => hrest⟩
    · intro hturn
      rw [(h.undisturbed.mp hturn).1, h.whole hturn hlast]

/-- A turn before others, in a run that returns true. -/
theorem Hands.line_iff {handed : Bytes} (h : t.Hands r handed) (hpos : 0 < r.ret)
    {texts : List Bytes} {later : Prop}
    (hnext : texts = withEnds (linesOf (r.io.rbuf.bytes ++ r.fd.rest)) ↔
      later ∧ EndsClear (r.io.rbuf.bytes ++ r.fd.rest)) :
    t.text :: texts = withEnds (linesOf t.remaining) ↔
      (t.Undisturbed ∧ later) ∧ EndsClear t.remaining := by
  obtain ⟨_, _, l, rfl, hl, hnul⟩ := h.line hpos
  have hparts : t.remaining = l ++ 10 :: (r.io.rbuf.bytes ++ r.fd.rest) := by
    rw [h.parts, List.append_assoc]
    rfl
  have hundisturbed : t.Undisturbed ↔ t.text = l ++ [10] := by
    rw [h.undisturbed]
    exact and_iff_left fun hneg => by omega
  rw [hparts, endsClear_line _ hl, linesOf_line _ hl, withEnds_line, List.cons.injEq,
    ← hundisturbed, hnext, and_iff_right hnul, and_assoc]

end OptTurn

section Runs

variable {sec : Bytes} {io : Io} {line : ByteBuf} {fd : Descriptor}
  {options options' : List OptEntry}
  {envs : List LineEnv}

/-- **Turns.**  What holds of every turn that does not reject the file holds of all turns of a run
that returns true. -/
theorem optTurns_all {P : OptTurn → Prop} (hready : io.Ready line)
    (hsec : (cstr sec).length < SEC_MAXLEN)
    (hrun : optLoop sec io line fd options envs = some (true, options'))
    (hturn : ∀ t : OptTurn, t.env ∈ envs → t.io.Ready t.line → (cstr t.sec).length < SEC_MAXLEN →
      ∀ r sec line options, t.done = some (r, .next sec line options) → P t) :
    ∀ t ∈ optTurns sec io line fd options envs, P t := by
  induction envs generalizing sec io line fd options with
  | nil => cases hrun
  | cons env envs ih =>
      have hfirst := hturn ⟨sec, io, line, fd, options, env⟩ List.mem_cons_self hready hsec
      rcases OptTurn.turn_cases ⟨sec, io, line, fd, options, env⟩ envs with
        ⟨_, hloop, _⟩ | ⟨_, _, hloop, _⟩ | ⟨r, sec', line', options₁, hdone, _, _, hturns⟩ |
        ⟨r, sec', line', options₁, hdone, hpos, hloop, hturns⟩
      · cases hloop.symm.trans hrun
      · cases Option.some.inj (hloop.symm.trans hrun)
      · dsimp only at hturns
        rw [hturns, List.forall_mem_singleton]
        exact hfirst _ _ _ _ hdone
      · dsimp only at hturns
        rw [hturns, List.forall_mem_cons]
        refine ⟨hfirst _ _ _ _ hdone, ?_⟩
        exact ih (OptTurn.ready_next hready hdone hpos) (OptTurn.sec_next hsec hdone)
          (hloop.symm.trans hrun) fun t ht => hturn t (List.mem_cons_of_mem _ ht)

/-- **Texts.**  In a run that returns true the body of the loop gets the lines of what remains
exactly when no turn is disturbed and no NUL stands before a line end. -/
theorem optTurns_texts (hready : io.Ready line)
    (hrun : optLoop sec io line fd options envs = some (true, options')) :
    (optTurns sec io line fd options envs).map OptTurn.text =
        withEnds (linesOf (io.rbuf.bytes ++ fd.rest)) ↔
      (∀ t ∈ optTurns sec io line fd options envs, t.Undisturbed) ∧
        EndsClear (io.rbuf.bytes ++ fd.rest) := by
  induction envs generalizing sec io line fd options with
  | nil => cases hrun
  | cons env envs ih =>
      rcases OptTurn.turn_cases ⟨sec, io, line, fd, options, env⟩ envs with
        ⟨_, hloop, _⟩ | ⟨_, _, hloop, _⟩ | ⟨r, sec', line', options₁, hdone, hlast, _, hturns⟩ |
        ⟨r, sec', line', options₁, hdone, hpos, hloop, hturns⟩
      · cases hloop.symm.trans hrun
      · cases Option.some.inj (hloop.symm.trans hrun)
      all_goals
        obtain ⟨_, hr, _⟩ := OptTurn.done_spec hdone
        obtain ⟨handed, hhands⟩ := OptTurn.hands hready hr
        dsimp only at hturns
        rw [hturns]
      · rw [List.map_singleton, List.forall_mem_singleton]
        exact hhands.last_iff hlast
      · rw [List.map_cons, List.forall_mem_cons]
        exact hhands.line_iff hpos
          (ih (OptTurn.ready_next hready hdone hpos) (hloop.symm.trans hrun))

end Runs

/-- The section at the start of a file fits its array. -/
theorem global_fits : (cstr (strncpy global.1 SEC_MAXLEN)).length < SEC_MAXLEN := by decide

/-- **As a whole.**  In a run of `spe_opt_create` that returns true, the lines of the file have
been read with their ends, up to the real end of the file, and processed, exactly when no read
fails while bytes of the file are unread, every append of what has been read finds room or memory,
there is memory for the pieces and the entry of each pair, and no NUL stands before a line end. -/
theorem accepted_as_a_whole (content : Bytes) (before options : List OptEntry)
    (envs : List LineEnv)
    (hrun : optCreate (some Io.create) (some .create) ⟨content, 0⟩ before envs =
      some (true, options)) :
    AcceptedWhole content before envs ↔
      (∀ t ∈ fileTurns content before envs, t.Undisturbed ∧ t.Affords) ∧ EndsClear content := by
  have htexts := @optTurns_texts _ _ _ ⟨content, 0⟩ _ _ _ Io.ready_create hrun
  have hprocessed : ∀ t ∈ fileTurns content before envs, (t.Processed ↔ t.Affords) :=
    optTurns_all Io.ready_create global_fits hrun fun t _ _ hsec _ _ _ _ hdone =>
      OptTurn.processed_iff hsec hdone
  constructor
  · rintro ⟨hread, hall⟩
    obtain ⟨hturns, hclear⟩ := htexts.mp hread
    exact ⟨fun t ht => ⟨hturns t ht, (hprocessed t ht).mp (hall t ht)⟩, hclear⟩
  · rintro ⟨hturns, hclear⟩
    refine ⟨htexts.mpr ⟨fun t ht => (hturns t ht).1, hclear⟩, ?_⟩
    exact fun t ht => (hprocessed t ht).mpr (hturns t ht).2

/-- When the allocations succeed and the reads are at most interrupted, nothing disturbs a run that
returns true. -/
theorem fileTurns_good {content : Bytes} {before options : List OptEntry} {envs : List LineEnv}
    (hgood : ∀ env ∈ envs, env.Good)
    (hrun : optCreate (some Io.create) (some .create) ⟨content, 0⟩ before envs =
      some (true, options)) :
    ∀ t ∈ fileTurns content before envs, t.Undisturbed ∧ t.Affords := by
  refine optTurns_all Io.ready_create global_fits hrun ?_
  intro t henv hready _ r _ _ _ hdone
  have hturn := hgood t.env henv
  obtain ⟨_, hr, _⟩ := OptTurn.done_spec hdone
  refine ⟨OptTurn.undisturbed_of_good hready hturn hr, ?_⟩
  exact fun _ _ _ => ⟨ByteBuf.splitOffers_good hturn.pieces _ _ _, hturn.entry⟩

/-- What a line is read with when its reads go as listed. -/
def readsAs (cuts : List Cut) : LineEnv :=
  let fresh : Alloc := some fun _ => 0
  ⟨fresh, cuts.map (·, fresh), true, fun _ => ⟨true, true, fresh⟩, true⟩

/-- "k=v", "l=w": the second line ends with the file. -/
theorem accepted_as_a_whole_two :
    AcceptedWhole [107, 61, 118, 10, 108, 61, 119] []
      [readsAs [.deliver 5], readsAs [.fail .eintr, .deliver 7, .deliver 7]] := by
  have hcreate : (optCreate (some Io.create) (some .create)
      ⟨[107, 61, 118, 10, 108, 61, 119], 0⟩ []
      [readsAs [.deliver 5], readsAs [.fail .eintr, .deliver 7, .deliver 7]]).map Prod.fst =
        some true := by
    decide +kernel
  obtain ⟨⟨ok, options⟩, hrun, rfl⟩ := Option.map_eq_some_iff.mp hcreate
  have hgood : ∀ env ∈ [readsAs [.deliver 5], readsAs [.fail .eintr, .deliver 7, .deliver 7]],
      env.Good := by
    intro env henv
    simp only [List.mem_cons, List.not_mem_nil, or_false] at henv
    rcases henv with rfl | rfl <;>
      exact ⟨rfl, by simp [CutsGood, readsAs], rfl, fun _ => ⟨rfl, rfl, rfl⟩, rfl⟩
  exact (accepted_as_a_whole _ _ options _ hrun).mpr
    ⟨fileTurns_good hgood hrun, endsClear_of_clean (by decide)⟩

/-- A file whose only read fails is accepted, and nothing of it has been read. -/
theorem accepted_as_a_whole_fails :
    ¬ ∀ (content : Bytes) (before options : List OptEntry) (envs : List LineEnv),
      optCreate (some Io.create) (some .create) ⟨content, 0⟩ before envs = some (true, options) →
      AcceptedWhole content before envs := by
  intro hall
  have hcreate : (optCreate (some Io.create) (some .create) ⟨[107, 61, 118], 0⟩ []
      [readsAs [.fail .other]]).map Prod.fst = some true := by
    decide +kernel
  obtain ⟨⟨ok, options⟩, hrun, rfl⟩ := Option.map_eq_some_iff.mp hcreate
  have htexts := (hall _ _ options _ hrun).read
  revert htexts
  decide +kernel

end Spe
