import Spe.ConnRun

/-!
# The write path

The kernel accepts a first part of what is pending in `_write_buffer`, and
`spe_conn_write` adds at the end.  What was accepted and what is pending is
what was written (`write_conservation`), in every state of every run.

An attempt to write that meets a full send buffer or a signal is treated like
a broken connection.  `flush_survives` gives the exact condition under which a
flush survives a sequence of partial, interrupted and refused attempts.
-/

namespace Spe

open Transition

/-- What a `write` system call takes is what `_write_buffer` loses. -/
theorem wrote_spec (c : Conn) (w : WriteRes) :
    w.taken c.writeBuffer.bytes ++ (c.wrote w).1.writeBuffer.bytes = c.writeBuffer.bytes := by
  cases w with
  | err e => cases e <;> rfl
  | wrote n =>
      have htake : c.writeBuffer.bytes.take n =
          c.writeBuffer.bytes.take (min n c.writeBuffer.bytes.length) := by
        rw [List.take_eq_take_min]
      have hlost : (c.wrote (.wrote n)).1.writeBuffer.bytes =
          c.writeBuffer.bytes.drop (min n c.writeBuffer.bytes.length) := by
        simp [Conn.wrote, ByteBuf.len_eq]
      rw [hlost, WriteRes.taken, htake, List.take_append_drop]

/-- Accepted and pending bytes are the written ones. -/
def Conserved (s : ConnState) : Prop :=
  s.hist.accepted ++ s.conn.writeBuffer.bytes = s.hist.written

/-- A system call conserves. -/
theorem conserved_wrote {s : ConnState} (h : Conserved s) (w : WriteRes) :
    (s.noteWrite w).accepted ++ (s.conn.wrote w).1.writeBuffer.bytes =
      (s.noteWrite w).written := by
  rw [ConnState.noteWrite, List.append_assoc, wrote_spec]
  exact h

/-- `spe_conn_write` conserves. -/
theorem Conserved.write {s : ConnState} (h : Conserved s) (bs : Bytes) (al : Alloc) :
    Conserved (s.write bs al) := by
  unfold Conserved ConnState.write Conn.write at *
  by_cases hends : s.conn.closed || s.conn.error
  · simpa [hends] using h
  · simp only [if_neg hends]
    rw [ByteBuf.bytes_append]
    by_cases hok : (s.conn.writeBuffer.append bs al).2
    · simp [hok, ← h]
    · simp [hok, h]

/-- `spe_conn_flush` conserves. -/
theorem Conserved.flush {s : ConnState} (h : Conserved s) (w : WriteRes) :
    Conserved (s.flush w).1 := by
  have hwrote := conserved_wrote h w
  unfold Conserved at h ⊢
  unfold ConnState.flush Conn.flush
  by_cases hends : s.conn.closed || s.conn.error
  · simpa [hends] using h
  · simp only [if_neg hends]
    by_cases hended : (s.conn.wrote w).2
    · simpa [hended] using hwrote
    · simpa [hended] using hwrote

/-- An execution of `write_normal` conserves. -/
theorem Conserved.writeNormal {s : ConnState} (h : Conserved s) (timedOut : Bool)
    (w : WriteRes) : Conserved (s.writeNormal timedOut w).1 := by
  have hwrote := conserved_wrote h w
  unfold Conserved at h ⊢
  unfold ConnState.writeNormal Conn.writeNormal
  by_cases htime : s.conn.writeExpireTime ≠ 0 ∧ timedOut
  · simp only [if_pos htime]
    exact h
  · simp only [if_neg htime]
    by_cases hended : (s.conn.wrote w).2
    · simpa [hended, Conn.endWrite] using hwrote
    · simpa [hended] using hwrote

/-- **Step lemma.**  Every event of a connection conserves. -/
theorem Conserved.step {s s' : ConnState} {ev : ConnEvent} (h : Conserved s)
    (hstep : connNext s ev = some s') : Conserved s' := by
  obtain ⟨⟨s₁, out⟩, hev, rfl⟩ := Option.map_eq_some_iff.mp hstep
  cases ev with
  | issue req al r =>
      obtain ⟨_, hres⟩ := Option.ite_none_right_eq_some.mp hev
      obtain ⟨hconn, hwritten, haccepted, _⟩ := s.issue_conn req al r
      rw [Option.some.inj hres] at hconn hwritten haccepted
      have hkeeps : s₁.conn.writeBuffer = s.conn.writeBuffer := by
        rw [← (issue_reads s.conn req al r).writeBuffer, ← hconn]
      unfold Conserved
      rw [hwritten, haccepted, hkeeps]
      exact h
  | readNormal timedOut al rs =>
      obtain ⟨_, hres⟩ := Option.ite_none_right_eq_some.mp hev
      obtain ⟨hconn, hwritten, haccepted, _⟩ := ConnState.readNormal_conn hres
      unfold Conserved
      rw [hwritten, haccepted, (readNormal_only hconn).1.writeBuffer]
      exact h
  | write bs al =>
      obtain ⟨rfl, _⟩ := Prod.mk.inj (Option.some.inj hev)
      exact h.write bs al
  | flush w =>
      obtain ⟨_, hres⟩ := Option.ite_none_right_eq_some.mp hev
      rw [← Option.some.inj hres]
      exact h.flush w
  | writeNormal timedOut w =>
      obtain ⟨_, hres⟩ := Option.ite_none_right_eq_some.mp hev
      rw [← Option.some.inj hres]
      exact h.writeNormal timedOut w
  | connect res =>
      obtain ⟨_, hres⟩ := Option.ite_none_right_eq_some.mp hev
      rw [← Option.some.inj hres]
      cases res <;> exact h
  | connectNormal timedOut soError =>
      obtain ⟨_, hres⟩ := Option.ite_none_right_eq_some.mp hev
      obtain ⟨rfl, _⟩ := Prod.mk.inj (Option.some.inj hres)
      unfold Conserved ConnState.connectNormal Conn.connectNormal
      dsimp only
      split <;> exact h
  | setTimeout r w =>
      obtain ⟨rfl, _⟩ := Prod.mk.inj (Option.some.inj hev)
      exact h
  | useBuffer b =>
      obtain ⟨rfl, _⟩ := Prod.mk.inj (Option.some.inj hev)
      exact h

/-- **Conservation.**  In every run of a connection, whatever the system calls
answer and in whatever order calls, handlers and timeouts come, the bytes the
kernel has accepted followed by those in `_write_buffer` are the arguments of
the successful `spe_conn_write` calls. -/
theorem write_conservation {c : Conn} {fd : Nat} {es : List ConnEvent} {s : ConnState}
    (h : Run connNext anyStep (ConnState.created c fd) es s) :
    s.hist.accepted ++ s.conn.writeBuffer.bytes = s.hist.written := by
  refine h.invariant Conserved ?_ (fun _ _ _ hs _ hstep => hs.step hstep)
  have hbytes : (c.create fd).writeBuffer.bytes = [] := (c.create_bytes fd).2.2
  unfold Conserved ConnState.created
  rw [hbytes]
  rfl

/-- Two bytes are written, one is accepted by the flush, and another is written
while the flush is pending. -/
theorem write_conservation_partial :
    ∃ s, Run connNext anyStep (ConnState.created Conn.zero 5)
        [.write [104, 105] (some fun _ => 0), .flush (.wrote 1), .write [33] none] s ∧
      s.hist.accepted ++ s.conn.writeBuffer.bytes = s.hist.written := by
  obtain ⟨s, hs⟩ : ∃ s, exec connNext (ConnState.created Conn.zero 5)
      [.write [104, 105] (some fun _ => 0), .flush (.wrote 1), .write [33] none] = some s :=
    ⟨_, rfl⟩
  have hrun := run_iff_exec.mpr hs
  exact ⟨s, hrun, write_conservation hrun⟩

/-- A result with which a non-blocking socket asks to try again. -/
def WriteRes.transient : WriteRes → Bool
  | .err .eagain => true
  | .err .eintr => true
  | _ => false

/-- A count, or a request to try again. -/
def WriteRes.Mild (w : WriteRes) : Prop := w.transient ∨ ∃ n, w = .wrote n

/-- The sum of the counts. -/
def counts : List WriteRes → Nat
  | [] => 0
  | .wrote n :: ws => n + counts ws
  | .err _ :: ws => counts ws

/-- The executions of `write_normal` that follow a pending operation, on the
results of their system calls; they end when it does. -/
def writeOn : Conn × Outcome → List WriteRes → Conn × Outcome
  | (c, .pending), w :: ws => writeOn (c.writeNormal false w) ws
  | res, _ => res

/-- A flush and the executions of `write_normal` that follow it, on the results
of their system calls. -/
def Conn.flushOn (c : Conn) : List WriteRes → Conn × Outcome
  | [] => (c, .pending)
  | w :: ws => writeOn (c.flush w) ws

/-- A request to try again is met before `n` bytes are written; the first
attempt is always made. -/
def meetsTransient (n : Nat) : List WriteRes → Bool
  | [] => false
  | .err _ :: _ => true
  | .wrote k :: ws => if n ≤ k then false else meetsTransient (n - k) ws

/-- What a flush on a non-blocking socket should do: it sets neither flag, it
completes when the counts add up, a request to try again changes nothing, and
`spe_buf_lconsume` is called on a `_write_buffer` that has a block; on another it
stores through NULL. -/
structure FlushSurvives (c : Conn) (ws : List WriteRes) : Prop where
  error : (c.flushOn ws).1.error = false
  closed : (c.flushOn ws).1.closed = false
  completes : c.writeBuffer.bytes.length ≤ counts ws →
    (c.flushOn ws).2 = .done ∧ (c.flushOn ws).1.writeBuffer.bytes = []
  waits : ∀ pre w post, ws = pre ++ w :: post → w.transient →
    (c.flushOn pre).2 = .pending →
    (c.flushOn (pre ++ [w])).2 = .pending ∧
      (c.flushOn (pre ++ [w])).1.writeBuffer.bytes = (c.flushOn pre).1.writeBuffer.bytes
  stores : ∀ pre n post, ws = pre ++ .wrote n :: post → (c.flushOn pre).2 = .pending →
    (c.flushOn pre).1.writeBuffer.buf.start.isSome

/-- What an attempt to write makes of each kind of result: a count below the
pending length leaves the rest pending, one that reaches it completes, and a
request to try again is an error. -/
structure Attempt (c : Conn) (w : WriteRes) (res : Conn × Outcome) : Prop where
  goesOn : ∀ n, w = .wrote n → n < c.writeBuffer.bytes.length →
    res.2 = .pending ∧ res.1.writeBuffer.bytes = c.writeBuffer.bytes.drop n ∧
      res.1.error = c.error ∧ res.1.closed = c.closed
  completes : ∀ n, w = .wrote n → c.writeBuffer.bytes.length ≤ n →
    res.2 = .done ∧ res.1.writeBuffer.bytes = [] ∧
      res.1.error = c.error ∧ res.1.closed = c.closed
  breaks : w.transient → res.2 = .done ∧ res.1.error = true

/-- What `wrote` makes of a count. -/
theorem wrote_count (c : Conn) (n : Nat) :
    (c.wrote (.wrote n)).2 = decide (c.writeBuffer.bytes.length ≤ n) ∧
    (c.wrote (.wrote n)).1.writeBuffer.bytes = c.writeBuffer.bytes.drop n ∧
    (c.wrote (.wrote n)).1.error = c.error ∧ (c.wrote (.wrote n)).1.closed = c.closed := by
  have hdrop : c.writeBuffer.bytes.drop (min n c.writeBuffer.bytes.length) =
      c.writeBuffer.bytes.drop n := by
    by_cases hle : n ≤ c.writeBuffer.bytes.length
    · rw [Nat.min_eq_left hle]
    · have hall : c.writeBuffer.bytes.length ≤ n := by omega
      rw [Nat.min_eq_right hall, List.drop_length, List.drop_eq_nil_of_le hall]
  refine ⟨?_, ?_, rfl, rfl⟩
  · simp only [Conn.wrote, ByteBuf.len_eq, ByteBuf.bytes_lconsume, hdrop, List.length_drop,
      decide_eq_decide]
    omega
  · simp [Conn.wrote, ByteBuf.len_eq, hdrop]

/-- A request to try again is an error. -/
theorem wrote_transient {c : Conn} {w : WriteRes} (h : w.transient) :
    c.wrote w = ({ c with error := true }, true) := by
  cases w with
  | wrote n => simp [WriteRes.transient] at h
  | err e => cases e <;> simp [WriteRes.transient] at h <;> rfl

/-- `write_normal` is an attempt. -/
theorem writeNormal_attempt (c : Conn) (w : WriteRes) :
    Attempt c w (c.writeNormal false w) := by
  constructor
  · intro n heq hn
    subst heq
    obtain ⟨hended, hbytes, herror, hclosed⟩ := wrote_count c n
    have hnot : ¬ c.writeBuffer.bytes.length ≤ n := by omega
    simp [Conn.writeNormal, hended, hnot, hbytes, herror, hclosed]
  · intro n heq hn
    subst heq
    obtain ⟨hended, hbytes, herror, hclosed⟩ := wrote_count c n
    simp [Conn.writeNormal, hended, hn, hbytes, herror, hclosed, Conn.endWrite]
  · intro h
    simp [Conn.writeNormal, wrote_transient h, Conn.endWrite]

/-- `spe_conn_flush` on an open connection is an attempt. -/
theorem flush_attempt {c : Conn} (hclosed : c.closed = false) (herror : c.error = false)
    (w : WriteRes) : Attempt c w (c.flush w) := by
  constructor
  · intro n heq hn
    subst heq
    obtain ⟨hended, hbytes, herror', hclosed'⟩ := wrote_count c n
    have hnot : ¬ c.writeBuffer.bytes.length ≤ n := by omega
    simp [Conn.flush, hclosed, herror, hended, hnot, hbytes, herror', hclosed']
  · intro n heq hn
    subst heq
    obtain ⟨hended, hbytes, herror', hclosed'⟩ := wrote_count c n
    simp [Conn.flush, hclosed, herror, hended, hn, hbytes, herror', hclosed']
  · intro h
    simp [Conn.flush, hclosed, herror, wrote_transient h]

/-- Where a run of attempts stands that met no request to try again: done when
the counts add up, else pending with the rest. -/
structure Ran (c : Conn) (ws : List WriteRes) (res : Conn × Outcome) : Prop where
  flags : res.1.error = c.error ∧ res.1.closed = c.closed
  adds : c.writeBuffer.bytes.length ≤ counts ws → res.2 = .done ∧ res.1.writeBuffer.bytes = []
  rest : counts ws < c.writeBuffer.bytes.length →
    res.2 = .pending ∧ res.1.writeBuffer.bytes = c.writeBuffer.bytes.drop (counts ws)

/-- An operation that is not pending is left as it is. -/
theorem writeOn_done (c : Conn) (ws : List WriteRes) : writeOn (c, .done) ws = (c, .done) := by
  cases ws <;> rfl

/-- An attempt that goes on, and the run that follows. -/
theorem Attempt.ran_cons {c : Conn} {n : Nat} {ws : List WriteRes} {res final : Conn × Outcome}
    (h : Attempt c (.wrote n) res) (hn : n < c.writeBuffer.bytes.length)
    (hrest : Ran res.1 ws final) : Ran c (.wrote n :: ws) final := by
  obtain ⟨_, hbytes, herror, hclosed⟩ := h.goesOn n rfl hn
  have hlen : res.1.writeBuffer.bytes.length = c.writeBuffer.bytes.length - n := by
    rw [hbytes, List.length_drop]
  constructor
  · rw [hrest.flags.1, hrest.flags.2, herror, hclosed]
    exact ⟨rfl, rfl⟩
  · intro hadds
    rw [counts] at hadds
    exact hrest.adds (by omega)
  · intro hless
    rw [counts] at hless ⊢
    obtain ⟨hpending, hleft⟩ := hrest.rest (by omega)
    refine ⟨hpending, ?_⟩
    rw [hleft, hbytes, List.drop_drop]

/-- An attempt that completes: nothing follows. -/
theorem Attempt.ran_completed {c : Conn} {n : Nat} {ws : List WriteRes} {res : Conn × Outcome}
    (h : Attempt c (.wrote n) res) (hn : c.writeBuffer.bytes.length ≤ n) :
    Ran c (.wrote n :: ws) (writeOn res ws) := by
  obtain ⟨hdone, hbytes, herror, hclosed⟩ := h.completes n rfl hn
  rcases res with ⟨d, out⟩
  obtain rfl : out = .done := hdone
  rw [writeOn_done]
  refine ⟨⟨herror, hclosed⟩, fun _ => ⟨rfl, hbytes⟩, ?_⟩
  intro hless
  rw [counts] at hless
  omega

/-- After an attempt, a run that meets no request to try again. -/
theorem Attempt.ran {c : Conn} {w : WriteRes} {ws : List WriteRes} {res : Conn × Outcome}
    (h : Attempt c w res)
    (hclean : meetsTransient c.writeBuffer.bytes.length (w :: ws) = false) :
    Ran c (w :: ws) (writeOn res ws) := by
  induction ws generalizing c w res with
  | nil =>
      cases w with
      | err e => simp [meetsTransient] at hclean
      | wrote n =>
          by_cases hn : n < c.writeBuffer.bytes.length
          · obtain ⟨hpending, hbytes, _, _⟩ := h.goesOn n rfl hn
            have hstays : writeOn res [] = res := by
              rcases res with ⟨d, out⟩
              cases out <;> rfl
            rw [hstays]
            refine h.ran_cons hn ⟨⟨rfl, rfl⟩, ?_, fun _ => ⟨hpending, rfl⟩⟩
            intro hadds
            rw [hbytes, List.length_drop, counts] at hadds
            omega
          · exact h.ran_completed (by omega)
  | cons x ws ih =>
      cases w with
      | err e => simp [meetsTransient] at hclean
      | wrote n =>
          by_cases hn : n < c.writeBuffer.bytes.length
          · obtain ⟨hpending, hbytes, _, _⟩ := h.goesOn n rfl hn
            rcases res with ⟨d, out⟩
            obtain rfl : out = .pending := hpending
            have hbytes : d.writeBuffer.bytes = c.writeBuffer.bytes.drop n := hbytes
            refine h.ran_cons hn (ih (writeNormal_attempt d x) ?_)
            rw [meetsTransient, if_neg (by omega)] at hclean
            rw [hbytes, List.length_drop]
            exact hclean
          · exact h.ran_completed (by omega)

/-- An error among mild results is a request to try again. -/
theorem WriteRes.Mild.transient_of_err {e : Errno} (h : (WriteRes.err e).Mild) :
    (WriteRes.err e).transient := by
  rcases h with h | ⟨n, hn⟩
  · exact h
  · cases hn

/-- An attempt that meets a request to try again is the last. -/
theorem Attempt.breaks_run {c : Conn} {w : WriteRes} {res : Conn × Outcome}
    (h : Attempt c w res) (htransient : w.transient) (ws : List WriteRes) :
    (writeOn res ws).1.error = true := by
  obtain ⟨hdone, herror⟩ := h.breaks htransient
  rcases res with ⟨d, out⟩
  obtain rfl : out = .done := hdone
  rw [writeOn_done]
  exact herror

/-- After an attempt, a run that meets a request to try again. -/
theorem Attempt.broken {c : Conn} {w : WriteRes} {ws : List WriteRes} {res : Conn × Outcome}
    (h : Attempt c w res) (hmild : ∀ x ∈ w :: ws, x.Mild)
    (hmeets : meetsTransient c.writeBuffer.bytes.length (w :: ws) = true) :
    (writeOn res ws).1.error = true := by
  induction ws generalizing c w res with
  | nil =>
      cases w with
      | err e => exact h.breaks_run (hmild _ (by simp)).transient_of_err []
      | wrote n => simp [meetsTransient] at hmeets
  | cons x ws ih =>
      cases w with
      | err e => exact h.breaks_run (hmild _ (by simp)).transient_of_err (x :: ws)
      | wrote n =>
          by_cases hn : n < c.writeBuffer.bytes.length
          · obtain ⟨hpending, hbytes, _, _⟩ := h.goesOn n rfl hn
            rcases res with ⟨d, out⟩
            obtain rfl : out = .pending := hpending
            have hbytes : d.writeBuffer.bytes = c.writeBuffer.bytes.drop n := hbytes
            have hlater : ∀ y ∈ x :: ws, y.Mild :=
              fun y hy => hmild y (List.mem_cons_of_mem _ hy)
            apply ih (writeNormal_attempt d x) hlater
            rw [meetsTransient, if_neg (by omega)] at hmeets
            rw [hbytes, List.length_drop]
            exact hmeets
          · rw [meetsTransient, if_pos (by omega)] at hmeets
            cases hmeets

/-- A first part of a run without requests to try again has none. -/
theorem meetsTransient_take {n : Nat} {pre post : List WriteRes}
    (h : meetsTransient n (pre ++ post) = false) : meetsTransient n pre = false := by
  induction pre generalizing n with
  | nil => rfl
  | cons w pre ih =>
      cases w with
      | err e => simp [meetsTransient] at h
      | wrote k =>
          rw [List.cons_append, meetsTransient] at h
          rw [meetsTransient]
          split
          · rfl
          · rename_i hk
            rw [if_neg hk] at h
            exact ih h

/-- A request to try again is met when it comes before the counts add up. -/
theorem meetsTransient_err {n : Nat} {pre post : List WriteRes} {e : Errno}
    (hless : pre = [] ∨ counts pre < n) : meetsTransient n (pre ++ .err e :: post) = true := by
  induction pre generalizing n with
  | nil => rfl
  | cons w pre ih =>
      cases w with
      | err e => rfl
      | wrote k =>
          have hcounts : k + counts pre < n := by
            rcases hless with hnil | hless
            · cases hnil
            · exact hless
          rw [List.cons_append, meetsTransient, if_neg (by omega)]
          exact ih (Or.inr (by omega))

/-- Consuming keeps the block. -/
theorem wrote_block (c : Conn) (w : WriteRes) :
    (c.wrote w).1.writeBuffer.buf.start.isSome = c.writeBuffer.buf.start.isSome := by
  cases w with
  | wrote n => exact terminate_isSome _
  | err e => cases e <;> rfl

/-- So does `write_normal`. -/
theorem writeNormal_block (c : Conn) (timedOut : Bool) (w : WriteRes) :
    (c.writeNormal timedOut w).1.writeBuffer.buf.start.isSome =
      c.writeBuffer.buf.start.isSome := by
  unfold Conn.writeNormal
  split
  · rfl
  · dsimp only
    split
    · exact wrote_block c w
    · exact wrote_block c w

/-- So do the executions of `write_normal` that follow a flush. -/
theorem writeOn_block (res : Conn × Outcome) (ws : List WriteRes) :
    (writeOn res ws).1.writeBuffer.buf.start.isSome = res.1.writeBuffer.buf.start.isSome := by
  induction ws generalizing res with
  | nil =>
      obtain ⟨c, out⟩ := res
      cases out <;> rfl
  | cons w ws ih =>
      obtain ⟨c, out⟩ := res
      cases out with
      | pending => exact (ih (c.writeNormal false w)).trans (writeNormal_block c false w)
      | _ => rfl

/-- And the flush with them. -/
theorem flushOn_block (c : Conn) (ws : List WriteRes) :
    (c.flushOn ws).1.writeBuffer.buf.start.isSome = c.writeBuffer.buf.start.isSome := by
  cases ws with
  | nil => rfl
  | cons w ws =>
      refine (writeOn_block (c.flush w) ws).trans ?_
      unfold Conn.flush
      split
      · rfl
      · dsimp only
        split
        · exact wrote_block c w
        · exact wrote_block c w

/-- **Transient failures.**  On an open connection, for every pending content
and every sequence of counts and requests to try again, a flush survives the
sequence if and only if `_write_buffer` has a block and no request to try again
comes before the counts reach the pending length. -/
theorem flush_survives {c : Conn} {ws : List WriteRes} (hclosed : c.closed = false)
    (herror : c.error = false) (hne : ws ≠ []) (hmild : ∀ w ∈ ws, w.Mild) :
    FlushSurvives c ws ↔ c.writeBuffer.buf.start.isSome ∧
      meetsTransient c.writeBuffer.bytes.length ws = false := by
  have hrun : ∀ vs, vs ≠ [] → meetsTransient c.writeBuffer.bytes.length vs = false →
      Ran c vs (c.flushOn vs) := by
    intro vs hvs hclean
    cases vs with
    | nil => exact absurd rfl hvs
    | cons v vs => exact (flush_attempt hclosed herror v).ran hclean
  constructor
  · intro h
    cases hmeets : meetsTransient c.writeBuffer.bytes.length ws with
    | false =>
        refine ⟨?_, rfl⟩
        cases ws with
        | nil => exact absurd rfl hne
        | cons w ws =>
            cases w with
            | wrote n => exact h.stores [] n ws rfl rfl
            | err e => cases hmeets
    | true =>
        have hbroken : (c.flushOn ws).1.error = true := by
          cases ws with
          | nil => exact absurd rfl hne
          | cons w ws => exact (flush_attempt hclosed herror w).broken hmild hmeets
        rw [h.error] at hbroken
        cases hbroken
  · rintro ⟨hblock, hclean⟩
    have hran := hrun ws hne hclean
    refine ⟨hran.flags.1.trans herror, hran.flags.2.trans hclosed, hran.adds, ?_, ?_⟩
    · -- a request to try again while the operation is pending would have been met
      intro pre w post heq htransient hpending
      subst heq
      have hless : pre = [] ∨ counts pre < c.writeBuffer.bytes.length := by
        by_cases hpre : pre = []
        · exact Or.inl hpre
        · right
          have hfirst := hrun pre hpre (meetsTransient_take hclean)
          by_contra hadds
          rw [(hfirst.adds (by omega)).1] at hpending
          cases hpending
      cases w with
      | wrote n => simp [WriteRes.transient] at htransient
      | err e =>
          rw [meetsTransient_err hless] at hclean
          cases hclean
    · intro pre n post _ _
      rw [flushOn_block]
      exact hblock

/-- A connection with two bytes to write. -/
def pendingHi : Conn :=
  { Conn.zero.create 5 with
    writeBuffer := (ByteBuf.create.append [104, 105] (some fun _ => 0)).1 }

theorem pendingHi_bytes : pendingHi.writeBuffer.bytes = [104, 105] := by
  simp [pendingHi]

/-- A flush that writes two bytes in two attempts. -/
theorem flush_survives_hi : FlushSurvives pendingHi [.wrote 1, .wrote 1] := by
  refine (flush_survives rfl rfl (by simp) ?_).mpr ⟨rfl, ?_⟩
  · intro w hw
    right
    refine ⟨1, ?_⟩
    simpa using hw
  · rw [pendingHi_bytes]
    rfl

/-- **Full send buffer.**  A flush whose first attempt finds the send buffer
full sets the error flag. -/
theorem flush_breaks :
    (∀ w ∈ [WriteRes.err .eagain, .wrote 2], w.Mild) ∧
    (pendingHi.flushOn [.err .eagain, .wrote 2]).1.error = true ∧
    ¬ FlushSurvives pendingHi [.err .eagain, .wrote 2] := by
  have herror : (pendingHi.flushOn [.err .eagain, .wrote 2]).1.error = true := rfl
  refine ⟨?_, herror, ?_⟩
  · intro w hw
    rcases List.mem_cons.mp hw with rfl | hw
    · exact Or.inl rfl
    · exact Or.inr ⟨2, by simpa using hw⟩
  · intro h
    rw [h.error] at herror
    cases herror

end Spe
