import Mathlib.Data.List.TakeWhile
import Spe.BufferFits
import Spe.ConnSpec

/-!
# The two completions of a read request

A read request is completed inside the call (`syncCompletion`) or later by
`read_normal` (`asyncCompletion`).  `rule` is the completion a caller expects
of either: the shortest prefix of the received bytes that satisfies the
request; when there is none and the stream is over, everything; otherwise
nothing yet.

The code decides in two orders.  The call looks at the end of the stream
first, `read_normal` looks for the frame first and hands nothing over at the
end of the stream; both search the bytes before the first NUL only.
`completions_agree` gives the exact condition under which both follow the
rule, and the machine does so, too.
-/

namespace Spe

/-- What a completion does: the bytes appended to `buffer`, those left in
`_read_buffer`, and how the request stands. -/
structure Completion where
  appended : Bytes
  left : Bytes
  outcome : Outcome
  deriving DecidableEq

/-- The prefix of length `k` satisfies a request. -/
def Satisfies (req : Request) (p : Bytes) (k : Nat) : Prop :=
  match req with
  | .readUntil none => False
  | .readUntil (some delim) => delim.1 <:+ p.take k
  | .readbytes len => k = len
  | .read => k = p.length ∧ 0 < k

instance (req : Request) (p : Bytes) (k : Nat) : Decidable (Satisfies req p k) := by
  unfold Satisfies
  split <;> infer_instance

/-- The length of the shortest prefix that satisfies a request. -/
def shortest (req : Request) (p : Bytes) : Option Nat :=
  (List.range (p.length + 1)).find? (fun k => Satisfies req p k)

/-- The completion of a request on the received bytes `p`, at the end of the
stream or before. -/
def rule (req : Request) (p : Bytes) (ended : Bool) : Completion :=
  match shortest req p with
  | some k => ⟨p.take k, p.drop k, .done⟩
  | none => if ended then ⟨p, [], .done⟩ else ⟨[], p, .pending⟩

/-- A read request that asks for something. -/
def Request.Nonempty : Request → Prop
  | .readUntil delim => ∃ d, delim = some d ∧ d.1 ≠ []
  | .readbytes len => 0 < len
  | .read => True

theorem Request.Nonempty.proper {req : Request} (h : req.Nonempty) : req.Proper := by
  cases req with
  | readUntil delim =>
      obtain ⟨d, rfl, _⟩ := h
      rfl
  | readbytes len => exact h
  | read => trivial

/-- The shortest prefix is the least that satisfies the request. -/
theorem shortest_eq_some {req : Request} {p : Bytes} {k : Nat} :
    shortest req p = some k ↔
      Satisfies req p k ∧ k ≤ p.length ∧ ∀ j, j < k → ¬ Satisfies req p j := by
  simp only [shortest, List.find?_range_eq_some, decide_eq_true_eq, List.mem_range,
    Nat.lt_succ_iff, Bool.not_eq_eq_eq_not, Bool.not_true, decide_eq_false_iff_not]

theorem shortest_eq_none {req : Request} {p : Bytes} :
    shortest req p = none ↔ ∀ k, k ≤ p.length → ¬ Satisfies req p k := by
  simp only [shortest, List.find?_eq_none, List.mem_range, Nat.lt_succ_iff, decide_eq_true_eq]

/-- Without NUL in the way, the shortest prefix for a delimiter is what the
leftmost occurrence ends. -/
theorem shortest_readUntil (delim : CStr) (p : Bytes) :
    shortest (.readUntil (some delim)) p =
      (Search.find delim.1 p).map (· + delim.1.length) := by
  cases h : Search.find delim.1 p with
  | none =>
      rw [Option.map_none, shortest_eq_none]
      intro k hk
      exact Search.no_prefix_of_find h hk
  | some i =>
      obtain ⟨hsuffix, hleast⟩ := Search.shortest_of_find h
      have hbound := Search.find_bound h
      rw [Option.map_some, shortest_eq_some]
      exact ⟨hsuffix, hbound, fun j hj => hleast j hj (by omega)⟩

/-- No NUL stands in the frame of a delimiter. -/
def FrameClean (req : Request) (p : Bytes) : Prop :=
  match req with
  | .readUntil _ => ∀ k, shortest req p = some k → (0 : UInt8) ∉ p.take k
  | _ => True

/-- A string without NUL is seen as a whole, whatever comes behind it. -/
theorem cstr_clean {q : Bytes} (hq : (0 : UInt8) ∉ q) (more : Bytes) :
    ∃ seen, cstr (q ++ more) = q ++ seen := by
  obtain ⟨seen, hseen, _⟩ := cstr_append q more
  exact ⟨seen, by rw [hseen, cstr_of_clean hq]⟩

/-- What the code finds is the shortest prefix, and no NUL stands in it. -/
theorem shortest_of_codeFrame {req : Request} {p : Bytes} {n : Nat}
    (hne : req.Nonempty) (h : codeFrame req p = some n) :
    shortest req p = some n ∧ FrameClean req p := by
  cases req with
  | readUntil delim =>
      obtain ⟨d, rfl, _⟩ := hne
      rw [codeFrame] at h
      split at h
      · simp at h
      · obtain ⟨i, hi, rfl⟩ := Option.map_eq_some_iff.mp h
        have hprefix : cstr p <+: p := List.takeWhile_prefix _
        obtain ⟨rest, hrest⟩ := hprefix
        have hfind : Search.find d.1 p = some i := by
          rw [← hrest]
          exact Search.find_append rest hi
        have hshort : shortest (.readUntil (some d)) p = some (i + d.1.length) := by
          rw [shortest_readUntil, hfind]
          rfl
        refine ⟨hshort, ?_⟩
        intro k hk hnul
        obtain rfl := Option.some.inj (hshort.symm.trans hk)
        have hbound := Search.find_bound hi
        have hseen : (0 : UInt8) ∈ cstr p := by
          rw [← hrest, List.take_append_of_le_length hbound] at hnul
          exact List.mem_of_mem_take hnul
        have hnonzero := List.mem_takeWhile_imp hseen
        simp at hnonzero
  | readbytes len =>
      rw [codeFrame] at h
      split at h
      · rename_i hle
        obtain rfl := Option.some.inj h
        refine ⟨shortest_eq_some.mpr ⟨rfl, hle, ?_⟩, trivial⟩
        intro j hj heq
        have heq : j = len := heq
        omega
      · simp at h
  | read =>
      rw [codeFrame] at h
      split at h
      · simp at h
      · rename_i hnil
        obtain rfl := Option.some.inj h
        have hpos : 0 < p.length := List.length_pos_iff.mpr hnil
        refine ⟨shortest_eq_some.mpr ⟨⟨rfl, hpos⟩, Nat.le_refl _, ?_⟩, trivial⟩
        intro j hj hboth
        obtain ⟨heq, _⟩ := hboth
        omega

/-- The code finds a shortest prefix in which no NUL stands. -/
theorem codeFrame_of_shortest {req : Request} {p : Bytes} {k : Nat} (hne : req.Nonempty)
    (h : shortest req p = some k) (hclean : FrameClean req p) : codeFrame req p = some k := by
  cases req with
  | readUntil delim =>
      obtain ⟨d, rfl, hd⟩ := hne
      have hshort := h
      rw [shortest_readUntil] at h
      obtain ⟨i, hi, rfl⟩ := Option.map_eq_some_iff.mp h
      have hbound := Search.find_bound hi
      have hnul := hclean _ hshort
      obtain ⟨seen, hseen⟩ := cstr_clean hnul (p.drop (i + d.1.length))
      rw [List.take_append_drop] at hseen
      have hfirst : Search.find d.1 (p.take (i + d.1.length)) = some i := by
        refine Search.find_of_append (p.drop (i + d.1.length)) ?_ ?_
        · rw [List.take_append_drop]
          exact hi
        · rw [List.length_take]
          omega
      have hp : p ≠ [] := by
        intro heq
        subst heq
        have hzero : d.1.length = 0 := by
          simp only [List.length_nil] at hbound
          omega
        exact hd (List.length_eq_zero_iff.mp hzero)
      rw [codeFrame, if_neg hp, hseen, Search.find_append seen hfirst]
      rfl
  | readbytes len =>
      obtain ⟨hk, hle, _⟩ := shortest_eq_some.mp h
      have hk : k = len := hk
      rw [codeFrame, ← hk, if_pos hle]
  | read =>
      obtain ⟨⟨rfl, hpos⟩, _, _⟩ := shortest_eq_some.mp h
      rw [codeFrame, if_neg (List.length_pos_iff.mp hpos)]

/-- The connection that waits for a request. -/
def Conn.pend (c : Conn) (req : Request) : Conn :=
  match req with
  | .readUntil none => c
  | .readUntil (some delim) => ({ c with delim := delim } : Conn).readAsync .readUntil
  | .readbytes len => ({ c with rbytes := len } : Conn).readAsync .readBytes
  | .read => c.readAsync .read

/-- A completion as seen from the buffers before and after. -/
def completion (c : Conn) (res : Conn × Outcome) : Completion where
  appended := gained c.buffer res.1.buffer
  left := res.1.readBuffer.bytes
  outcome := res.2

/-- The completion of a request by its call. -/
def syncCompletion (c : Conn) (req : Request) (al : Allocs) (r : ReadRes) : Completion :=
  completion c (c.issue req al r)

/-- The completion of a request by `read_normal`, which makes the same read
attempt. -/
def asyncCompletion (c : Conn) (req : Request) (al : Allocs) (r : ReadRes) : Option Completion :=
  ((c.pend req).readNormal false al [r]).map (completion c)

/-- How the call completes a request on the received bytes. -/
def syncResult (req : Request) (p : Bytes) (ended : Bool) : Completion :=
  if ended then ⟨p, [], .done⟩ else
  match codeFrame req p with
  | some n => ⟨p.take n, p.drop n, .done⟩
  | none => ⟨[], p, .pending⟩

/-- How `read_normal` completes a request on the received bytes. -/
def asyncResult (req : Request) (p : Bytes) (ended : Bool) : Completion :=
  match codeFrame req p with
  | some n => ⟨p.take n, p.drop n, .done⟩
  | none => ⟨[], p, if ended then .done else .pending⟩

/-- The received bytes after a read attempt. -/
def received (c : Conn) (al : Allocs) (r : ReadRes) : Bytes := (c.attempt al r).1.bytes

/-- The read attempt met the end of the stream or a fatal error. -/
def streamEnded (c : Conn) (al : Allocs) (r : ReadRes) : Bool :=
  (c.attempt al r).2.fatal || (c.attempt al r).2 = .zero

/-- A completion, in terms of the read side. -/
theorem completion_of_reader {c : Conn} {res : Conn × Outcome} {v : Reader} {out : Outcome}
    (h : (res.1.reader, res.2) = (v, out)) :
    completion c res = ⟨v.buffer.drop c.buffer.bytes.length, v.readBuffer, out⟩ := by
  obtain ⟨rfl, rfl⟩ := Prod.mk.inj h
  rfl

/-- The call completes a request as `syncResult` says. -/
theorem syncCompletion_eq {c : Conn} {req : Request} {al : Allocs} {r : ReadRes}
    (hal : al.Good) (hclosed : c.closed = false) (herror : c.error = false)
    (hproper : req.Proper) :
    syncCompletion c req al r = syncResult req (received c al r) (streamEnded c al r) := by
  have hspec := Conn.issue_spec (r := r) hal hclosed herror hproper
  have hbytes : c.reader.readBuffer ++ gained c.readBuffer (c.attempt al r).1 =
      received c al r := (readFdAppend_once hal r).bytes.symm
  have hbuffer : c.reader.buffer = c.buffer.bytes := rfl
  unfold Reader.issue at hspec
  rw [hbytes] at hspec
  unfold syncResult streamEnded
  by_cases hstop : (c.attempt al r).2.fatal ∨ (c.attempt al r).2 = .zero
  · rw [if_pos hstop] at hspec
    have hended : ((c.attempt al r).2.fatal || decide ((c.attempt al r).2 = .zero)) = true := by
      simpa using hstop
    rw [if_pos hended, syncCompletion, completion_of_reader hspec]
    simp [hbuffer]
  · rw [if_neg hstop] at hspec
    have hended : ¬ ((c.attempt al r).2.fatal || decide ((c.attempt al r).2 = .zero)) = true := by
      simpa using hstop
    rw [if_neg hended]
    cases hframe : codeFrame req (received c al r) with
    | some n =>
        rw [hframe] at hspec
        rw [syncCompletion, completion_of_reader hspec]
        simp [hbuffer]
    | none =>
        rw [hframe] at hspec
        rw [syncCompletion, completion_of_reader hspec]
        simp [hbuffer]

/-- The read side of a connection that waits for a request. -/
theorem pend_reader {c : Conn} {req : Request} (hproper : req.Proper) :
    (c.pend req).reader = { c.reader with request := some req } := by
  cases req with
  | readUntil delim =>
      obtain ⟨delim, rfl⟩ := Option.isSome_iff_exists.mp hproper
      rfl
  | readbytes len => rfl
  | read => rfl

/-- Waiting for a request does not touch the buffers. -/
theorem pend_buffers (c : Conn) (req : Request) :
    (c.pend req).buffer = c.buffer ∧ (c.pend req).readBuffer = c.readBuffer := by
  cases req with
  | readUntil delim => cases delim <;> exact ⟨rfl, rfl⟩
  | readbytes len => exact ⟨rfl, rfl⟩
  | read => exact ⟨rfl, rfl⟩

/-- `read_normal` completes a request as `asyncResult` says. -/
theorem asyncCompletion_eq {c : Conn} {req : Request} {al : Allocs} {r : ReadRes}
    (hal : al.Good) (hclosed : c.closed = false) (herror : c.error = false)
    (hproper : req.Proper) (hr : r ≠ .err .eintr) :
    asyncCompletion c req al r =
      some (asyncResult req (received c al r) (streamEnded c al r)) := by
  obtain ⟨_, hreadBuffer⟩ := pend_buffers c req
  have hbytes : c.readBuffer.bytes ++ gained c.readBuffer (c.attempt al r).1 =
      received c al r := (readFdAppend_once hal r).bytes.symm
  have hloop : Conn.readLoop (c.pend req).readBuffer al [r] =
      some ((c.attempt al r).1, (c.attempt al r).2) := by
    obtain ⟨room, _, hret, _⟩ := c.readBuffer.bytes_readFdAppend BUF_SIZE r hal.1
    have hne : (c.attempt al r).2 ≠ .fail .eintr := by
      intro heintr
      exact hr (ret_fail (hret.symm.trans heintr))
    unfold Conn.attempt at hne
    rw [hreadBuffer, Conn.readLoop, if_neg hne]
    rfl
  have htime : ¬ ((c.pend req).readExpireTime ≠ 0 ∧ false = true) := by simp
  obtain ⟨c', out, hnormal, hspec⟩ := Conn.readNormal_spec hal htime hloop
  rw [pend_reader hproper, hreadBuffer] at hspec
  have hended : (c.reader.closed || decide ((c.attempt al r).2 = .zero) ||
      (c.reader.error || (c.attempt al r).2.fatal)) = streamEnded c al r := by
    have hc : c.reader.closed = false := hclosed
    have he : c.reader.error = false := herror
    rw [hc, he, Bool.false_or, Bool.false_or, Bool.or_comm]
    rfl
  have hp : c.reader.readBuffer ++ gained c.readBuffer (c.attempt al r).1 =
      received c al r := hbytes
  have hbuffer : c.reader.buffer = c.buffer.bytes := rfl
  unfold asyncCompletion asyncResult
  rw [hnormal, Option.map_some]
  congr 1
  simp only [Reader.settle, Reader.afterLoop, Option.bind_some, hp, hended] at hspec
  cases hframe : codeFrame req (received c al r) with
  | some n =>
      rw [hframe] at hspec
      rw [completion_of_reader hspec]
      simp [hbuffer]
  | none =>
      rw [hframe] at hspec
      dsimp only at hspec
      by_cases hstop : streamEnded c al r = true
      · rw [if_pos hstop] at hspec
        rw [completion_of_reader hspec, if_pos hstop]
        simp [hbuffer]
      · rw [if_neg hstop] at hspec
        rw [completion_of_reader hspec, if_neg hstop]
        simp [hbuffer]

/-- The condition under which both completions follow the rule: before the end
of the stream, that no NUL stands in the frame; at its end, that nothing was
received or that the frame is everything that was received. -/
def Agrees (req : Request) (p : Bytes) (ended : Bool) : Prop :=
  if ended then p = [] ∨ (shortest req p = some p.length ∧ FrameClean req p)
  else FrameClean req p

/-- Where the code finds no frame, there is none or a NUL stands in it. -/
theorem codeFrame_eq_none {req : Request} {p : Bytes} (hne : req.Nonempty)
    (h : codeFrame req p = none) (hclean : FrameClean req p) : shortest req p = none := by
  cases hshort : shortest req p with
  | none => rfl
  | some k =>
      rw [codeFrame_of_shortest hne hshort hclean] at h
      cases h

/-- Before the end of the stream both results are the same. -/
theorem results_before_end (req : Request) (p : Bytes) :
    asyncResult req p false = syncResult req p false := rfl

/-- Before the end of the stream a result follows the rule exactly when no NUL
stands in the frame. -/
theorem syncResult_before_end {req : Request} {p : Bytes} (hne : req.Nonempty) :
    syncResult req p false = rule req p false ↔ FrameClean req p := by
  simp only [syncResult, rule, Bool.false_eq_true, if_false]
  cases hframe : codeFrame req p with
  | some n =>
      obtain ⟨hshort, hclean⟩ := shortest_of_codeFrame hne hframe
      simp [hshort, hclean]
  | none =>
      constructor
      · intro h
        cases hshort : shortest req p with
        | some k => simp [hshort] at h
        | none =>
            cases req with
            | readUntil delim =>
                intro k hk
                rw [hshort] at hk
                cases hk
            | readbytes len => trivial
            | read => trivial
      · intro hclean
        rw [codeFrame_eq_none hne hframe hclean]

/-- Nothing received satisfies no request. -/
theorem shortest_nil {req : Request} (hne : req.Nonempty) : shortest req [] = none := by
  rw [shortest_eq_none]
  intro k _ hk
  cases req with
  | readUntil delim =>
      obtain ⟨d, rfl, hd⟩ := hne
      have hsuffix : d.1 <:+ ([] : Bytes).take k := hk
      rw [List.take_nil] at hsuffix
      exact hd (List.suffix_nil.mp hsuffix)
  | readbytes len =>
      have hk : k = len := hk
      have hlen : 0 < len := hne
      simp only [List.length_nil] at *
      omega
  | read =>
      obtain ⟨rfl, hpos⟩ := hk
      simp at hpos

/-- At the end of the stream both results follow the rule exactly when nothing
was received or the frame is all of it. -/
theorem results_at_end {req : Request} {p : Bytes} (hne : req.Nonempty) :
    (syncResult req p true = rule req p true ∧ asyncResult req p true = rule req p true) ↔
      p = [] ∨ (shortest req p = some p.length ∧ FrameClean req p) := by
  have hsync : syncResult req p true = ⟨p, [], .done⟩ := rfl
  constructor
  · intro hboth
    obtain ⟨hs, ha⟩ := hboth
    rw [hsync] at hs
    by_cases hp : p = []
    · exact Or.inl hp
    · right
      -- everything went to the caller, so `read_normal` found a frame
      rw [← hs] at ha
      cases hframe : codeFrame req p with
      | none =>
          simp only [asyncResult, hframe, if_true, Completion.mk.injEq] at ha
          exact absurd ha.2.1 hp
      | some n =>
          obtain ⟨hshort, hclean⟩ := shortest_of_codeFrame hne hframe
          simp only [asyncResult, hframe, Completion.mk.injEq, List.drop_eq_nil_iff] at ha
          have hbound := codeFrame_bound hframe
          obtain rfl : n = p.length := by omega
          exact ⟨hshort, hclean⟩
  · intro hcase
    rcases hcase with rfl | ⟨hshort, hclean⟩
    · have hnone := shortest_nil hne
      have hframe : codeFrame req [] = none := by
        cases hcode : codeFrame req [] with
        | none => rfl
        | some n =>
            rw [(shortest_of_codeFrame hne hcode).1] at hnone
            cases hnone
      simp [hsync, asyncResult, rule, hnone, hframe]
    · have hframe := codeFrame_of_shortest hne hshort hclean
      simp [hsync, asyncResult, rule, hshort, hframe]

/-- Both results follow the rule exactly when the condition holds. -/
theorem results_agree {req : Request} {p : Bytes} (ended : Bool) (hne : req.Nonempty) :
    (syncResult req p ended = rule req p ended ∧ asyncResult req p ended = rule req p ended) ↔
      Agrees req p ended := by
  unfold Agrees
  cases ended with
  | true => simpa using results_at_end hne
  | false =>
      rw [results_before_end]
      simpa using syncResult_before_end hne

/-- Both completions follow the rule, and they are those of the machine: what the
read attempt does to `_read_buffer`, and what a hand-over of the rule does to
`buffer`, is the same in 32-bit sizes. -/
structure CompletionsAgree (c : Conn) (req : Request) (al : Allocs) (r : ReadRes) : Prop where
  sync : syncCompletion c req al r = rule req (received c al r) (streamEnded c al r)
  async : asyncCompletion c req al r = some (rule req (received c al r) (streamEnded c al r))
  reads : bufReadFdAppend .u32 c.readBuffer.buf BUF_SIZE al.read r =
    ((c.attempt al r).1.buf, (c.attempt al r).2)
  hands : (rule req (received c al r) (streamEnded c al r)).outcome = .done →
    bufAppend .u32 c.buffer.buf (rule req (received c al r) (streamEnded c al r)).appended
        al.append =
      ((c.buffer.append (rule req (received c al r) (streamEnded c al r)).appended
          al.append).1.buf,
        (c.buffer.append (rule req (received c al r) (streamEnded c al r)).appended al.append).2)

/-- **Two completions.**  On an open connection whose allocations succeed, for every
request and every result of the read attempt (`EINTR` is no attempt), the call and
`read_normal` both follow the rule, on the machine, if and only if the condition
holds and no size computation of the read or of the hand-over wraps. -/
theorem completions_agree {c : Conn} {req : Request} {al : Allocs} {r : ReadRes}
    (hal : al.Good) (hclosed : c.closed = false) (herror : c.error = false)
    (hne : req.Nonempty) (hr : r ≠ .err .eintr) (hread : c.readBuffer.buf.size < 2 ^ 32)
    (hbuffer : c.buffer.buf.size < 2 ^ 32) :
    CompletionsAgree c req al r ↔
      Agrees req (received c al r) (streamEnded c al r) ∧ c.readBuffer.Fits BUF_SIZE ∧
      ((rule req (received c al r) (streamEnded c al r)).outcome = .done →
        c.buffer.Fits (rule req (received c al r) (streamEnded c al r)).appended.length) := by
  have hresults := results_agree (p := received c al r) (streamEnded c al r) hne
  rw [← syncCompletion_eq hal hclosed herror hne.proper, ← Option.some.injEq (asyncResult _ _ _),
    ← asyncCompletion_eq hal hclosed herror hne.proper hr] at hresults
  have hfits := ByteBuf.readFdAppend_machine_iff (n := BUF_SIZE) r hal.1 hread
  have hhands := ByteBuf.append_machine_iff
    (rule req (received c al r) (streamEnded c al r)).appended hal.2 hbuffer
  rw [← hresults, ← hfits, ← hhands]
  constructor
  · exact fun h => ⟨⟨h.sync, h.async⟩, h.reads, h.hands⟩
  · rintro ⟨⟨hsync, hasync⟩, hreads, hhanded⟩
    exact ⟨hsync, hasync, hreads, hhanded⟩

/-- A connection that has received `ab`. -/
def receivedAb : Conn :=
  { Conn.zero.create 5 with readBuffer := (ByteBuf.create.append [97, 98] (some fun _ => 0)).1 }

/-- Allocations whose new cells are 0. -/
def zeroAllocs : Allocs := ⟨some fun _ => 0, some fun _ => 0⟩

theorem zeroAllocs_good : zeroAllocs.Good := ⟨rfl, rfl⟩

/-- The delimiter CR LF. -/
def crlf : CStr := ⟨[13, 10], by decide⟩

/-- The end of file delivers nothing. -/
theorem attempt_eof {c : Conn} {al : Allocs} (hal : al.Good) :
    (c.attempt al .eof).2 = .zero ∧ received c al .eof = c.readBuffer.bytes := by
  obtain ⟨room, _, hret, hbytes⟩ := c.readBuffer.bytes_readFdAppend BUF_SIZE .eof hal.1
  constructor
  · exact hret.trans (by simp [ReadRes.ret, ReadRes.bytes])
  · exact hbytes.trans (by simp [ReadRes.bytes])

/-- Its `_read_buffer` holds `ab`. -/
theorem receivedAb_bytes : receivedAb.readBuffer.bytes = [97, 98] := by
  simp [receivedAb]

/-- Both completions follow the rule when two bytes are asked for, `ab` was
received and the stream ends. -/
theorem completions_agree_ab : CompletionsAgree receivedAb (.readbytes 2) zeroAllocs .eof := by
  have hne : (Request.readbytes 2).Nonempty := Nat.succ_pos 1
  apply (completions_agree zeroAllocs_good rfl rfl hne (by simp) (by decide) (by decide)).mpr
  obtain ⟨_, hbytes⟩ := attempt_eof (c := receivedAb) zeroAllocs_good
  rw [hbytes, receivedAb_bytes]
  refine ⟨?_, by decide, fun _ => ?_⟩
  · unfold Agrees
    split
    · exact Or.inr ⟨by decide, trivial⟩
    · trivial
  · have hlen : (rule (.readbytes 2) [97, 98] (streamEnded receivedAb zeroAllocs .eof)).appended.length
        = 2 := by
      cases streamEnded receivedAb zeroAllocs .eof <;> rfl
    rw [hlen]
    decide

/-- **Disagreement.**  With `ab` received and CR LF asked for, the end of file
makes the call hand over both bytes and `read_normal` none. -/
theorem completions_differ :
    zeroAllocs.Good ∧ receivedAb.closed = false ∧ receivedAb.error = false ∧
    (Request.readUntil (some crlf)).Nonempty ∧
    syncCompletion receivedAb (.readUntil (some crlf)) zeroAllocs .eof =
      ⟨[97, 98], [], .done⟩ ∧
    asyncCompletion receivedAb (.readUntil (some crlf)) zeroAllocs .eof =
      some ⟨[], [97, 98], .done⟩ := by
  obtain ⟨hzero, hbytes⟩ := attempt_eof (c := receivedAb) zeroAllocs_good
  have hended : streamEnded receivedAb zeroAllocs .eof = true := by
    simp [streamEnded, hzero]
  have hne : (Request.readUntil (some crlf)).Nonempty := ⟨crlf, rfl, by decide⟩
  refine ⟨zeroAllocs_good, rfl, rfl, hne, ?_, ?_⟩
  · rw [syncCompletion_eq zeroAllocs_good rfl rfl hne.proper, hbytes, hended, receivedAb_bytes]
    rfl
  · rw [asyncCompletion_eq zeroAllocs_good rfl rfl hne.proper (by simp), hbytes, hended,
      receivedAb_bytes]
    rfl

end Spe
