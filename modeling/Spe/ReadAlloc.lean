import Spe.ConnDefined
import Spe.IoDefined

/-!
# Reads and allocations that fail (`spe_conn.c`, `spe_io.c`)

A read request needs memory twice: `spe_buf_read_fd_append` for `_read_buffer` (`_rbuf`), and
`spe_buf_append` for the buffer that the bytes are handed over to.  The first answers
`SPE_BUF_ERROR`, which `spe_conn_read_sync` and `read_common` take for an error and
`read_normal` does not look at.  The second answers `false`, which nobody looks at: the bytes
are then consumed all the same.

`Fetched` is how far the reads of a request have led.  `input_kept` says for each of the three
paths exactly when the request keeps its input on the machine: when no size wraps and no
`ASSERT` fails (a `realloc` of NULL that fails leaves NULL to be handed over), the append finds
room or memory (an append of nothing may fail behind a read that has failed), and in
`read_normal` `spe_buf_read_fd_append` does, too, or the error flag had been set before.
-/

namespace Spe

/-- The loop of `read_normal` ends with `SPE_BUF_ERROR` exactly when its first read is short of
memory. -/
theorem readLoop_bufError {b b' : ByteBuf} {al : Allocs} {rs : List ReadRes} {ret : ReadRet}
    (h : Conn.readLoop b al rs = some (b', ret)) :
    ret = .bufError ↔ Short b BUF_SIZE al.read := by
  induction rs generalizing b with
  | nil => cases h
  | cons r rs ih =>
      rw [Conn.readLoop] at h
      split at h
      · rename_i hintr
        rw [ih h, short_of_fail hintr]
      · obtain ⟨rfl, rfl⟩ := Prod.mk.inj (Option.some.inj h)
        exact bufError_iff b BUF_SIZE al.read r

section Connection

/-- A read has failed with an error that is one to the connection. -/
def Fetched.Fatal (f : Fetched) : Prop := ∃ ret, f.ret = some ret ∧ ret.fatal = true

/-- A read call is defined and keeps its input. -/
structure Conn.KeepsIssue (c : Conn) (req : Request) (al : Allocs) (r : ReadRes) : Prop where
  defined : c.Defined (.issue req al r)
  kept : KeepsInput (c.fetch req al r) c.buffer al.append (c.issue req al r).1.readBuffer.bytes
    (c.issue req al r).1.buffer.bytes ((c.issue req al r).2 = .done)
    ((c.issue req al r).1.error = true)

/-- `read_normal` is defined and keeps its input when it returns. -/
structure Conn.KeepsNormal (c : Conn) (timedOut : Bool) (al : Allocs) (rs : List ReadRes) :
    Prop where
  defined : c.Defined (.readNormal timedOut al rs)
  kept : ∀ c' out, c.readNormal timedOut al rs = some (c', out) →
    ∃ f, c.fetchNormal timedOut al rs = some f ∧
      KeepsInput f c.buffer al.append c'.readBuffer.bytes c'.buffer.bytes (out = .done)
        (c'.error = true)

/-- The condition under which a read call keeps its input: it is defined, and the append of its
hand-over can be afforded. -/
structure Conn.IssueAffords (c : Conn) (req : Request) (al : Allocs) (r : ReadRes) : Prop where
  defined : c.Defined (.issue req al r)
  append : (c.fetch req al r).Affords c.buffer al.append
    (c.error = true ∨ (c.fetch req al r).Fatal)

variable {c c' : Conn} {al : Allocs}

/-- The check of `_read_type` hands over the frame of the pending request. -/
theorem checkReadType_handed (c : Conn) (al : Allocs) :
    match c.request.bind (fun req => codeFrame req c.readBuffer.bytes) with
    | some n => ∃ c', c.checkReadType al = some c' ∧ c'.error = c.error ∧
        HandedOver c.readBuffer.bytes c.buffer al.append (some n) c'.readBuffer.bytes
          c'.buffer.bytes
    | none => c.checkReadType al = none := by
  unfold Conn.request Conn.checkReadType
  cases c.readType with
  | readNone => rfl
  | readUntil =>
      simp only [Option.bind_some, ← search_frame]
      cases c.readBuffer.search c.delim.1 with
      | none => rfl
      | some pos => exact ⟨_, rfl, rfl, .first _ _ _ _⟩
  | readBytes =>
      simp only [Option.bind_some, codeFrame, ByteBuf.len_eq]
      by_cases hle : c.rbytes ≤ c.readBuffer.bytes.length
      · simp only [if_pos hle]
        exact ⟨_, rfl, rfl, .first _ _ _ _⟩
      · simp only [if_neg hle]
  | read =>
      simp only [Option.bind_some, codeFrame, ByteBuf.len_eq]
      by_cases hempty : c.readBuffer.bytes = []
      · simp only [hempty, List.length_nil, Nat.lt_irrefl, if_false, if_true]
      · have hpos : 0 < c.readBuffer.bytes.length := List.length_pos_iff.mpr hempty
        simp only [if_neg hempty, if_pos hpos]
        exact ⟨_, rfl, rfl, .all _ _ _⟩

/-- A read call whose synchronous attempt goes on hands over the frame that it finds, or
becomes the pending request. -/
theorem issue_handed {req : Request} {r : ReadRes} (hclosed : c.closed = false)
    (herror : c.error = false) (hproper : req.Proper) (hsync : c.readSync al r = (c', false)) :
    HandedOver c'.readBuffer.bytes c'.buffer al.append (codeFrame req c'.readBuffer.bytes)
      (c.issue req al r).1.readBuffer.bytes (c.issue req al r).1.buffer.bytes ∧
    (c.issue req al r).1.error = c'.error ∧
    ((codeFrame req c'.readBuffer.bytes).isSome → (c.issue req al r).2 = .done) := by
  cases req with
  | readUntil delim =>
      obtain ⟨delim, rfl⟩ := Option.isSome_iff_exists.mp hproper
      rw [← search_frame]
      simp only [Conn.issue, Conn.readUntil, hclosed, herror, hsync, Bool.or_self,
        Bool.false_eq_true, if_false]
      cases c'.readBuffer.search delim.1 with
      | none => exact ⟨.nothing _ _ _, rfl, by rintro ⟨⟩⟩
      | some pos => exact ⟨.first _ _ _ _, rfl, fun _ => rfl⟩
  | readbytes len =>
      have hlen : len ≠ 0 := Nat.pos_iff_ne_zero.mp hproper
      simp only [Conn.issue, Conn.readbytes, hclosed, herror, hsync, hlen, codeFrame,
        ByteBuf.len_eq, Bool.or_self, Bool.false_eq_true, decide_false, if_false]
      by_cases hle : len ≤ c'.readBuffer.bytes.length
      · simp only [if_pos hle]
        exact ⟨.first _ _ _ _, rfl, fun _ => trivial⟩
      · simp only [if_neg hle]
        exact ⟨.nothing _ _ _, rfl, by rintro ⟨⟩⟩
  | read =>
      simp only [Conn.issue, Conn.read, hclosed, herror, hsync, codeFrame, ByteBuf.len_eq,
        Bool.or_self, Bool.false_eq_true, if_false]
      by_cases hempty : c'.readBuffer.bytes = []
      · rw [if_pos hempty, if_neg (by rw [hempty]; exact Nat.lt_irrefl 0)]
        exact ⟨.nothing _ _ _, rfl, by rintro ⟨⟩⟩
      · have hpos : 0 < c'.readBuffer.bytes.length := List.length_pos_iff.mpr hempty
        simp only [if_neg hempty, if_pos hpos]
        exact ⟨.all _ _ _, rfl, fun _ => trivial⟩

/-- A read call on a connection on which none is refused. -/
theorem fetch_open {req : Request} {r : ReadRes} (hclosed : c.closed = false)
    (herror : c.error = false) (hproper : req.Proper) :
    c.fetch req al r = ⟨(c.attempt al r).1, some (c.attempt al r).2,
      if (c.attempt al r).2.fatal ∨ (c.attempt al r).2 = .zero then
        some (c.attempt al r).1.bytes.length
      else codeFrame req (c.attempt al r).1.bytes⟩ := by
  have hopen : ¬ (c.closed ∨ c.error ∨ ¬ req.Proper) := by simp [hclosed, herror, hproper]
  unfold Conn.fetch
  rw [if_neg hopen]

/-- A read call that is refused changes nothing. -/
theorem issue_refused {req : Request} {r : ReadRes}
    (h : c.closed ∨ c.error ∨ ¬ req.Proper) : c.issue req al r = (c, .refused) := by
  cases req with
  | readUntil delim =>
      cases delim with
      | none => rfl
      | some delim =>
          have hends : (c.closed || c.error) = true := by
            rcases h with h | h | h
            · rw [h, Bool.true_or]
            · rw [h, Bool.or_true]
            · exact absurd rfl h
          exact if_pos hends
  | readbytes len =>
      refine if_pos ?_
      rcases h with h | h | h
      · simp [h]
      · simp [h]
      · have hzero : len = 0 := Nat.eq_zero_of_not_pos h
        simp [hzero]
  | read =>
      have hends : (c.closed || c.error) = true := by
        rcases h with h | h | h
        · rw [h, Bool.true_or]
        · rw [h, Bool.or_true]
        · exact absurd trivial h
      exact if_pos hends

/-- `spe_conn_read_sync` that meets the end of the stream or an error. -/
theorem readSync_stops {r : ReadRes}
    (hstop : (c.attempt al r).2.fatal ∨ (c.attempt al r).2 = .zero) :
    ∃ c₁ : Conn, c.readSync al r = (c₁.handOverAll al, true) ∧ c₁.buffer = c.buffer ∧
      c₁.readBuffer = (c.attempt al r).1 ∧ c₁.error = (c.error || (c.attempt al r).2.fatal) := by
  have hends : (c.error || (c.attempt al r).2.fatal ||
      (c.closed || decide ((c.attempt al r).2 = .zero))) = true := by
    rcases hstop with hstop | hstop <;> simp [hstop]
  unfold Conn.attempt at hends ⊢
  unfold Conn.readSync
  simp only [hends, if_true]
  exact ⟨_, rfl, rfl, rfl, rfl⟩

/-- **The read calls** hand over what they have fetched, and fail when their read does. -/
theorem issue_fetched (c : Conn) (req : Request) (al : Allocs) (r : ReadRes) :
    HandedOver (c.fetch req al r).held c.buffer al.append (c.fetch req al r).handed
      (c.issue req al r).1.readBuffer.bytes (c.issue req al r).1.buffer.bytes ∧
    ((c.issue req al r).1.error = true ↔ c.error = true ∨ (c.fetch req al r).Fatal) ∧
    ((c.fetch req al r).handed.isSome → (c.issue req al r).2 = .done) := by
  by_cases hrefused : c.closed ∨ c.error ∨ ¬ req.Proper
  · have hfetch : c.fetch req al r = ⟨c.readBuffer, none, none⟩ := if_pos hrefused
    rw [issue_refused hrefused, hfetch]
    refine ⟨.nothing _ _ _, ?_, by rintro ⟨⟩⟩
    constructor
    · exact Or.inl
    · rintro (herror | ⟨ret, hret, _⟩)
      · exact herror
      · cases hret
  · obtain ⟨hclosed, hrest⟩ := not_or.mp hrefused
    obtain ⟨herror, hproper⟩ := not_or.mp hrest
    have hclosed : c.closed = false := by simpa using hclosed
    have herror : c.error = false := by simpa using herror
    have hproper : req.Proper := not_not.mp hproper
    have hfatal : ∀ held handed, (Fetched.Fatal ⟨held, some (c.attempt al r).2, handed⟩ ↔
        (c.attempt al r).2.fatal = true) := by
      intro held handed
      constructor
      · rintro ⟨ret, hret, hf⟩
        obtain rfl := Option.some.inj hret
        exact hf
      · exact fun hf => ⟨_, rfl, hf⟩
    rw [fetch_open hclosed herror hproper, hfatal, herror]
    by_cases hstop : (c.attempt al r).2.fatal ∨ (c.attempt al r).2 = .zero
    · obtain ⟨c₁, hsync, hbuffer, hread, herr⟩ := readSync_stops hstop
      have hended : (c.readSync al r).2 = true := by rw [hsync]
      rw [issue_ended hclosed herror hproper hended, hsync, if_pos hstop, ← hbuffer, ← hread]
      refine ⟨.all _ _ _, ?_, fun _ => rfl⟩
      have hkept : (c₁.handOverAll al).error = c₁.error := rfl
      rw [hkept, herr, herror]
      simp
    · have hsync := readSync_goes hclosed herror hstop
      obtain ⟨hhanded, herr, hdone⟩ := issue_handed hclosed herror hproper hsync
      rw [if_neg hstop]
      refine ⟨hhanded, ?_, hdone⟩
      have hgoes : ¬ (c.attempt al r).2.fatal = true := fun hf => hstop (Or.inl hf)
      rw [herr]
      simp [herror, hgoes]

/-- A read call keeps its input exactly when the append of its hand-over can be afforded. -/
theorem keepsIssue_iff (c : Conn) (req : Request) (al : Allocs) (r : ReadRes) :
    c.KeepsIssue req al r ↔ c.IssueAffords req al r := by
  obtain ⟨hhanded, herror, hdone⟩ := issue_fetched c req al r
  have hexact := @keepsInput_iff (c.fetch req al r) c.buffer al.append _ _ _
    ((c.issue req al r).1.error = true) hhanded hdone
  rw [herror] at hexact
  constructor
  · rintro ⟨hdefined, hkept⟩
    rw [herror] at hkept
    exact ⟨hdefined, (hexact.mp hkept).2⟩
  rintro ⟨hdefined, hafford⟩
  refine ⟨hdefined, ?_⟩
  rw [herror]
  refine hexact.mpr ⟨?_, hafford⟩
  -- `spe_conn_read_sync` takes `SPE_BUF_ERROR` for an error
  intro hret
  have hfatal : (c.fetch req al r).Fatal := ⟨.bufError, hret, rfl⟩
  refine ⟨hdone ?_, Or.inr hfatal⟩
  unfold Conn.fetch at hret ⊢
  split at hret
  · cases hret
  · rename_i hopen
    have hbuf : (c.attempt al r).2 = .bufError := Option.some.inj hret
    rw [if_neg hopen]
    simp [hbuf, ReadRet.fatal]

/-- The rest of `read_normal` hands over the frame of the pending request; it leaves the
request pending only when there is none, and neither the stream has ended nor a read has
failed. -/
theorem settle_handed (c : Conn) (al : Allocs) :
    HandedOver c.readBuffer.bytes c.buffer al.append
      (c.request.bind fun req => codeFrame req c.readBuffer.bytes)
      (c.settle al).1.readBuffer.bytes (c.settle al).1.buffer.bytes ∧
    (c.settle al).1.error = c.error ∧
    ((c.request.bind fun req => codeFrame req c.readBuffer.bytes).isSome →
      (c.settle al).2 = .done) ∧
    (c.error = true → (c.settle al).2 = .done) := by
  have hcheck := checkReadType_handed c al
  unfold Conn.settle
  cases hframe : c.request.bind fun req => codeFrame req c.readBuffer.bytes with
  | some n =>
      rw [hframe] at hcheck
      obtain ⟨c', hsome, herror, hhanded⟩ := hcheck
      rw [hsome]
      exact ⟨hhanded, herror, fun _ => rfl, fun _ => rfl⟩
  | none =>
      rw [hframe] at hcheck
      rw [hcheck]
      dsimp only
      by_cases hends : (c.closed || c.error) = true
      · rw [if_pos hends]
        exact ⟨.nothing _ _ _, rfl, by rintro ⟨⟩, fun _ => rfl⟩
      · rw [if_neg hends]
        refine ⟨.nothing _ _ _, rfl, by rintro ⟨⟩, ?_⟩
        intro herror
        rw [herror, Bool.or_true] at hends
        exact absurd rfl hends

/-- The condition under which `read_normal` keeps its input: it is defined, its reads are not
short of memory, and the append of its hand-over can be afforded, unless the error flag makes up
for it. -/
structure Conn.NormalAffords (c : Conn) (timedOut : Bool) (al : Allocs) (rs : List ReadRes) :
    Prop where
  defined : c.Defined (.readNormal timedOut al rs)
  memory : ∀ f, c.fetchNormal timedOut al rs = some f →
    (f.ret.isSome → Short c.readBuffer BUF_SIZE al.read → c.error = true) ∧
    f.Affords c.buffer al.append (c.error = true ∨ f.Fatal)

/-- After a timeout `read_normal` reads nothing and keeps its input. -/
theorem keepsNormal_timeout {timedOut : Bool} (al : Allocs) (rs : List ReadRes)
    (h : c.readExpireTime ≠ 0 ∧ timedOut) :
    c.KeepsNormal timedOut al rs ∧ c.NormalAffords timedOut al rs := by
  have hfetch : c.fetchNormal timedOut al rs = some ⟨c.readBuffer, none, none⟩ := if_pos h
  have hdefined : c.Defined (.readNormal timedOut al rs) := by
    refine ⟨⟨fun hnot => absurd h hnot, ?_⟩, ?_⟩
    · intro f hf n hn
      obtain rfl := Option.some.inj (hfetch.symm.trans hf)
      cases hn
    · intro f hf hhanded
      obtain rfl := Option.some.inj (hfetch.symm.trans hf)
      cases hhanded
  refine ⟨⟨hdefined, ?_⟩, hdefined, ?_⟩
  · intro c' out hnormal
    refine ⟨_, hfetch, ?_⟩
    unfold Conn.readNormal at hnormal
    rw [if_pos h] at hnormal
    obtain ⟨rfl, rfl⟩ := Prod.mk.inj (Option.some.inj hnormal)
    have hhanded := HandedOver.nothing c.readBuffer.bytes c.buffer al.append
    refine (keepsInput_iff (f := ⟨c.readBuffer, none, none⟩) hhanded fun _ => rfl).mpr ⟨?_, ?_⟩
    · intro hret
      cases hret
    · intro n hn
      cases hn
  · intro f hf
    obtain rfl := Option.some.inj (hfetch.symm.trans hf)
    refine ⟨by rintro ⟨⟩, ?_⟩
    intro n hn
    cases hn

/-- What `read_normal` leaves after its loop. -/
theorem keepsNormal_loop {b : ByteBuf} {ret : ReadRet} {rs : List ReadRes}
    (hloop : Conn.readLoop c.readBuffer al rs = some (b, ret)) {f : Fetched}
    (hf : f = ⟨b, some ret, c.request.bind fun req => codeFrame req b.bytes⟩) :
    KeepsInput f c.buffer al.append ((c.afterLoop b ret).settle al).1.readBuffer.bytes
        ((c.afterLoop b ret).settle al).1.buffer.bytes
        (((c.afterLoop b ret).settle al).2 = .done)
        (((c.afterLoop b ret).settle al).1.error = true) ↔
      (Short c.readBuffer BUF_SIZE al.read → c.error = true) ∧
      f.Affords c.buffer al.append (c.error = true ∨ f.Fatal) := by
  obtain ⟨hhanded, herror, hframe, hends⟩ := settle_handed (c.afterLoop b ret) al
  have hflag : ((c.afterLoop b ret).settle al).1.error = true ↔
      c.error = true ∨ (ret.fatal = true ∧ ret ≠ .bufError) := by
    rw [herror]
    show (c.error || (ret.fatal && decide (ret ≠ .bufError))) = true ↔ _
    simp
  have hfatal : f.Fatal ↔ ret.fatal = true := by
    constructor
    · rintro ⟨ret', hret', hf'⟩
      rw [hf] at hret'
      obtain rfl := Option.some.inj hret'
      exact hf'
    · intro h
      exact ⟨ret, by rw [hf], h⟩
  have hhanded : HandedOver f.held c.buffer al.append f.handed
      ((c.afterLoop b ret).settle al).1.readBuffer.bytes
      ((c.afterLoop b ret).settle al).1.buffer.bytes := by
    rw [hf]
    exact hhanded
  have hframe : f.handed.isSome → ((c.afterLoop b ret).settle al).2 = .done := by
    rw [hf]
    exact hframe
  have hret : f.ret = some ret := by rw [hf]
  rw [keepsInput_iff hhanded hframe, hret, ← readLoop_bufError hloop, hflag, hfatal]
  constructor
  · rintro ⟨hread, hafford⟩
    refine ⟨?_, ?_⟩
    · intro hbuf
      obtain ⟨_, herr | ⟨_, hne⟩⟩ := hread (congrArg some hbuf)
      · exact herr
      · exact absurd hbuf hne
    · intro n hn hshort
      obtain ⟨hnil, herr⟩ := hafford n hn hshort
      exact ⟨hnil, herr.imp_right And.left⟩
  · rintro ⟨hread, hafford⟩
    refine ⟨?_, ?_⟩
    · intro hbuf
      have herr := hread (Option.some.inj hbuf)
      exact ⟨hends (herror ▸ hflag.mpr (Or.inl herr)), Or.inl herr⟩
    · intro n hn hshort
      obtain ⟨hnil, herr⟩ := hafford n hn hshort
      refine ⟨hnil, ?_⟩
      -- `SPE_BUF_ERROR` is no error here, but then the flag was set before
      by_cases hbuf : ret = .bufError
      · exact Or.inl (hread hbuf)
      · exact herr.imp_right fun h => ⟨h, hbuf⟩

/-- What `read_normal` keeps after its loop. -/
theorem keepsNormal_loops {timedOut : Bool} (al : Allocs) (rs : List ReadRes)
    (h : ¬ (c.readExpireTime ≠ 0 ∧ timedOut)) :
    (∀ c' out, c.readNormal timedOut al rs = some (c', out) →
      ∃ f, c.fetchNormal timedOut al rs = some f ∧
        KeepsInput f c.buffer al.append c'.readBuffer.bytes c'.buffer.bytes (out = .done)
          (c'.error = true)) ↔
    ∀ f, c.fetchNormal timedOut al rs = some f →
      (f.ret.isSome → Short c.readBuffer BUF_SIZE al.read → c.error = true) ∧
      f.Affords c.buffer al.append (c.error = true ∨ f.Fatal) := by
  unfold Conn.fetchNormal Conn.readNormal
  simp only [if_neg h]
  cases hloop : Conn.readLoop c.readBuffer al rs with
  | none =>
      constructor
      · intro _ f hf
        cases hf
      · intro _ c' out hnormal
        cases hnormal
  | some res =>
      obtain ⟨b, ret⟩ := res
      have hexact := keepsNormal_loop hloop rfl
      constructor
      · intro hkept f hf
        obtain rfl := Option.some.inj hf
        obtain ⟨f, hf', hkeeps⟩ := hkept _ _ rfl
        obtain rfl := Option.some.inj hf'
        obtain ⟨hread, hafford⟩ := hexact.mp hkeeps
        exact ⟨fun _ => hread, hafford⟩
      · intro hmemory c' out hnormal
        obtain ⟨hread, hafford⟩ := hmemory _ rfl
        refine ⟨_, rfl, ?_⟩
        have hsettled := Option.some.inj hnormal
        have hkeeps := hexact.mpr ⟨hread rfl, hafford⟩
        rw [hsettled] at hkeeps
        exact hkeeps

/-- `read_normal` keeps its input exactly under its condition. -/
theorem keepsNormal_iff (c : Conn) (timedOut : Bool) (al : Allocs) (rs : List ReadRes) :
    c.KeepsNormal timedOut al rs ↔ c.NormalAffords timedOut al rs := by
  by_cases htime : c.readExpireTime ≠ 0 ∧ timedOut
  · obtain ⟨hkeeps, haffords⟩ := keepsNormal_timeout al rs htime
    exact ⟨fun _ => haffords, fun _ => hkeeps⟩
  · have hexact := keepsNormal_loops al rs htime
    exact ⟨fun h => ⟨h.defined, hexact.mp h.kept⟩, fun h => ⟨h.defined, hexact.mpr h.memory⟩⟩

end Connection

section Reader

/-- A read has failed with a negative result. -/
def Fetched.Negative (f : Fetched) : Prop := ∃ ret, f.ret = some ret ∧ ret.value < 0

/-- A call is defined and keeps its input when it returns. -/
structure Io.KeepsCall (io : Io) (fd : Descriptor) (c : IoCall) : Prop where
  defined : io.CallDefined fd c
  kept : ∀ r, io.call fd c = some r → ∃ f, io.fetchCall fd c = some f ∧
    KeepsInput f c.dest c.al r.io.rbuf.bytes r.buf.bytes True (r.io.error = true)

/-- The condition under which a call keeps its input: it is defined, and the append of its
hand-over can be afforded. -/
structure Io.CallAffords (io : Io) (fd : Descriptor) (c : IoCall) : Prop where
  defined : io.CallDefined fd c
  append : ∀ f, io.fetchCall fd c = some f → f.Affords c.dest c.al (io.error = true ∨ f.Negative)

/-- The checks at the head of the loop hand over the frame of the request. -/
theorem checkType_handed (io : Io) (buf : ByteBuf) (al : Alloc) :
    match io.request.bind fun req => codeFrame req io.rbuf.bytes with
    | some n => ∃ io' len, io.checkType buf al =
          some (io', (buf.append (io.rbuf.bytes.take n) al).1, len) ∧
        io'.error = io.error ∧ io'.rbuf.buf.size = io.rbuf.buf.size ∧
        HandedOver io.rbuf.bytes buf al (some n) io'.rbuf.bytes
          (buf.append (io.rbuf.bytes.take n) al).1.bytes
    | none => io.checkType buf al = none := by
  unfold Io.request Io.checkType
  cases io.rtype with
  | readNone => rfl
  | read =>
      simp only [Option.bind_some, codeFrame, ByteBuf.len_eq]
      by_cases hempty : io.rbuf.bytes = []
      · simp only [hempty, List.length_nil, Nat.lt_irrefl, if_false, if_true]
      · have hpos : 0 < io.rbuf.bytes.length := List.length_pos_iff.mpr hempty
        simp only [if_neg hempty, if_pos hpos, List.take_length]
        exact ⟨_, _, rfl, rfl, (ByteBuf.size_clean _).1, .all _ _ _⟩
  | readBytes =>
      simp only [Option.bind_some, codeFrame, ByteBuf.len_eq]
      by_cases hle : io.rbytes ≤ io.rbuf.bytes.length
      · simp only [if_pos hle]
        exact ⟨_, _, rfl, rfl, ByteBuf.size_lconsume _ _, .first _ _ _ _⟩
      · simp only [if_neg hle]
  | readUntil =>
      simp only [Option.bind_some, ← search_frame]
      cases io.rbuf.search io.delim.1 with
      | none => rfl
      | some pos => exact ⟨_, _, rfl, rfl, ByteBuf.size_lconsume _ _, .first _ _ _ _⟩

/-- What a call leaves when it has fetched `f`. -/
structure IoResult.Shows (r : IoResult) (f : Fetched) (dest : ByteBuf) (al : Alloc)
    (error : Prop) : Prop where
  handed : HandedOver f.held dest al f.handed r.io.rbuf.bytes r.buf.bytes
  error : r.io.error = true ↔ error ∨ f.Negative
  rbuf : r.io.rbuf.buf.size = f.source.buf.size
  dest : ∀ n, f.handed = some n → r.buf = (dest.append (f.held.take n) al).1

/-- The loop when the frame is there. -/
theorem readCommon_frame {io : Io} (buf : ByteBuf) (al : Alloc) (fd : Descriptor)
    (cuts : List (Cut × Alloc)) {n : Nat}
    (hframe : (io.request.bind fun req => codeFrame req io.rbuf.bytes) = some n) :
    io.fetch fd cuts = some ⟨io.rbuf, none, some n⟩ ∧
    ∃ r, io.readCommon buf al fd cuts = some r ∧
      r.Shows ⟨io.rbuf, none, some n⟩ buf al (io.error = true) := by
  have hcheck := checkType_handed io buf al
  rw [hframe] at hcheck
  obtain ⟨io', len, hsome, herror, hsize, hhanded⟩ := hcheck
  constructor
  · unfold Io.fetch
    rw [hframe]
  · refine ⟨⟨io', (buf.append (io.rbuf.bytes.take n) al).1, fd, len⟩, ?_, hhanded, ⟨?_, ?_⟩, hsize,
      ?_⟩
    · unfold Io.readCommon
      rw [hsome]
    · exact fun h => Or.inl (herror ▸ h)
    · rintro (h | ⟨ret, hret, _⟩)
      · exact herror.trans h
      · cases hret
    · intro k hk
      obtain rfl := Option.some.inj hk
      rfl

/-- The end of `read_common` behind a read that delivers nothing. -/
theorem copyRest_shows (io : Io) (buf : ByteBuf) (al : Alloc) (fd : Descriptor) (value : Int)
    {ret : ReadRet} (h : io.error = true ↔ ret.value < 0) :
    (io.copyRest buf al fd value).Shows
      ⟨io.rbuf, some ret, some io.rbuf.bytes.length⟩ buf al False := by
  refine ⟨.all _ _ _, ?_, (ByteBuf.size_clean _).1, ?_⟩
  · show io.error = true ↔ _
    rw [h]
    constructor
    · exact fun hneg => Or.inr ⟨ret, rfl, hneg⟩
    · rintro (hfalse | ⟨ret', hret, hneg⟩)
      · exact hfalse.elim
      · obtain rfl := Option.some.inj hret
        exact hneg
  · intro n hn
    obtain rfl := Option.some.inj hn
    rw [Fetched.held, List.take_length]
    rfl

/-- **The loop of `read_common`** hands over what it has fetched, and fails when its last read
does. -/
theorem readCommon_fetched {io : Io} (buf : ByteBuf) (al : Alloc) (fd : Descriptor)
    (cuts : List (Cut × Alloc)) (herror : io.error = false) :
    (io.fetch fd cuts = none ∧ io.readCommon buf al fd cuts = none) ∨
    ∃ f r, io.fetch fd cuts = some f ∧ io.readCommon buf al fd cuts = some r ∧
      r.Shows f buf al False := by
  induction cuts generalizing io fd with
  | nil =>
      cases hframe : io.request.bind fun req => codeFrame req io.rbuf.bytes with
      | some n =>
          obtain ⟨hfetch, r, hr, hshows⟩ := readCommon_frame buf al fd [] hframe
          rw [herror, Bool.false_eq_true] at hshows
          exact Or.inr ⟨_, r, hfetch, hr, hshows⟩
      | none =>
          have hcheck := checkType_handed io buf al
          rw [hframe] at hcheck
          left
          rw [Io.fetch, Io.readCommon, hframe, hcheck]
          exact ⟨rfl, rfl⟩
  | cons turn cuts ih =>
      obtain ⟨cut, fresh⟩ := turn
      cases hframe : io.request.bind fun req => codeFrame req io.rbuf.bytes with
      | some n =>
          obtain ⟨hfetch, r, hr, hshows⟩ := readCommon_frame buf al fd ((cut, fresh) :: cuts) hframe
          rw [herror, Bool.false_eq_true] at hshows
          exact Or.inr ⟨_, r, hfetch, hr, hshows⟩
      | none =>
          have hcheck := checkType_handed io buf al
          rw [hframe] at hcheck
          rw [Io.fetch, Io.readCommon, hframe, hcheck]
          dsimp only
          cases hret : (io.rbuf.readFdAppend BUF_LEN fresh (cut.answer fd)).2 with
          | got n => exact ih _ herror
          | zero =>
              refine Or.inr ⟨_, _, rfl, rfl, copyRest_shows _ buf al fd 0 ?_⟩
              show io.error = true ↔ (0 : Int) < 0
              simp [herror]
          | bufError =>
              refine Or.inr ⟨_, _, rfl, rfl, copyRest_shows _ buf al fd _ ?_⟩
              show true = true ↔ (-2 : Int) < 0
              decide
          | fail e =>
              cases e with
              | eintr => exact ih _ herror
              | _ =>
                  refine Or.inr ⟨_, _, rfl, rfl, copyRest_shows _ buf al fd _ ?_⟩
                  show true = true ↔ (-1 : Int) < 0
                  decide

/-- A call that goes into the loop, and one on a reader that is closed or has failed. -/
theorem guarded_fetched (io : Io) {io' : Io} (buf : ByteBuf) (al : Alloc) (fd : Descriptor)
    (cuts : List (Cut × Alloc)) (herror : io'.error = io.error) :
    (io.fetchGuarded io' fd cuts = none ∧ io.guarded io' buf al fd cuts = none) ∨
    ∃ f r, io.fetchGuarded io' fd cuts = some f ∧ io.guarded io' buf al fd cuts = some r ∧
      r.Shows f buf al (io.error = true) := by
  have hrefused : ∀ ret : Int, IoResult.Shows ⟨io, buf, fd, ret⟩ ⟨io.rbuf, none, none⟩ buf al
      (io.error = true) := by
    intro ret
    refine ⟨.nothing _ _ _, ⟨Or.inl, ?_⟩, rfl, fun n hn => by cases hn⟩
    rintro (h | ⟨ret, hret, _⟩)
    · exact h
    · cases hret
  unfold Io.fetchGuarded Io.guarded
  by_cases hclosed : io.closed = true
  · rw [if_pos (Or.inl hclosed), if_pos hclosed]
    exact Or.inr ⟨_, _, rfl, rfl, hrefused _⟩
  · rw [if_neg hclosed]
    by_cases hfailed : io.error = true
    · rw [if_pos (Or.inr hfailed), if_pos hfailed]
      exact Or.inr ⟨_, _, rfl, rfl, hrefused _⟩
    · have hopen : ¬ (io.closed = true ∨ io.error = true) := not_or.mpr ⟨hclosed, hfailed⟩
      rw [if_neg hopen, if_neg hfailed]
      have hok : io'.error = false := by rw [herror]; simpa using hfailed
      rcases readCommon_fetched buf al fd cuts hok with hnone | ⟨f, r, hf, hr, hshows⟩
      · exact Or.inl hnone
      · refine Or.inr ⟨f, r, hf, hr, hshows.handed, hshows.error.trans ?_, hshows.rbuf, hshows.dest⟩
        constructor
        · exact fun h => Or.inr (h.resolve_left id)
        · exact fun h => Or.inr (h.resolve_left hfailed)

/-- The three functions hand over what they have fetched. -/
theorem call_fetched (io : Io) (fd : Descriptor) (c : IoCall) :
    (io.fetchCall fd c = none ∧ io.call fd c = none) ∨
    ∃ f r, io.fetchCall fd c = some f ∧ io.call fd c = some r ∧
      r.Shows f c.dest c.al (io.error = true) := by
  unfold Io.fetchCall Io.call
  cases c.req with
  | read => exact guarded_fetched io c.dest c.al fd c.cuts rfl
  | readbytes len =>
      unfold Io.readbytes
      dsimp only
      by_cases hlen : len = 0
      · rw [if_pos hlen, if_pos hlen]
        exact Or.inl ⟨rfl, rfl⟩
      · rw [if_neg hlen, if_neg hlen]
        exact guarded_fetched io c.dest c.al fd c.cuts rfl
  | readUntil delim =>
      cases delim with
      | none => exact Or.inl ⟨rfl, rfl⟩
      | some delim => exact guarded_fetched io c.dest c.al fd c.cuts rfl

/-- A call keeps its input exactly when the append of its hand-over can be afforded. -/
theorem keepsCall_iff (io : Io) (fd : Descriptor) (c : IoCall) :
    io.KeepsCall fd c ↔ io.CallAffords fd c := by
  rcases call_fetched io fd c with ⟨hfetch, hcall⟩ | ⟨f, r, hfetch, hcall, hshows⟩
  · constructor
    · rintro ⟨hdefined, _⟩
      refine ⟨hdefined, fun f hf => ?_⟩
      cases hfetch.symm.trans hf
    · rintro ⟨hdefined, _⟩
      refine ⟨hdefined, fun r hr => ?_⟩
      cases hcall.symm.trans hr
  · have herror := hshows.error
    have hexact : KeepsInput f c.dest c.al r.io.rbuf.bytes r.buf.bytes True (r.io.error = true) ↔
        _ := keepsInput_iff hshows.handed fun _ => trivial
    rw [herror] at hexact
    -- `read_common` takes every negative result for an error
    have hread : f.ret = some .bufError → True ∧ (io.error = true ∨ f.Negative) :=
      fun hret => ⟨trivial, Or.inr ⟨_, hret, by decide⟩⟩
    constructor
    · rintro ⟨hdefined, hkept⟩
      refine ⟨hdefined, fun f' hf' => ?_⟩
      obtain rfl := Option.some.inj (hfetch.symm.trans hf')
      obtain ⟨f', hf', hkeeps⟩ := hkept r hcall
      obtain rfl := Option.some.inj (hfetch.symm.trans hf')
      rw [herror] at hkeeps
      exact (hexact.mp hkeeps).2
    · rintro ⟨hdefined, hafford⟩
      refine ⟨hdefined, fun r' hr' => ?_⟩
      obtain rfl := Option.some.inj (hcall.symm.trans hr')
      refine ⟨f, hfetch, ?_⟩
      rw [herror]
      exact hexact.mpr ⟨hread, hafford f hfetch⟩

end Reader

/-- **Input.**  On each of the three paths a request keeps its input on the machine exactly when
it is defined and can afford its hand-over, and in `read_normal` its reads, too. -/
theorem input_kept (c : Conn) (al : Allocs) (req : Request) (r : ReadRes) (timedOut : Bool)
    (rs : List ReadRes) (io : Io) (fd : Descriptor) (call : IoCall) :
    (c.KeepsIssue req al r ↔ c.IssueAffords req al r) ∧
    (c.KeepsNormal timedOut al rs ↔ c.NormalAffords timedOut al rs) ∧
    (io.KeepsCall fd call ↔ io.CallAffords fd call) :=
  ⟨keepsIssue_iff c req al r, keepsNormal_iff c timedOut al rs, keepsCall_iff io fd call⟩

/-- A new connection with a request for whatever is there. -/
def Conn.waiting : Conn := { Conn.zero.create 3 with readType := .read }

/-- A byte that has been read into `_read_buffer` is consumed, and the append to `buffer`
fails; and a read that is short of memory leaves the request pending.  No size wraps, and no
`ASSERT` fails. -/
theorem input_kept_fails :
    (¬ ∀ (c : Conn) (req : Request) (al : Allocs) (r : ReadRes), c.Defined (.issue req al r) →
      c.KeepsIssue req al r) ∧
    ¬ ∀ (c : Conn) (timedOut : Bool) (al : Allocs) (rs : List ReadRes),
      c.Defined (.readNormal timedOut al rs) → c.KeepsNormal timedOut al rs := by
  constructor
  · intro hall
    obtain ⟨f, hf⟩ :
        ∃ f, f = (Conn.zero.create 3).fetch .read ⟨some fun _ => 0, none⟩ (.data [97]) :=
      ⟨_, rfl⟩
    have hdefined : (Conn.zero.create 3).Defined
        (.issue .read ⟨some fun _ => 0, none⟩ (.data [97])) := by decide +kernel
    have hkeeps := ((keepsIssue_iff _ _ _ _).mp (hall _ _ _ _ hdefined)).append
    rw [← hf] at hkeeps
    have hheld : f.held = [97] := by
      rw [hf]
      decide +kernel
    have hhanded : f.handed = some 1 := by
      rw [hf]
      decide +kernel
    have hshort : Short (Conn.zero.create 3).buffer (f.held.take 1).length none := by
      rw [hheld]
      exact ⟨rfl, by decide +kernel⟩
    have hlost := (hkeeps 1 hhanded hshort).1
    rw [hheld] at hlost
    cases hlost
  · intro hall
    have hdefined : Conn.waiting.Defined (.readNormal false ⟨none, none⟩ [.data [97]]) := by
      decide +kernel
    have haffords := ((keepsNormal_iff _ _ _ _).mp (hall _ _ _ _ hdefined)).memory
    have hreads : (Conn.waiting.fetchNormal false ⟨none, none⟩ [.data [97]]).map
        (fun f => f.ret.isSome) = some true := by decide +kernel
    obtain ⟨f, hf, hret⟩ := Option.map_eq_some_iff.mp hreads
    have hshort : Short Conn.waiting.readBuffer BUF_SIZE none := ⟨rfl, by decide +kernel⟩
    have herror := (haffords f hf).1 hret hshort
    cases herror

end Spe
