import Spe.ConnCompletion
import Spe.ConnDefined

/-!
# The read side of a run

`ReadSide` is what a connection has done on its read side, as byte strings.  In
a *calm* run allocations succeed, the requests are proper, no operation times
out and no system call fails but with a request to try again; then every event
is one move of the read side (`calm_move`): a read call, an execution of
`read_normal`, or nothing.

Two results rest on the moves.  Up to the end of the stream the bytes handed
over and those in `_read_buffer` are the bytes received, and when the end is
noticed while `_read_buffer` is empty, or by a read call, nothing is lost
(`end_keeps_stream`).  Without an end, what is handed over to each request does
not depend on how the stream was cut into reads (`framing_independent`).
-/

namespace Spe

open Transition

/-- The read side of a connection and its history. -/
structure ReadSide where
  reader : Reader
  received : Bytes
  finished : List (Request × Bytes)
  current : Option Request
  connecting : Bool

/-- The read side of a state. -/
def ConnState.readSide (s : ConnState) : ReadSide where
  reader := s.conn.reader
  received := s.hist.received
  finished := s.hist.finished
  current := s.hist.current
  connecting := s.hist.connecting

/-- A result of `read` that is not a failure: data, the end of the stream, or a
request to try again. -/
def ReadRes.Calm : ReadRes → Prop
  | .data bs => bs ≠ []
  | .eof => True
  | .err .eagain => True
  | .err .eintr => True
  | .err _ => False

/-- The results on which the loop of `read_normal` ends with the end of the
stream. -/
def meetsEnd : List ReadRes → Bool
  | .eof :: _ => true
  | .err .eintr :: rs => meetsEnd rs
  | _ => false

/-- The steps of a calm run. -/
def Calm (s : ConnState) : ConnEvent → Prop
  | .issue req al r => al.Good ∧ req.Proper ∧ r.Calm
  | .readNormal timedOut al rs =>
      al.Good ∧ ¬ (s.conn.readExpireTime ≠ 0 ∧ timedOut) ∧ ∀ r ∈ rs, r.Calm
  | .flush w => ∃ n, w = .wrote n
  | .writeNormal _ w => ∃ n, w = .wrote n
  | .connect res => res ≠ .failed
  | .connectNormal _ soError => soError = false
  | _ => True

/-- The step meets the end of the stream. -/
def AtEnd : ConnEvent → Prop
  | .issue _ _ r => r = .eof
  | .readNormal _ _ rs => meetsEnd rs
  | _ => False

/-- The event executes the request: it is the read call for it, or the execution
of `read_normal` while it is pending. -/
def ReadSide.Asks (t : ReadSide) : ConnEvent → Request → Prop
  | .issue req' _ _, req => t.reader.request = none ∧ req' = req
  | .readNormal _ _ _, req => t.current = some req
  | _, _ => False

/-- A move of the read side.  A request that is executed gets its frame, or
waits for more bytes, or meets the end of the stream.  A connect makes the
read side busy without a request. -/
inductive ReadMove (t : ReadSide) (ev : ConnEvent) : ReadSide → Prop
  | keep (buffer : Bytes) : ReadMove t ev { t with reader := { t.reader with buffer := buffer } }
  | connect (hidle : t.reader.request = none) :
      ReadMove t ev
        { t with reader := { t.reader with request := some .read }, connecting := true }
  | connected (hconnecting : t.connecting = true) :
      ReadMove t ev { t with reader := { t.reader with request := none }, connecting := false }
  | frame {req : Request} {got : Bytes} {n : Nat} (hasks : t.Asks ev req)
      (hopen : t.reader.closed = false)
      (hframe : codeFrame req (t.reader.readBuffer ++ got) = some n) :
      ReadMove t ev
        { reader := { t.reader with
            buffer := t.reader.buffer ++ (t.reader.readBuffer ++ got).take n
            readBuffer := (t.reader.readBuffer ++ got).drop n
            request := none }
          received := t.received ++ got
          finished := t.finished ++ [(req, (t.reader.readBuffer ++ got).take n)]
          current := none
          connecting := false }
  | wait {req : Request} {got : Bytes} (hasks : t.Asks ev req)
      (hopen : t.reader.closed = false)
      (hframe : codeFrame req (t.reader.readBuffer ++ got) = none) :
      ReadMove t ev
        { reader := { t.reader with
            readBuffer := t.reader.readBuffer ++ got
            request := some req }
          received := t.received ++ got
          finished := t.finished
          current := some req
          connecting := false }
  | endInCall (req : Request) (hidle : t.reader.request = none) (hend : AtEnd ev) :
      ReadMove t ev
        { reader := { t.reader with
            buffer := t.reader.buffer ++ t.reader.readBuffer
            readBuffer := []
            closed := true }
          received := t.received
          finished := t.finished ++ [(req, t.reader.readBuffer)]
          current := none
          connecting := false }
  | endInHandler {req : Request} (hpending : t.current = some req) (hend : AtEnd ev) :
      ReadMove t ev
        { reader := { t.reader with closed := true, request := none }
          received := t.received
          finished := t.finished ++ [(req, [])]
          current := none
          connecting := false }

/-- What holds between the moves: no error, and a request is pending only while
the connection is open and the frame is not there. -/
structure ReadSide.Sound (t : ReadSide) : Prop where
  error : t.reader.error = false
  busy : t.connecting = true → t.reader.request ≠ none
  current : t.current = if t.connecting then none else t.reader.request
  closed : t.reader.closed = true → t.current = none
  waits : ∀ req, t.current = some req → codeFrame req t.reader.readBuffer = none

/-- Without a request there is no pending one and no connect. -/
theorem ReadSide.Sound.idle {t : ReadSide} (h : t.Sound) (hidle : t.reader.request = none) :
    t.current = none ∧ t.connecting = false := by
  have hquiet : t.connecting = false := by
    cases hconnecting : t.connecting with
    | false => rfl
    | true => exact absurd hidle (h.busy hconnecting)
  refine ⟨?_, hquiet⟩
  rw [h.current, hquiet]
  exact hidle

/-- A pending request is the one that the connection executes. -/
theorem ReadSide.Sound.pending {t : ReadSide} {req : Request} (h : t.Sound)
    (hpending : t.current = some req) :
    t.reader.request = some req ∧ t.connecting = false ∧ t.reader.closed = false := by
  have hcurrent := h.current
  rw [hpending] at hcurrent
  cases hconnecting : t.connecting with
  | true =>
      rw [hconnecting] at hcurrent
      cases hcurrent
  | false =>
      rw [hconnecting] at hcurrent
      refine ⟨hcurrent.symm, rfl, ?_⟩
      cases hclosed : t.reader.closed with
      | false => rfl
      | true => cases hpending.symm.trans (h.closed hclosed)

/-- A move keeps the read side sound. -/
theorem ReadMove.sound {t t' : ReadSide} {ev : ConnEvent} (h : ReadMove t ev t')
    (hs : t.Sound) : t'.Sound := by
  cases h with
  | keep buffer => exact ⟨hs.error, hs.busy, hs.current, hs.closed, hs.waits⟩
  | connect hidle =>
      obtain ⟨hnone, _⟩ := hs.idle hidle
      exact ⟨hs.error, fun _ => Option.some_ne_none _, hnone, hs.closed, hs.waits⟩
  | connected hconnecting =>
      have hnone : t.current = none := by
        rw [hs.current, hconnecting]
        rfl
      exact ⟨hs.error, nofun, hnone, hs.closed, hs.waits⟩
  | frame hasks hopen hframe => exact ⟨hs.error, nofun, rfl, fun _ => rfl, nofun⟩
  | wait hasks hopen hframe =>
      refine ⟨hs.error, nofun, rfl, ?_, ?_⟩
      · intro hclosed
        cases hopen.symm.trans hclosed
      · intro req hreq
        obtain rfl := Option.some.inj hreq
        exact hframe
  | endInCall req hidle hend => exact ⟨hs.error, nofun, hidle.symm, fun _ => rfl, nofun⟩
  | endInHandler hpending hend => exact ⟨hs.error, nofun, rfl, fun _ => rfl, nofun⟩

/-- A calm read does not fail, and it meets the end of the stream exactly when the
kernel says so. -/
theorem ReadRes.Calm.ret {r : ReadRes} (h : r.Calm) {room : Nat} (hroom : 0 < room) :
    (r.ret room).fatal = false ∧ (r.ret room = .zero ↔ r = .eof) := by
  cases r with
  | data bs =>
      have hpos : 0 < bs.length := List.length_pos_iff.mpr h
      have hdelivered : (bs.take room).length ≠ 0 := by
        rw [List.length_take]
        omega
      have hgot : (ReadRes.data bs).ret room = .got (bs.take room).length := if_neg hdelivered
      rw [hgot]
      exact ⟨rfl, by simp⟩
  | eof => exact ⟨rfl, by simp [ReadRes.ret, ReadRes.bytes]⟩
  | err e =>
      refine ⟨?_, by simp [ReadRes.ret]⟩
      cases e <;> first | rfl | exact h.elim

/-- One calm read. -/
theorem readFdAppend_calm {b : ByteBuf} {al : Allocs} {r : ReadRes} (hal : al.Good)
    (hcalm : r.Calm) :
    (b.readFdAppend BUF_SIZE al.read r).2.fatal = false ∧
    ((b.readFdAppend BUF_SIZE al.read r).2 = .zero ↔ r = .eof) ∧
    ((b.readFdAppend BUF_SIZE al.read r).2 = .fail .eintr ↔ r = .err .eintr) := by
  obtain ⟨room, hroom, hret, _⟩ := b.bytes_readFdAppend BUF_SIZE r hal.1
  have hpos : 0 < room := Nat.lt_of_lt_of_le (by decide) hroom
  obtain ⟨hfatal, hzero⟩ := hcalm.ret hpos
  rw [hret]
  refine ⟨hfatal, hzero, ret_fail, ?_⟩
  intro heq
  subst heq
  rfl

/-- On calm results the loop of `read_normal` does not fail, and it meets the end of
the stream exactly when the kernel says so. -/
theorem readLoop_calm {b b' : ByteBuf} {al : Allocs} {rs : List ReadRes} {ret : ReadRet}
    (hal : al.Good) (hcalm : ∀ r ∈ rs, r.Calm)
    (h : Conn.readLoop b al rs = some (b', ret)) :
    ret.fatal = false ∧ (ret = .zero ↔ meetsEnd rs) := by
  induction rs generalizing b with
  | nil => cases h
  | cons r rs ih =>
      obtain ⟨hfatal, hzero, hintr⟩ := readFdAppend_calm (b := b) hal (hcalm r (by simp))
      rw [Conn.readLoop] at h
      by_cases hagain : r = .err .eintr
      · rw [if_pos (hintr.mpr hagain)] at h
        obtain rfl := hagain
        exact ih (fun r hr => hcalm r (List.mem_cons_of_mem _ hr)) h
      · rw [if_neg (fun hret => hagain (hintr.mp hret))] at h
        rw [Option.some.inj h] at hfatal hzero
        refine ⟨hfatal, hzero.trans ?_⟩
        cases r with
        | data bs => simp [meetsEnd]
        | eof => simp [meetsEnd]
        | err e => cases e <;> simp_all [meetsEnd]

/-- The end of the stream comes without bytes. -/
theorem ReadOnce.end_empty {b b' : ByteBuf} {got : Bytes} {ret : ReadRet}
    (h : ReadOnce b b' got ret) (hzero : ret = .zero) : got = [] := by
  apply h.empty
  intro n heq
  subst heq
  cases hzero

/-- The read side after an operation for the request `req` that received `got`. -/
def ReadSide.after (t : ReadSide) (req : Request) (got : Bytes) (res : Reader × Outcome) :
    ReadSide :=
  match res.2 with
  | .refused => t
  | .done =>
      { t with
        reader := res.1
        received := t.received ++ got
        finished := t.finished ++ [(req, res.1.buffer.drop t.reader.buffer.length)]
        current := none }
  | .pending =>
      { t with reader := res.1, received := t.received ++ got, current := some req }

/-- The read calls do nothing on a closed connection. -/
theorem issue_closed {c : Conn} (hclosed : c.closed = true) (req : Request) (al : Allocs)
    (r : ReadRes) : c.issue req al r = (c, .refused) := by
  cases req with
  | readUntil delim =>
      cases delim with
      | none => rfl
      | some delim => simp [Conn.issue, Conn.readUntil, hclosed]
  | readbytes len => simp [Conn.issue, Conn.readbytes, hclosed]
  | read => simp [Conn.issue, Conn.read, hclosed]

/-- `read_normal` does not refuse. -/
theorem Reader.settle_goes (v : Reader) : v.settle.2 ≠ .refused := by
  unfold Reader.settle
  split
  · exact fun h => nomatch h
  · split <;> exact fun h => nomatch h

/-- A read call on an open connection is not refused. -/
theorem Reader.issue_goes (v : Reader) (req : Request) (got : Bytes) (ret : ReadRet) :
    (v.issue req got ret).2 ≠ .refused := by
  unfold Reader.issue
  dsimp only
  split
  · exact fun h => nomatch h
  · split <;> exact fun h => nomatch h

/-- What a read call does is a move. -/
theorem ReadSide.issue_move {t : ReadSide} {req : Request} {al : Allocs} {r : ReadRes}
    {got : Bytes} {ret : ReadRet} (ht : t.Sound) (hidle : t.reader.request = none)
    (hopen : t.reader.closed = false) (hfatal : ret.fatal = false)
    (hend : ret = .zero → r = .eof ∧ got = []) :
    ReadMove t (.issue req al r) (t.after req got (t.reader.issue req got ret)) := by
  have hasks : t.Asks (.issue req al r) req := ⟨hidle, rfl⟩
  obtain ⟨_, hquiet⟩ := ht.idle hidle
  by_cases hzero : ret = .zero
  · obtain rfl := hzero
    obtain ⟨heof, rfl⟩ := hend rfl
    have hmove : ReadMove t (.issue req al r) _ := .endInCall req hidle heof
    simpa [Reader.issue, ReadSide.after, hfatal, hquiet] using hmove
  · have hgoes : ¬ (ret.fatal ∨ ret = .zero) := by simp [hfatal, hzero]
    rw [Reader.issue, if_neg hgoes]
    cases hframe : codeFrame req (t.reader.readBuffer ++ got) with
    | some n =>
        have hmove := ReadMove.frame hasks hopen hframe
        simpa [ReadSide.after, hidle, hquiet] using hmove
    | none =>
        have hmove := ReadMove.wait hasks hopen hframe
        simpa [ReadSide.after, hquiet] using hmove

/-- What an execution of `read_normal` does is a move. -/
theorem ReadSide.readNormal_move {t : ReadSide} {timedOut : Bool} {al : Allocs}
    {rs : List ReadRes} {req : Request} {got : Bytes} {ret : ReadRet} (ht : t.Sound)
    (hcurrent : t.current = some req) (hfatal : ret.fatal = false)
    (hend : ret = .zero → meetsEnd rs ∧ got = []) :
    ReadMove t (.readNormal timedOut al rs)
      (t.after req got (t.reader.afterLoop got ret).settle) := by
  have hasks : t.Asks (.readNormal timedOut al rs) req := hcurrent
  obtain ⟨hpending, hquiet, hopen⟩ := ht.pending hcurrent
  have hask : (t.reader.afterLoop got ret).request.bind
      (fun req => codeFrame req (t.reader.afterLoop got ret).readBuffer) =
      codeFrame req (t.reader.readBuffer ++ got) := by
    simp [Reader.afterLoop, hpending]
  rw [Reader.settle, hask]
  by_cases hzero : ret = .zero
  · obtain rfl := hzero
    obtain ⟨hmeets, rfl⟩ := hend rfl
    have hnone : codeFrame req (t.reader.readBuffer ++ []) = none := by
      rw [List.append_nil]
      exact ht.waits req hcurrent
    have hmove : ReadMove t (.readNormal timedOut al rs) _ := .endInHandler hcurrent hmeets
    rw [hnone]
    simpa [Reader.afterLoop, ReadSide.after, hfatal, hquiet] using hmove
  · cases hframe : codeFrame req (t.reader.readBuffer ++ got) with
    | some n =>
        have hmove := ReadMove.frame hasks hopen hframe
        simpa [Reader.afterLoop, ReadSide.after, hfatal, hzero, hquiet]
          using hmove
    | none =>
        have hmove := ReadMove.wait hasks hopen hframe
        rw [← hpending] at hmove
        simpa [Reader.afterLoop, ReadSide.after, hfatal, hzero, hopen, ht.error, hpending,
          hquiet] using hmove

/-- A read call on an open connection, as the read side sees it. -/
theorem issue_after {s : ConnState} {req : Request} {al : Allocs} {r : ReadRes}
    (hal : al.Good) (hopen : s.conn.closed = false) (herror : s.conn.error = false)
    (hproper : req.Proper) :
    (s.issue req al r).1.readSide =
      s.readSide.after req (gained s.conn.readBuffer (s.conn.attempt al r).1)
        (s.readSide.reader.issue req (gained s.conn.readBuffer (s.conn.attempt al r).1)
          (s.conn.attempt al r).2) := by
  have hspec := Conn.issue_spec (r := r) hal hopen herror hproper
  have hgoes : (s.conn.issue req al r).2 ≠ .refused := by
    rw [congrArg Prod.snd hspec]
    exact Reader.issue_goes _ _ _ _
  unfold ConnState.readSide
  dsimp only
  rw [← hspec]
  unfold ConnState.issue
  rcases hissue : s.conn.issue req al r with ⟨c, out⟩
  cases out with
  | refused => exact absurd (congrArg Prod.snd hissue) hgoes
  | done => rfl
  | pending => rfl

/-- An execution of `read_normal` that did not time out, as the read side sees
it. -/
theorem readNormal_after {s s' : ConnState} {timedOut : Bool} {al : Allocs}
    {rs : List ReadRes} {out : Outcome} {req : Request} (hal : al.Good)
    (htime : ¬ (s.conn.readExpireTime ≠ 0 ∧ timedOut)) (hcurrent : s.hist.current = some req)
    (h : s.readNormal timedOut al rs = some (s', out)) :
    ∃ b ret, Conn.readLoop s.conn.readBuffer al rs = some (b, ret) ∧
      s'.readSide = s.readSide.after req (gained s.conn.readBuffer b)
        (s.readSide.reader.afterLoop (gained s.conn.readBuffer b) ret).settle := by
  cases hloop : Conn.readLoop s.conn.readBuffer al rs with
  | none => simp [ConnState.readNormal, Conn.readNormal, if_neg htime, hloop] at h
  | some res =>
      obtain ⟨b, ret⟩ := res
      obtain ⟨c', out', hnormal, hspec⟩ := Conn.readNormal_spec hal htime hloop
      refine ⟨b, ret, rfl, ?_⟩
      have hgoes : out' ≠ .refused := by
        have hout := congrArg Prod.snd hspec
        rw [show out' = _ from hout]
        exact Reader.settle_goes _
      have hgained : loopGained s.conn timedOut al rs = gained s.conn.readBuffer b := by
        simp [loopGained, if_neg htime, hloop]
      have hafter : s'.readSide =
          s.readSide.after req (gained s.conn.readBuffer b) (c'.reader, out') := by
        rw [ConnState.readNormal, hnormal, hcurrent, hgained] at h
        cases out' with
        | refused => exact absurd rfl hgoes
        | done =>
            obtain ⟨rfl, _⟩ := Prod.mk.inj (Option.some.inj h)
            rfl
        | pending =>
            obtain ⟨rfl, _⟩ := Prod.mk.inj (Option.some.inj h)
            simp [ConnState.readSide, ReadSide.after, hcurrent]
      rw [hafter, hspec]
      rfl

/-- A write that the kernel takes a part of does not touch the read side. -/
theorem flush_readSide (s : ConnState) (n : Nat) :
    (s.flush (.wrote n)).1.readSide = s.readSide := by
  unfold ConnState.flush Conn.flush
  by_cases hends : s.conn.closed || s.conn.error
  · simp [hends]
  · simp only [if_neg hends]
    by_cases hended : (s.conn.wrote (.wrote n)).2
    · simp only [if_pos hended]
      rfl
    · simp only [if_neg hended]
      rfl

/-- Nor does `write_normal` on such a write, or timing out. -/
theorem writeNormal_readSide (s : ConnState) (timedOut : Bool) (n : Nat) :
    (s.writeNormal timedOut (.wrote n)).1.readSide = s.readSide := by
  unfold ConnState.writeNormal Conn.writeNormal
  by_cases htime : s.conn.writeExpireTime ≠ 0 ∧ timedOut
  · simp only [if_pos htime]
    rfl
  · simp only [if_neg htime]
    by_cases hended : (s.conn.wrote (.wrote n)).2
    · simp only [if_pos hended]
      rfl
    · simp only [if_neg hended]
      rfl

/-- A read call of a calm run is a move. -/
theorem ConnState.issue_move {s : ConnState} {req : Request} {al : Allocs} {r : ReadRes}
    (hs : s.readSide.Sound) (hcalm : Calm s (.issue req al r))
    (hidle : s.conn.request = none) :
    ReadMove s.readSide (.issue req al r) (s.issue req al r).1.readSide := by
  obtain ⟨hal, hproper, hr⟩ := hcalm
  cases hclosed : s.conn.closed with
  | true =>
      have hsame : (s.issue req al r).1 = s := by
        simp [ConnState.issue, issue_closed hclosed]
      rw [hsame]
      exact ReadMove.keep s.conn.buffer.bytes
  | false =>
      obtain ⟨hfatal, hzero, _⟩ := readFdAppend_calm (b := s.conn.readBuffer) hal hr
      have honce := readFdAppend_once (b := s.conn.readBuffer) hal r
      rw [issue_after hal hclosed hs.error hproper]
      exact ReadSide.issue_move hs hidle hclosed hfatal
        (fun hret => ⟨hzero.mp hret, honce.end_empty hret⟩)

/-- A connect that does not fail is a move. -/
theorem ConnState.connect_move {s : ConnState} {res : Conn.ConnectRes}
    (hs : s.readSide.Sound) (hidle : s.conn.request = none) (hres : res ≠ .failed) :
    ReadMove s.readSide (.connect res) (s.connect res).1.readSide := by
  obtain ⟨_, hquiet⟩ := hs.idle hidle
  have hkeep : ReadMove s.readSide (.connect res) { s.readSide with connecting := false } := by
    rw [← hquiet]
    exact ReadMove.keep s.conn.buffer.bytes
  cases res with
  | noAddress => exact hkeep
  | connected => exact hkeep
  | failed => exact absurd rfl hres
  | inProgress => exact ReadMove.connect hidle

/-- A connection that is not idle has a request. -/
theorem Conn.request_some {c : Conn} (h : c.readType ≠ .readNone) :
    ∃ req, c.request = some req := by
  unfold Conn.request
  cases htype : c.readType with
  | readNone => exact absurd htype h
  | readUntil => exact ⟨_, rfl⟩
  | readBytes => exact ⟨_, rfl⟩
  | read => exact ⟨_, rfl⟩

/-- **Inversion.**  What a step of a calm run does to the read side. -/
theorem calm_move {s s' : ConnState} {ev : ConnEvent} (hs : s.readSide.Sound)
    (hcalm : Calm s ev) (hstep : connNext s ev = some s') :
    ReadMove s.readSide ev s'.readSide := by
  obtain ⟨⟨s₁, out⟩, hev, rfl⟩ := Option.map_eq_some_iff.mp hstep
  cases ev with
  | issue req al r =>
      obtain ⟨hnone, hres⟩ := Option.ite_none_right_eq_some.mp hev
      have hidle : s.conn.request = none := by simp [Conn.request, hnone]
      have hmove := ConnState.issue_move hs hcalm hidle
      rw [Option.some.inj hres] at hmove
      exact hmove
  | readNormal timedOut al rs =>
      obtain ⟨hal, htime, hrs⟩ := hcalm
      obtain ⟨⟨hsome, hquiet⟩, hres⟩ := Option.ite_none_right_eq_some.mp hev
      obtain ⟨req, hpending⟩ := Conn.request_some hsome
      have hcurrent : s.hist.current = some req := by
        have hcurrent : s.hist.current = if s.hist.connecting then none else s.conn.request :=
          hs.current
        rw [hcurrent, hquiet]
        exact hpending
      obtain ⟨b, ret, hloop, hafter⟩ := readNormal_after hal htime hcurrent hres
      obtain ⟨hfatal, hzero⟩ := readLoop_calm hal hrs hloop
      obtain ⟨honce, _⟩ := readLoop_once hal hloop
      rw [hafter]
      exact ReadSide.readNormal_move hs hcurrent hfatal
        (fun hret => ⟨hzero.mp hret, honce.end_empty hret⟩)
  | write bs al =>
      obtain ⟨rfl, _⟩ := Prod.mk.inj (Option.some.inj hev)
      have hsame : (s.write bs al).readSide = s.readSide := by
        unfold ConnState.write Conn.write
        dsimp only
        split <;> split <;> rfl
      rw [hsame]
      exact ReadMove.keep s.conn.buffer.bytes
  | flush w =>
      obtain ⟨n, rfl⟩ := hcalm
      obtain ⟨_, hres⟩ := Option.ite_none_right_eq_some.mp hev
      have hsame := flush_readSide s n
      rw [Option.some.inj hres] at hsame
      rw [hsame]
      exact ReadMove.keep s.conn.buffer.bytes
  | writeNormal timedOut w =>
      obtain ⟨n, rfl⟩ := hcalm
      obtain ⟨_, hres⟩ := Option.ite_none_right_eq_some.mp hev
      have hsame := writeNormal_readSide s timedOut n
      rw [Option.some.inj hres] at hsame
      rw [hsame]
      exact ReadMove.keep s.conn.buffer.bytes
  | connect res =>
      obtain ⟨⟨hnone, _⟩, hres⟩ := Option.ite_none_right_eq_some.mp hev
      have hidle : s.conn.request = none := by simp [Conn.request, hnone]
      have hmove := ConnState.connect_move hs hidle hcalm
      rw [Option.some.inj hres] at hmove
      exact hmove
  | connectNormal timedOut soError =>
      obtain rfl := hcalm
      obtain ⟨hconnecting, hres⟩ := Option.ite_none_right_eq_some.mp hev
      obtain ⟨rfl, _⟩ := Prod.mk.inj (Option.some.inj hres)
      have hsame : (s.connectNormal timedOut false).readSide =
          { s.readSide with
            reader := { s.readSide.reader with request := none }, connecting := false } := by
        unfold ConnState.connectNormal Conn.connectNormal
        by_cases htime : s.conn.readExpireTime ≠ 0 ∧ timedOut
        · simp only [if_pos htime]
          rfl
        · simp only [if_neg htime, Bool.or_false]
          rfl
      rw [hsame]
      exact ReadMove.connected hconnecting
  | setTimeout r w =>
      obtain ⟨rfl, _⟩ := Prod.mk.inj (Option.some.inj hev)
      exact ReadMove.keep s.conn.buffer.bytes
  | useBuffer b =>
      obtain ⟨rfl, _⟩ := Prod.mk.inj (Option.some.inj hev)
      exact ReadMove.keep b.bytes

/-- A created connection is sound. -/
theorem created_sound (c : Conn) (fd : Nat) : (ConnState.created c fd).readSide.Sound :=
  ⟨rfl, nofun, rfl, fun _ => rfl, nofun⟩

/-- The kernel reports the end of the stream after the bytes `S`. -/
def EndAfter (S : Bytes) (s : ConnState) (ev : ConnEvent) : Prop :=
  AtEnd ev → s.hist.received = S

/-- The end of the stream is not reported to a pending request while bytes are in
`_read_buffer`. -/
def EndUnbuffered (s : ConnState) (ev : ConnEvent) : Prop :=
  AtEnd ev → s.conn.request ≠ none → s.conn.readBuffer.bytes = []

/-- Nothing is lost of the stream `S`: what was received has been handed over or is
in `_read_buffer`, and after the end of the stream nothing is there any more. -/
structure ReadSide.Whole (S : Bytes) (t : ReadSide) : Prop where
  sound : t.Sound
  kept : (t.finished.map Prod.snd).flatten ++ t.reader.readBuffer = t.received
  ended : t.reader.closed = true → t.received = S ∧ t.reader.readBuffer = []

/-- The bytes handed over, when one more request is finished. -/
theorem flatten_finished (finished : List (Request × Bytes)) (req : Request)
    (appended : Bytes) :
    ((finished ++ [(req, appended)]).map Prod.snd).flatten =
      (finished.map Prod.snd).flatten ++ appended := by
  simp

/-- **Step lemma.**  Nothing is lost by a move that meets the end of the stream
only after `S` and with nothing in `_read_buffer` if a request is pending. -/
theorem ReadMove.whole {S : Bytes} {t t' : ReadSide} {ev : ConnEvent} (h : ReadMove t ev t')
    (hs : t.Whole S) (hafter : AtEnd ev → t.received = S)
    (hempty : AtEnd ev → t.reader.request ≠ none → t.reader.readBuffer = []) :
    t'.Whole S := by
  refine ⟨h.sound hs.sound, ?_, ?_⟩
  · cases h with
    | keep buffer => exact hs.kept
    | connect hidle => exact hs.kept
    | connected hconnecting => exact hs.kept
    | frame hasks hopen hframe =>
        rw [flatten_finished, List.append_assoc, List.take_append_drop, ← List.append_assoc,
          hs.kept]
    | wait hasks hopen hframe =>
        dsimp only
        rw [← List.append_assoc, hs.kept]
    | endInCall req hidle hend =>
        dsimp only
        rw [flatten_finished, List.append_nil, hs.kept]
    | endInHandler hpending hend =>
        dsimp only
        rw [flatten_finished, List.append_nil, hs.kept]
  · cases h with
    | keep buffer => exact hs.ended
    | connect hidle => exact hs.ended
    | connected hconnecting => exact hs.ended
    | frame hasks hopen hframe =>
        intro hclosed
        cases hopen.symm.trans hclosed
    | wait hasks hopen hframe =>
        intro hclosed
        cases hopen.symm.trans hclosed
    | endInCall req hidle hend =>
        intro _
        exact ⟨hafter hend, rfl⟩
    | endInHandler hpending hend =>
        intro _
        have hsome : t.reader.request ≠ none := by
          rw [(hs.sound.pending hpending).1]
          exact Option.some_ne_none _
        exact ⟨hafter hend, hempty hend hsome⟩

/-- A proper request is refused only when the connection is over. -/
theorem refused_ends {c : Conn} {req : Request} {al : Allocs} {r : ReadRes}
    (hproper : req.Proper) (h : (c.issue req al r).2 = .refused) :
    c.closed = true ∨ c.error = true := by
  by_contra hopen
  obtain ⟨hclosed, herror⟩ := not_or.mp hopen
  have hclosed : c.closed = false := by simpa using hclosed
  have herror : c.error = false := by simpa using herror
  rcases hsync : c.readSync al r with ⟨c₁, ended⟩
  cases ended with
  | true =>
      rw [issue_ended hclosed herror hproper (congrArg Prod.snd hsync)] at h
      cases h
  | false =>
      cases req with
      | readUntil delim =>
          obtain ⟨delim, rfl⟩ := Option.isSome_iff_exists.mp hproper
          cases hsearch : c₁.readBuffer.search delim.1 <;>
            simp [Conn.issue, Conn.readUntil, hclosed, herror, hsync, hsearch] at h
      | readbytes len =>
          have hlen : len ≠ 0 := Nat.pos_iff_ne_zero.mp hproper
          by_cases hle : len ≤ c₁.readBuffer.buf.len <;>
            simp [Conn.issue, Conn.readbytes, hclosed, herror, hsync, hlen, hle] at h
      | read =>
          by_cases hpos : 0 < c₁.readBuffer.buf.len <;>
            simp [Conn.issue, Conn.read, hclosed, herror, hsync, hpos] at h

/-- A step in which nothing fails and nothing times out, which is defined, and in
which the end of the stream comes after `S` and is not reported to a pending
request while bytes are in `_read_buffer`. -/
structure Keeping (S : Bytes) (s : ConnState) (ev : ConnEvent) : Prop where
  calm : Calm s ev
  defined : s.conn.Defined ev
  after : EndAfter S s ev
  unbuffered : EndUnbuffered s ev

/-- **The end of the stream.**  In every run of such steps the received bytes have
been handed over or are in `_read_buffer`; and when a read call is refused, the
calls have handed over `S` and nothing is left. -/
theorem end_keeps_stream {c : Conn} {fd : Nat} {S : Bytes} {es : List ConnEvent}
    {s : ConnState} (h : Run connNext (Keeping S) (ConnState.created c fd) es s) :
    (s.hist.finished.map Prod.snd).flatten ++ s.conn.readBuffer.bytes = s.hist.received ∧
    ∀ req al r, req.Proper → (s.conn.issue req al r).2 = .refused →
      (s.hist.finished.map Prod.snd).flatten = S ∧ s.conn.readBuffer.bytes = [] := by
  have hwhole : s.readSide.Whole S := by
    refine h.invariant (fun s => s.readSide.Whole S) ?_ ?_
    · have hbytes : (c.create fd).readBuffer.bytes = [] := (c.create_bytes fd).2.1
      refine ⟨created_sound c fd, hbytes, ?_⟩
      intro hclosed
      cases hclosed
    · intro s ev s' hs hkeeping hstep
      exact (calm_move hs.sound hkeeping.calm hstep).whole hs hkeeping.after hkeeping.unbuffered
  refine ⟨hwhole.kept, ?_⟩
  intro req al r hproper hrefused
  have hclosed : s.conn.closed = true := by
    rcases refused_ends hproper hrefused with hclosed | herror
    · exact hclosed
    · cases hwhole.sound.error.symm.trans herror
  obtain ⟨hreceived, hnothing⟩ := hwhole.ended hclosed
  have hkept := hwhole.kept
  rw [hnothing, List.append_nil, hreceived] at hkept
  exact ⟨hkept, hnothing⟩

/-- The connection whose call for two bytes has got `ab`. -/
def gotAb : ConnState :=
  ((ConnState.created Conn.zero 5).issue (.readbytes 2) zeroAllocs (.data [97, 98])).1

/-- The stream `ab`: a call for two bytes gets them, and the end of the stream is
met by the next call. -/
theorem end_keeps_stream_ab : ∃ s : ConnState,
    (s.conn.issue .read zeroAllocs .eof).2 = .refused ∧
    (s.hist.finished.map Prod.snd).flatten = [97, 98] ∧ s.conn.readBuffer.bytes = [] := by
  have hend : (connNext gotAb (.issue .read zeroAllocs .eof)).map (fun s => s.conn.closed) =
      some true := by decide +kernel
  obtain ⟨s, hstep, hclosed⟩ := Option.map_eq_some_iff.mp hend
  have hreceived : gotAb.hist.received = [97, 98] := by decide +kernel
  have hidle : gotAb.conn.request = none := by decide +kernel
  have hrun : Run connNext (Keeping [97, 98]) (ConnState.created Conn.zero 5)
      [.issue (.readbytes 2) zeroAllocs (.data [97, 98]), .issue .read zeroAllocs .eof] s := by
    refine Run.cons (m := gotAb) rfl ?_ (Run.single hstep ?_)
    · exact ⟨⟨zeroAllocs_good, Nat.succ_pos 1, List.cons_ne_nil _ _⟩, by decide +kernel, nofun,
        nofun⟩
    · exact ⟨⟨zeroAllocs_good, trivial, trivial⟩, by decide +kernel, fun _ => hreceived,
        fun _ hpending => absurd hidle hpending⟩
  have hrefused : (s.conn.issue .read zeroAllocs .eof).2 = .refused := by
    rw [issue_closed hclosed]
  exact ⟨s, hrefused, (end_keeps_stream hrun).2 .read zeroAllocs .eof trivial hrefused⟩

/-- The connection whose call for a line has received `ab`. -/
def heardAb : ConnState :=
  ((ConnState.created Conn.zero 5).issue (.readUntil (some crlf)) zeroAllocs (.data [97, 98])).1

/-- **Stranded bytes.**  The stream `ab`, a pending request for a line, and the end
of the stream: `read_normal` finishes the request with nothing, every further
call is refused, and `ab` stays in `_read_buffer`. -/
theorem end_strands : ∃ s,
    Run connNext (fun s ev => Calm s ev ∧ s.conn.Defined ev ∧ EndAfter [97, 98] s ev)
      (ConnState.created Conn.zero 5)
      [.issue (.readUntil (some crlf)) zeroAllocs (.data [97, 98]),
        .readNormal false zeroAllocs [.eof]] s ∧
    (∀ req al r, (s.conn.issue req al r).2 = .refused) ∧
    (s.hist.finished.map Prod.snd).flatten = [] ∧ s.conn.readBuffer.bytes = [97, 98] := by
  have hend : (connNext heardAb (.readNormal false zeroAllocs [.eof])).map (fun s =>
      (s.conn.closed, (s.hist.finished.map Prod.snd).flatten, s.conn.readBuffer.bytes)) =
      some (true, [], [97, 98]) := by decide +kernel
  obtain ⟨s, hstep, hs⟩ := Option.map_eq_some_iff.mp hend
  obtain ⟨hclosed, hs⟩ := Prod.mk.inj hs
  obtain ⟨hfinished, hleft⟩ := Prod.mk.inj hs
  have hreceived : heardAb.hist.received = [97, 98] := by decide +kernel
  refine ⟨s, ?_, ?_, hfinished, hleft⟩
  · refine Run.cons (m := heardAb) rfl ?_ (Run.single hstep ?_)
    · exact ⟨⟨zeroAllocs_good, rfl, List.cons_ne_nil _ _⟩, by decide +kernel, nofun⟩
    · refine ⟨⟨zeroAllocs_good, ?_, ?_⟩, by decide +kernel, fun _ => hreceived⟩
      · intro hboth
        obtain ⟨_, ⟨⟩⟩ := hboth
      · intro r hr
        obtain rfl := List.mem_singleton.mp hr
        trivial
  · intro req al r
    rw [issue_closed hclosed]

/-- A step of a run without an end of the stream, in which frames are asked for. -/
def Unending (s : ConnState) (ev : ConnEvent) : Prop :=
  Calm s ev ∧ ¬ AtEnd ev ∧ ∀ req al r, ev = .issue req al r → connFramer.Steady req

/-- The finished requests were served from what was received, and the rest is in
`_read_buffer`. -/
structure ReadSide.Incremental (t : ReadSide) : Prop where
  sound : t.Sound
  served : Framing.Served connFramer t.finished t.received t.reader.readBuffer
  steady : ∀ p ∈ t.finished, connFramer.Steady p.1
  next : ∀ req, t.current = some req → connFramer.Steady req

/-- **Step lemma.**  Serving stays incremental. -/
theorem ReadMove.incremental {t t' : ReadSide} {ev : ConnEvent} (h : ReadMove t ev t')
    (hs : t.Incremental) (hend : ¬ AtEnd ev)
    (hsteady : ∀ req al r, ev = .issue req al r → connFramer.Steady req) :
    t'.Incremental := by
  have hasked : ∀ req, t.Asks ev req → connFramer.Steady req := by
    intro req hasks
    cases ev with
    | issue req' al r =>
        obtain ⟨_, rfl⟩ := hasks
        exact hsteady _ al r rfl
    | readNormal timedOut al rs => exact hs.next req hasks
    | _ => exact hasks.elim
  have hsound := h.sound hs.sound
  cases h with
  | keep buffer => exact ⟨hsound, hs.served, hs.steady, hs.next⟩
  | connect hidle => exact ⟨hsound, hs.served, hs.steady, hs.next⟩
  | connected hconnecting => exact ⟨hsound, hs.served, hs.steady, hs.next⟩
  | @frame req got n hasks hopen hframe =>
      refine ⟨hsound, (hs.served.receive got hs.steady).finish hframe, ?_, nofun⟩
      intro p hp
      rcases List.mem_append.mp hp with hp | hp
      · exact hs.steady p hp
      · obtain rfl := List.mem_singleton.mp hp
        exact hasked req hasks
  | @wait req got hasks hopen hframe =>
      refine ⟨hsound, hs.served.receive got hs.steady, hs.steady, ?_⟩
      intro req' hreq
      obtain rfl := Option.some.inj hreq
      exact hasked req hasks
  | endInCall req hidle hmeets => exact absurd hmeets hend
  | endInHandler hpending hmeets => exact absurd hmeets hend

/-- The requests `reqs` have been issued one after the other on the stream `S` until
no event is left: all are finished, or one is pending and the whole stream has
arrived. -/
structure Settled (reqs : List Request) (S : Bytes) (s : ConnState) : Prop where
  arrived : s.hist.received <+: S
  quiet : (s.hist.finished.map Prod.fst = reqs ∧ s.hist.current = none) ∨
    ∃ req, s.hist.current = some req ∧ s.hist.finished.map Prod.fst ++ [req] <+: reqs ∧
      s.hist.received = S

/-- The bytes not handed over: those in `_read_buffer`, then those still in the
kernel. -/
def undelivered (S : Bytes) (s : ConnState) : Bytes :=
  s.conn.readBuffer.bytes ++ S.drop s.hist.received.length

/-- A settled connection has served the requests from the stream. -/
theorem ReadSide.Incremental.serves {s : ConnState} {reqs : List Request} {S : Bytes}
    (hs : s.readSide.Incremental) (hset : Settled reqs S s) :
    connFramer.serve reqs S = (s.hist.finished, undelivered S s) := by
  obtain ⟨later, hlater⟩ := hset.arrived
  have hdrop : S.drop s.hist.received.length = later := by
    rw [← hlater, List.drop_left]
  have hserved : Framing.Served connFramer s.hist.finished S (undelivered S s) := by
    have hserved := hs.served.receive later hs.steady
    rw [undelivered, hdrop, ← hlater]
    exact hserved
  apply hserved.complete
  rcases hset.quiet with ⟨hall, _⟩ | ⟨req, hcurrent, hprefix, hreceived⟩
  · exact Or.inl hall
  · have hundelivered : undelivered S s = s.conn.readBuffer.bytes := by
      rw [undelivered, hreceived, List.drop_length, List.append_nil]
    rw [hundelivered]
    exact Or.inr ⟨req, hprefix, hs.sound.waits req hcurrent⟩

/-- Which request is pending depends on the finished ones only. -/
theorem Settled.current_eq {s s' : ConnState} {reqs : List Request} {S : Bytes}
    (h : Settled reqs S s) (h' : Settled reqs S s')
    (hfinished : s.hist.finished = s'.hist.finished) : s.hist.current = s'.hist.current := by
  have hquiet := h.quiet
  rw [hfinished] at hquiet
  rcases hquiet with ⟨hall, hnone⟩ | ⟨req, hcurrent, hprefix, _⟩
  · rcases h'.quiet with ⟨_, hnone'⟩ | ⟨req', _, hprefix', _⟩
    · rw [hnone, hnone']
    · have hlength := hprefix'.length_le
      rw [hall, List.length_append, List.length_singleton] at hlength
      omega
  · rcases h'.quiet with ⟨hall', _⟩ | ⟨req', hcurrent', hprefix', _⟩
    · have hlength := hprefix.length_le
      rw [hall', List.length_append, List.length_singleton] at hlength
      omega
    · have hsame := List.prefix_of_prefix_length_le hprefix hprefix' (by simp)
      have hlast := List.append_cancel_left (hsame.eq_of_length (by simp))
      rw [hcurrent, hcurrent', (List.cons.inj hlast).1]

/-- What a run without an end of the stream has served. -/
theorem incremental_of_run {c : Conn} {fd : Nat} {es : List ConnEvent} {s : ConnState}
    (h : Run connNext Unending (ConnState.created c fd) es s) : s.readSide.Incremental := by
  refine h.invariant (fun s => s.readSide.Incremental) ?_ ?_
  · have hbytes : (c.create fd).readBuffer.bytes = [] := (c.create_bytes fd).2.1
    refine ⟨created_sound c fd, ?_, nofun, nofun⟩
    change Framing.Served connFramer [] [] (c.create fd).readBuffer.bytes
    rw [hbytes]
    exact Framing.served_nil []
  · intro s ev s' hs hboth hstep
    obtain ⟨hcalm, hend, hsteady⟩ := hboth
    exact (calm_move hs.sound hcalm hstep).incremental hs hend hsteady

/-- **Framing does not depend on packet boundaries.**  Two runs issue the same
requests for frames on the same stream, which is cut into reads in two ways.
When both have settled, they have finished the same requests with the same
bytes, the same request is pending, and the same bytes are undelivered. -/
theorem framing_independent {S : Bytes} {reqs : List Request} {c c' : Conn} {fd fd' : Nat}
    {es es' : List ConnEvent} {s s' : ConnState}
    (h : Run connNext Unending (ConnState.created c fd) es s)
    (h' : Run connNext Unending (ConnState.created c' fd') es' s')
    (hset : Settled reqs S s) (hset' : Settled reqs S s') :
    s.hist.finished = s'.hist.finished ∧ s.hist.current = s'.hist.current ∧
      undelivered S s = undelivered S s' := by
  have hserves := (incremental_of_run h).serves hset
  have hserves' := (incremental_of_run h').serves hset'
  obtain ⟨hfinished, hundelivered⟩ := Prod.mk.inj (hserves.symm.trans hserves')
  exact ⟨hfinished, hset.current_eq hset' hfinished, hundelivered⟩

/-- A line and a byte asked for, which arrive in one read. -/
def oneRead : List ConnEvent :=
  [.issue (.readUntil (some crlf)) zeroAllocs (.data [97, 13, 10, 98]),
    .issue (.readbytes 1) zeroAllocs (.err .eagain)]

/-- The same, with the delimiter cut in two and a signal in between. -/
def twoReads : List ConnEvent :=
  [.issue (.readUntil (some crlf)) zeroAllocs (.data [97, 13]),
    .readNormal false zeroAllocs [.err .eintr, .data [10, 98]],
    .issue (.readbytes 1) zeroAllocs (.err .eagain)]

/-- The bytes received, the requests finished and the one pending. -/
def ConnState.progress (s : ConnState) : Bytes × List Request × Option Request :=
  (s.hist.received, s.hist.finished.map Prod.fst, s.hist.current)

/-- A state in which all requests are finished is settled. -/
theorem settled_of_progress {s : ConnState} {S : Bytes} {reqs : List Request}
    (h : s.progress = (S, reqs, none)) : Settled reqs S s := by
  obtain ⟨hreceived, h⟩ := Prod.mk.inj h
  exact ⟨hreceived ▸ List.prefix_rfl, Or.inl (Prod.mk.inj h)⟩

/-- Both runs settle, with the same answers. -/
theorem framing_independent_cut : ∃ s s' : ConnState,
    exec connNext (ConnState.created Conn.zero 5) oneRead = some s ∧
    exec connNext (ConnState.created Conn.zero 6) twoReads = some s' ∧
    s.hist.finished = s'.hist.finished ∧ s.hist.current = s'.hist.current ∧
    undelivered [97, 13, 10, 98] s = undelivered [97, 13, 10, 98] s' := by
  have hone : (exec connNext (ConnState.created Conn.zero 5) oneRead).map ConnState.progress =
      some ([97, 13, 10, 98], [.readUntil (some crlf), .readbytes 1], none) := by decide +kernel
  have htwo : (exec connNext (ConnState.created Conn.zero 6) twoReads).map ConnState.progress =
      some ([97, 13, 10, 98], [.readUntil (some crlf), .readbytes 1], none) := by decide +kernel
  obtain ⟨s, hs, hprogress⟩ := Option.map_eq_some_iff.mp hone
  obtain ⟨s', hs', hprogress'⟩ := Option.map_eq_some_iff.mp htwo
  have hcall : ∀ (r : ReadRes) (req : Request) (s : ConnState), req.Proper → req ≠ .read →
      r.Calm → r ≠ .eof → Unending s (.issue req zeroAllocs r) := by
    intro r req s hproper hframe hr hgoes
    refine ⟨⟨zeroAllocs_good, hproper, hr⟩, hgoes, ?_⟩
    intro _ _ _ heq
    cases heq
    exact hframe
  have hline : ∀ (r : ReadRes) (s : ConnState), r.Calm → r ≠ .eof →
      Unending s (.issue (.readUntil (some crlf)) zeroAllocs r) :=
    fun r s => hcall r _ s rfl nofun
  have hbyte : ∀ s, Unending s (.issue (.readbytes 1) zeroAllocs (.err .eagain)) :=
    fun s => hcall _ _ s (Nat.succ_pos 0) nofun trivial nofun
  have hrun : Run connNext Unending (ConnState.created Conn.zero 5) oneRead s := by
    refine run_of_exec ?_ hs
    intro ev hev s
    rcases List.mem_cons.mp hev with rfl | hev
    · exact hline _ s (List.cons_ne_nil _ _) nofun
    · obtain rfl := List.mem_singleton.mp hev
      exact hbyte s
  have hrun' : Run connNext Unending (ConnState.created Conn.zero 6) twoReads s' := by
    refine run_of_exec ?_ hs'
    intro ev hev s
    rcases List.mem_cons.mp hev with rfl | hev
    · exact hline _ s (List.cons_ne_nil _ _) nofun
    · rcases List.mem_cons.mp hev with rfl | hev
      · refine ⟨⟨zeroAllocs_good, ?_, ?_⟩, nofun, nofun⟩
        · intro hboth
          obtain ⟨_, ⟨⟩⟩ := hboth
        · intro r hr
          rcases List.mem_cons.mp hr with rfl | hr
          · trivial
          · obtain rfl := List.mem_singleton.mp hr
            exact List.cons_ne_nil _ _
      · obtain rfl := List.mem_singleton.mp hev
        exact hbyte s
  exact ⟨s, s', hs, hs', framing_independent hrun hrun' (settled_of_progress hprogress)
    (settled_of_progress hprogress')⟩

end Spe
