import Spe.Conn
import Spe.Framing

/-!
# What a read call does

The three read calls and `read_normal` read once (`Conn.attempt`) and then
decide between handing a frame over, handing everything over, giving up and
waiting.  `codeFrame` is the frame the code looks for, and the two theorems
`Conn.issue_spec` and `Conn.readNormal_spec` say what the byte strings in
`buffer` and `_read_buffer` are afterwards, in the order in which each of the
two decides.

A frame for a delimiter or for a number of bytes stays the same frame when
more bytes arrive (`connFramer`).
-/

namespace Spe

/-- What a read call asks for. -/
inductive Request
  | readUntil (delim : Option CStr)
  | readbytes (len : Nat)
  | read
  deriving DecidableEq

/-- The requests that the three read calls do not refuse on an open
connection. -/
def Request.Proper : Request → Prop
  | .readUntil delim => delim.isSome
  | .readbytes len => 0 < len
  | .read => True

/-- The read call of a request. -/
def Conn.issue (c : Conn) (req : Request) (al : Allocs) (r : ReadRes) : Conn × Outcome :=
  match req with
  | .readUntil delim => c.readUntil delim al r
  | .readbytes len => c.readbytes len al r
  | .read => c.read al r

/-- The length of the frame that the code finds for a request at the head of
`_read_buffer`. -/
def codeFrame (req : Request) (p : Bytes) : Option Nat :=
  match req with
  | .readUntil none => none
  | .readUntil (some delim) =>
      if p = [] then none else (Search.find delim.1 (cstr p)).map (· + delim.1.length)
  | .readbytes len => if len ≤ p.length then some len else none
  | .read => if p = [] then none else some p.length

/-- What a C string function sees of a longer string. -/
theorem cstr_append (p more : Bytes) :
    ∃ seen, cstr (p ++ more) = cstr p ++ seen ∧ (cstr p).length ≤ p.length := by
  have hle : (cstr p).length ≤ p.length := (List.takeWhile_prefix _).length_le
  unfold cstr at *
  rw [List.takeWhile_append]
  split
  · rename_i hall
    have hp : p.takeWhile (fun c => c ≠ 0) = p := (List.takeWhile_prefix _).eq_of_length hall
    exact ⟨_, by rw [hp], hle⟩
  · exact ⟨[], (List.append_nil _).symm, hle⟩

/-- A frame is inside the bytes that have arrived. -/
theorem codeFrame_bound {req : Request} {p : Bytes} {n : Nat} (h : codeFrame req p = some n) :
    n ≤ p.length := by
  cases req with
  | readUntil delim =>
      cases delim with
      | none => simp [codeFrame] at h
      | some delim =>
          rw [codeFrame] at h
          split at h
          · simp at h
          · obtain ⟨i, hi, rfl⟩ := Option.map_eq_some_iff.mp h
            obtain ⟨_, _, hle⟩ := cstr_append p []
            have hbound := Search.find_bound hi
            omega
  | readbytes len =>
      rw [codeFrame] at h
      split at h
      · obtain rfl := Option.some.inj h
        assumption
      · simp at h
  | read =>
      rw [codeFrame] at h
      split at h
      · simp at h
      · obtain rfl := Option.some.inj h
        exact Nat.le_refl _

/-- A frame that does not depend on how much has arrived. -/
theorem codeFrame_append {req : Request} {p : Bytes} {n : Nat} (hread : req ≠ .read)
    (h : codeFrame req p = some n) (more : Bytes) : codeFrame req (p ++ more) = some n := by
  cases req with
  | readUntil delim =>
      cases delim with
      | none => simp [codeFrame] at h
      | some delim =>
          rw [codeFrame] at h ⊢
          split at h
          · simp at h
          · rename_i hne
            obtain ⟨i, hi, rfl⟩ := Option.map_eq_some_iff.mp h
            obtain ⟨seen, hseen, _⟩ := cstr_append p more
            have hgrown : p ++ more ≠ [] := by simp [hne]
            rw [if_neg hgrown, hseen, Search.find_append seen hi]
            rfl
  | readbytes len =>
      rw [codeFrame] at h ⊢
      split at h
      · rename_i hle
        have hgrown : len ≤ (p ++ more).length := by
          rw [List.length_append]
          omega
        rw [if_pos hgrown]
        exact h
      · simp at h
  | read => exact absurd rfl hread

/-- The code's frames as a framer: all requests but those for whatever is there
are steady. -/
def connFramer : Framing.Framer UInt8 Request where
  frame := codeFrame
  Steady req := req ≠ .read
  bound := codeFrame_bound
  stable hsteady h more := codeFrame_append hsteady h more

/-- The read side of a connection as byte strings. -/
structure Reader where
  buffer : Bytes
  readBuffer : Bytes
  closed : Bool
  error : Bool
  request : Option Request

/-- The pending request, as `_read_type` and its arguments tell it. -/
def Conn.request (c : Conn) : Option Request :=
  match c.readType with
  | .readNone => none
  | .readUntil => some (.readUntil (some c.delim))
  | .readBytes => some (.readbytes c.rbytes)
  | .read => some .read

/-- The read side of a connection. -/
def Conn.reader (c : Conn) : Reader where
  buffer := c.buffer.bytes
  readBuffer := c.readBuffer.bytes
  closed := c.closed
  error := c.error
  request := c.request

/-- A read call on an open connection whose read attempt delivered `got` with
the result `ret`: the end of the stream and errors come before the frame. -/
def Reader.issue (v : Reader) (req : Request) (got : Bytes) (ret : ReadRet) :
    Reader × Outcome :=
  let p := v.readBuffer ++ got
  if ret.fatal ∨ ret = .zero then
    ({ v with
      buffer := v.buffer ++ p
      readBuffer := []
      error := v.error || ret.fatal
      closed := v.closed || ret = .zero }, .done)
  else
    match codeFrame req p with
    | some n => ({ v with buffer := v.buffer ++ p.take n, readBuffer := p.drop n }, .done)
    | none => ({ v with readBuffer := p, request := some req }, .pending)

/-- The read side after the loop of `read_normal` delivered `got`, its last read
with the result `ret`. -/
def Reader.afterLoop (v : Reader) (got : Bytes) (ret : ReadRet) : Reader :=
  { v with
    readBuffer := v.readBuffer ++ got
    error := v.error || ret.fatal
    closed := v.closed || ret = .zero }

/-- The rest of `read_normal`: the frame comes before the end of the stream and
errors. -/
def Reader.settle (v : Reader) : Reader × Outcome :=
  match v.request.bind (fun req => codeFrame req v.readBuffer) with
  | some n =>
      ({ v with
        buffer := v.buffer ++ v.readBuffer.take n
        readBuffer := v.readBuffer.drop n
        request := none }, .done)
  | none => if v.closed || v.error then ({ v with request := none }, .done) else (v, .pending)

/-- The bytes by which a buffer grew. -/
def gained (b b' : ByteBuf) : Bytes := b'.bytes.drop b.bytes.length

/-- The bytes by which a buffer grew, when the old content is still there. -/
theorem gained_eq {b b' : ByteBuf} {got : Bytes} (h : b'.bytes = b.bytes ++ got) :
    gained b b' = got := by
  rw [gained, h, List.drop_left]

/-- The read attempt of a read call. -/
def Conn.attempt (c : Conn) (al : Allocs) (r : ReadRes) : ByteBuf × ReadRet :=
  c.readBuffer.readFdAppend BUF_SIZE al.read r

/-- What one read does when its allocation succeeds: bytes are delivered exactly
when it returns their number. -/
structure ReadOnce (b b' : ByteBuf) (got : Bytes) (ret : ReadRet) : Prop where
  bytes : b'.bytes = b.bytes ++ got
  sound : ret ≠ .bufError
  count : ∀ n, ret = .got n → got.length = n ∧ 0 < n
  empty : (∀ n, ret ≠ .got n) → got = []

/-- One read. -/
theorem readFdAppend_once {b : ByteBuf} {al : Allocs} (hal : al.Good) (r : ReadRes) :
    ReadOnce b (b.readFdAppend BUF_SIZE al.read r).1
      (gained b (b.readFdAppend BUF_SIZE al.read r).1)
      (b.readFdAppend BUF_SIZE al.read r).2 := by
  obtain ⟨room, _, hret, hbytes⟩ := b.bytes_readFdAppend BUF_SIZE r hal.1
  rw [gained_eq hbytes, hret]
  constructor
  · exact hbytes
  · exact ret_ne_bufError r room
  · intro n hn
    exact ⟨(ret_got hn).symm, ret_got_pos hn⟩
  · intro h
    exact bytes_of_not_got h

/-- The loop of `read_normal` delivers what its last read delivers, whose result
is not `EINTR`. -/
theorem readLoop_once {b b' : ByteBuf} {al : Allocs} {rs : List ReadRes} {ret : ReadRet}
    (hal : al.Good) (h : Conn.readLoop b al rs = some (b', ret)) :
    ReadOnce b b' (gained b b') ret ∧ ret ≠ .fail .eintr := by
  induction rs generalizing b with
  | nil => simp [Conn.readLoop] at h
  | cons r rs ih =>
      have honce := readFdAppend_once (b := b) hal r
      rw [Conn.readLoop] at h
      split at h
      · rename_i hintr
        obtain ⟨hlater, hne⟩ := ih h
        have hnone := honce.empty (by simp [hintr])
        have hsame : (b.readFdAppend BUF_SIZE al.read r).1.bytes = b.bytes := by
          rw [honce.bytes, hnone, List.append_nil]
        refine ⟨?_, hne⟩
        have hgained : gained (b.readFdAppend BUF_SIZE al.read r).1 b' = gained b b' := by
          rw [gained, gained, hsame]
        rw [hgained] at hlater
        refine ⟨?_, hlater.sound, hlater.count, hlater.empty⟩
        rw [hlater.bytes, hsame]
      · rename_i hne
        rw [Option.some.inj h] at honce hne
        exact ⟨honce, hne⟩

/-- What the read side is after all of `_read_buffer` was handed over. -/
theorem handOverAll_reader {c : Conn} {al : Allocs} (hal : al.Good) :
    (c.handOverAll al).reader =
      { c.reader with buffer := c.buffer.bytes ++ c.readBuffer.bytes, readBuffer := [] } := by
  simp [Conn.handOverAll, Conn.reader, Conn.request, hal.2]

/-- What the read side is after a frame was handed over. -/
theorem handOver_reader {c : Conn} {al : Allocs} (hal : al.Good) (n : Nat) :
    (c.handOver n al).reader =
      { c.reader with
        buffer := c.buffer.bytes ++ c.readBuffer.bytes.take n
        readBuffer := c.readBuffer.bytes.drop n } := by
  simp [Conn.handOver, Conn.reader, Conn.request, hal.2]

/-- `spe_conn_read_sync` on an open connection that meets no end of file and no
error: the bytes are in `_read_buffer`. -/
theorem readSync_goes {c : Conn} {al : Allocs} {r : ReadRes}
    (hclosed : c.closed = false) (herror : c.error = false)
    (hgoes : ¬ ((c.attempt al r).2.fatal ∨ (c.attempt al r).2 = .zero)) :
    c.readSync al r = ({ c with readBuffer := (c.attempt al r).1 }, false) := by
  obtain ⟨hfatal, hzero⟩ := not_or.mp hgoes
  have hfatal : (c.attempt al r).2.fatal = false := by simpa using hfatal
  unfold Conn.attempt at hfatal hzero ⊢
  simp [Conn.readSync, hclosed, herror, hfatal, hzero]

/-- `spe_conn_read_sync` that meets the end of file or an error: everything is
handed over. -/
theorem readSync_ends {c : Conn} {al : Allocs} {r : ReadRes} (hal : al.Good)
    (hstop : (c.attempt al r).2.fatal ∨ (c.attempt al r).2 = .zero) :
    (c.readSync al r).2 = true ∧
    (c.readSync al r).1.reader = { c.reader with
      buffer := c.buffer.bytes ++ (c.attempt al r).1.bytes
      readBuffer := []
      error := c.error || (c.attempt al r).2.fatal
      closed := c.closed || (c.attempt al r).2 = .zero } := by
  have hends : (c.error || (c.attempt al r).2.fatal ||
      (c.closed || decide ((c.attempt al r).2 = .zero))) = true := by
    rcases hstop with hstop | hstop <;> simp [hstop]
  unfold Conn.attempt at hends ⊢
  unfold Conn.readSync
  simp only [hends, if_true, true_and]
  rw [handOverAll_reader hal]
  rfl

/-- The search for a delimiter finds the frame of the request for it. -/
theorem search_frame (b : ByteBuf) (delim : CStr) :
    (b.search delim.1).map (· + delim.1.length) =
      codeFrame (.readUntil (some delim)) b.bytes := by
  rw [b.search_eq, codeFrame]
  split <;> rfl

/-- On an open connection a read call is over when its synchronous attempt is. -/
theorem issue_ended {c : Conn} {req : Request} {al : Allocs} {r : ReadRes}
    (hclosed : c.closed = false) (herror : c.error = false) (hproper : req.Proper)
    (hended : (c.readSync al r).2 = true) :
    c.issue req al r = ((c.readSync al r).1, .done) := by
  cases req with
  | readUntil delim =>
      obtain ⟨delim, rfl⟩ := Option.isSome_iff_exists.mp hproper
      simp [Conn.issue, Conn.readUntil, hclosed, herror, hended]
  | readbytes len =>
      have hlen : len ≠ 0 := Nat.pos_iff_ne_zero.mp hproper
      simp [Conn.issue, Conn.readbytes, hclosed, herror, hended, hlen]
  | read => simp [Conn.issue, Conn.read, hclosed, herror, hended]

/-- On an open connection a read call whose synchronous attempt goes on hands
over the frame it finds, or becomes the pending request. -/
theorem issue_goes {c c₁ : Conn} {req : Request} {al : Allocs} {r : ReadRes} (hal : al.Good)
    (hclosed : c.closed = false) (herror : c.error = false) (hproper : req.Proper)
    (hsync : c.readSync al r = (c₁, false)) :
    ((c.issue req al r).1.reader, (c.issue req al r).2) =
      match codeFrame req c₁.readBuffer.bytes with
      | some n =>
          ({ c₁.reader with
            buffer := c₁.buffer.bytes ++ c₁.readBuffer.bytes.take n
            readBuffer := c₁.readBuffer.bytes.drop n }, .done)
      | none => ({ c₁.reader with request := some req }, .pending) := by
  cases req with
  | readUntil delim =>
      obtain ⟨delim, rfl⟩ := Option.isSome_iff_exists.mp hproper
      rw [← search_frame]
      simp only [Conn.issue, Conn.readUntil, hclosed, herror, hsync, Bool.or_self,
        Bool.false_eq_true, if_false]
      cases c₁.readBuffer.search delim.1 with
      | none => rfl
      | some pos => simp [handOver_reader hal]
  | readbytes len =>
      have hlen : len ≠ 0 := Nat.pos_iff_ne_zero.mp hproper
      simp only [Conn.issue, Conn.readbytes, hclosed, herror, hsync, hlen, codeFrame,
        ByteBuf.len_eq, Bool.or_self, Bool.false_eq_true, decide_false, if_false]
      by_cases hle : len ≤ c₁.readBuffer.bytes.length
      · simp [hle, handOver_reader hal]
      · simp only [if_neg hle]
        rfl
  | read =>
      simp only [Conn.issue, Conn.read, hclosed, herror, hsync, codeFrame, ByteBuf.len_eq,
        Bool.or_self, Bool.false_eq_true, if_false]
      by_cases hempty : c₁.readBuffer.bytes = []
      · simp only [hempty, List.length_nil, Nat.lt_irrefl, if_false, if_true]
        rfl
      · have hpos : 0 < c₁.readBuffer.bytes.length := List.length_pos_iff.mpr hempty
        simp [hempty, hpos, handOverAll_reader hal]

/-- **The read calls** do to the read side what `Reader.issue` says. -/
theorem Conn.issue_spec {c : Conn} {req : Request} {al : Allocs} {r : ReadRes}
    (hal : al.Good) (hclosed : c.closed = false) (herror : c.error = false)
    (hproper : req.Proper) :
    ((c.issue req al r).1.reader, (c.issue req al r).2) =
      c.reader.issue req (gained c.readBuffer (c.attempt al r).1) (c.attempt al r).2 := by
  have hbytes : c.reader.readBuffer ++ gained c.readBuffer (c.attempt al r).1 =
      (c.attempt al r).1.bytes := (readFdAppend_once hal r).bytes.symm
  unfold Reader.issue
  rw [hbytes]
  by_cases hstop : (c.attempt al r).2.fatal ∨ (c.attempt al r).2 = .zero
  · obtain ⟨hended, hreader⟩ := readSync_ends hal hstop
    rw [issue_ended hclosed herror hproper hended, if_pos hstop, hreader]
    rfl
  · have hsync := readSync_goes hclosed herror hstop
    rw [issue_goes hal hclosed herror hproper hsync, if_neg hstop]
    cases codeFrame req (c.attempt al r).1.bytes <;> rfl

/-- The check of `_read_type` hands over the frame of the pending request. -/
theorem checkReadType_spec {c : Conn} {al : Allocs} (hal : al.Good) :
    (c.checkReadType al).map (fun c' => c'.endRead.reader) =
      (c.request.bind (fun req => codeFrame req c.readBuffer.bytes)).map (fun n =>
        { c.reader with
          buffer := c.buffer.bytes ++ c.readBuffer.bytes.take n
          readBuffer := c.readBuffer.bytes.drop n
          request := none }) := by
  have hend : ∀ c' : Conn, c'.endRead.reader = { c'.reader with request := none } :=
    fun _ => rfl
  unfold Conn.checkReadType Conn.request
  cases c.readType with
  | readNone => rfl
  | readUntil =>
      simp only [Option.bind_some, ← search_frame]
      cases c.readBuffer.search c.delim.1 with
      | none => rfl
      | some pos => simp [hend, handOver_reader hal]
  | readBytes =>
      simp only [Option.bind_some, codeFrame, ByteBuf.len_eq]
      by_cases hle : c.rbytes ≤ c.readBuffer.bytes.length
      · simp [hle, hend, handOver_reader hal]
      · simp [hle]
  | read =>
      simp only [Option.bind_some, codeFrame, ByteBuf.len_eq]
      by_cases hempty : c.readBuffer.bytes = []
      · simp [hempty]
      · have hpos : 0 < c.readBuffer.bytes.length := List.length_pos_iff.mpr hempty
        simp [hempty, hpos, hend, handOverAll_reader hal]

/-- What `read_normal` does to the read side after its loop. -/
theorem settle_reader {c : Conn} {al : Allocs} (hal : al.Good) :
    ((c.settle al).1.reader, (c.settle al).2) = c.reader.settle := by
  have hcheck := checkReadType_spec (c := c) hal
  unfold Conn.settle Reader.settle
  cases hframe : c.reader.request.bind (fun req => codeFrame req c.reader.readBuffer) with
  | none =>
      have hnone : c.checkReadType al = none := by
        have hframe' : c.request.bind (fun req => codeFrame req c.readBuffer.bytes) = none :=
          hframe
        rw [hframe'] at hcheck
        exact Option.map_eq_none_iff.mp hcheck
      rw [hnone]
      dsimp only
      by_cases hends : c.closed || c.error
      · have hends' : c.reader.closed || c.reader.error := hends
        rw [if_pos hends, if_pos hends']
        rfl
      · have hends' : ¬ (c.reader.closed || c.reader.error) := hends
        rw [if_neg hends, if_neg hends']
  | some n =>
      have hframe' : c.request.bind (fun req => codeFrame req c.readBuffer.bytes) = some n :=
        hframe
      rw [hframe'] at hcheck
      obtain ⟨c', hc', hreader⟩ := Option.map_eq_some_iff.mp hcheck
      rw [hc']
      dsimp only
      rw [hreader]
      rfl

/-- What the loop of `read_normal` does to the read side. -/
theorem afterLoop_reader {c : Conn} {b : ByteBuf} {got : Bytes} {ret : ReadRet}
    (honce : ReadOnce c.readBuffer b got ret) :
    (c.afterLoop b ret).reader = c.reader.afterLoop got ret := by
  simp [Conn.afterLoop, Reader.afterLoop, Conn.reader, Conn.request, honce.bytes, honce.sound]

/-- **`read_normal`** does to the read side what `Reader.afterLoop` and
`Reader.settle` say. -/
theorem Conn.readNormal_spec {c : Conn} {timedOut : Bool} {al : Allocs} {rs : List ReadRes}
    {b : ByteBuf} {ret : ReadRet} (hal : al.Good)
    (htime : ¬ (c.readExpireTime ≠ 0 ∧ timedOut))
    (hloop : readLoop c.readBuffer al rs = some (b, ret)) :
    ∃ c' out, c.readNormal timedOut al rs = some (c', out) ∧
      (c'.reader, out) = (c.reader.afterLoop (gained c.readBuffer b) ret).settle := by
  obtain ⟨honce, _⟩ := readLoop_once hal hloop
  refine ⟨((c.afterLoop b ret).settle al).1, ((c.afterLoop b ret).settle al).2, ?_, ?_⟩
  · rw [readNormal, if_neg htime, hloop]
  · rw [settle_reader hal, afterLoop_reader honce]

/-- Only fields that reads write may differ. -/
structure Conn.OnlyRead (c c' : Conn) : Prop where
  fd : c'.fd = c.fd
  readExpireTime : c'.readExpireTime = c.readExpireTime
  writeExpireTime : c'.writeExpireTime = c.writeExpireTime
  writeBuffer : c'.writeBuffer = c.writeBuffer
  writeType : c'.writeType = c.writeType
  connectTimeout : c'.connectTimeout = c.connectTimeout
  writeTimeout : c'.writeTimeout = c.writeTimeout

/-- Of these, whether a read is pending and `read_timeout` are as before, too. -/
structure Conn.OnlyBytes (c c' : Conn) : Prop extends Conn.OnlyRead c c' where
  readType : c'.readType = c.readType
  readTimeout : c'.readTimeout = c.readTimeout

/-- Two reads. -/
theorem Conn.OnlyRead.trans {c c' c'' : Conn} (h : c.OnlyRead c') (h' : c'.OnlyRead c'') :
    c.OnlyRead c'' :=
  ⟨h'.fd.trans h.fd, h'.readExpireTime.trans h.readExpireTime,
    h'.writeExpireTime.trans h.writeExpireTime, h'.writeBuffer.trans h.writeBuffer,
    h'.writeType.trans h.writeType, h'.connectTimeout.trans h.connectTimeout,
    h'.writeTimeout.trans h.writeTimeout⟩

/-- Two reads of bytes. -/
theorem Conn.OnlyBytes.trans {c c' c'' : Conn} (h : c.OnlyBytes c') (h' : c'.OnlyBytes c'') :
    c.OnlyBytes c'' :=
  ⟨h.toOnlyRead.trans h'.toOnlyRead, h'.readType.trans h.readType,
    h'.readTimeout.trans h.readTimeout⟩

/-- Nothing differs. -/
theorem Conn.OnlyBytes.refl (c : Conn) : c.OnlyBytes c :=
  ⟨⟨rfl, rfl, rfl, rfl, rfl, rfl, rfl⟩, rfl, rfl⟩

/-- Bytes are handed over. -/
theorem handOver_only (c : Conn) (n : Nat) (al : Allocs) : c.OnlyBytes (c.handOver n al) :=
  ⟨⟨rfl, rfl, rfl, rfl, rfl, rfl, rfl⟩, rfl, rfl⟩

/-- All bytes are handed over. -/
theorem handOverAll_only (c : Conn) (al : Allocs) : c.OnlyBytes (c.handOverAll al) :=
  ⟨⟨rfl, rfl, rfl, rfl, rfl, rfl, rfl⟩, rfl, rfl⟩

/-- `spe_conn_read_sync` moves bytes. -/
theorem readSync_only (c : Conn) (al : Allocs) (r : ReadRes) :
    c.OnlyBytes (c.readSync al r).1 := by
  unfold Conn.readSync
  dsimp only
  split
  · exact ⟨⟨rfl, rfl, rfl, rfl, rfl, rfl, rfl⟩, rfl, rfl⟩
  · exact ⟨⟨rfl, rfl, rfl, rfl, rfl, rfl, rfl⟩, rfl, rfl⟩

/-- **What a read call writes**: it moves bytes, or it leaves a read pending and resets
`read_timeout`. -/
theorem issue_only (c : Conn) (req : Request) (al : Allocs) (r : ReadRes) :
    ((c.issue req al r).2 ≠ .pending ∧ c.OnlyBytes (c.issue req al r).1) ∨
    ((c.issue req al r).2 = .pending ∧ c.OnlyRead (c.issue req al r).1 ∧
      (c.issue req al r).1.readType ≠ .readNone ∧ (c.issue req al r).1.readTimeout = false) := by
  have hsync := readSync_only c al r
  have hover := fun n => hsync.trans (handOver_only (c.readSync al r).1 n al)
  have hall := hsync.trans (handOverAll_only (c.readSync al r).1 al)
  have hread := hsync.toOnlyRead
  unfold Conn.issue
  cases req with
  | readUntil delim =>
      cases delim with
      | none => exact Or.inl ⟨nofun, .refl c⟩
      | some delim =>
          dsimp only [Conn.readUntil]
          split
          · exact Or.inl ⟨nofun, .refl c⟩
          · split
            · exact Or.inl ⟨nofun, hsync⟩
            · split
              · exact Or.inl ⟨nofun, hover _⟩
              · exact Or.inr ⟨rfl, hread.trans ⟨rfl, rfl, rfl, rfl, rfl, rfl, rfl⟩, nofun, rfl⟩
  | readbytes len =>
      dsimp only [Conn.readbytes]
      split
      · exact Or.inl ⟨nofun, .refl c⟩
      · split
        · exact Or.inl ⟨nofun, hsync⟩
        · split
          · exact Or.inl ⟨nofun, hover _⟩
          · exact Or.inr ⟨rfl, hread.trans ⟨rfl, rfl, rfl, rfl, rfl, rfl, rfl⟩, nofun, rfl⟩
  | read =>
      dsimp only [Conn.read]
      split
      · exact Or.inl ⟨nofun, .refl c⟩
      · split
        · exact Or.inl ⟨nofun, hsync⟩
        · split
          · exact Or.inl ⟨nofun, hall⟩
          · exact Or.inr ⟨rfl, hread.trans ⟨rfl, rfl, rfl, rfl, rfl, rfl, rfl⟩, nofun, rfl⟩

/-- Either way only reads happen. -/
theorem issue_reads (c : Conn) (req : Request) (al : Allocs) (r : ReadRes) :
    c.OnlyRead (c.issue req al r).1 := by
  rcases issue_only c req al r with ⟨_, hkeeps⟩ | ⟨_, honly, _⟩
  · exact hkeeps.toOnlyRead
  · exact honly

/-- The check of `_read_type` moves bytes. -/
theorem checkReadType_only {c c' : Conn} {al : Allocs} (h : c.checkReadType al = some c') :
    c.OnlyBytes c' := by
  unfold Conn.checkReadType at h
  split at h
  · obtain ⟨pos, _, rfl⟩ := Option.map_eq_some_iff.mp h
    exact handOver_only c _ al
  · obtain ⟨_, ⟨⟩⟩ := Option.ite_none_right_eq_some.mp h
    exact handOver_only c _ al
  · obtain ⟨_, ⟨⟩⟩ := Option.ite_none_right_eq_some.mp h
    exact handOverAll_only c al
  · cases h

/-- **What `read_normal` writes**: it moves bytes, clears `_read_type` exactly if it ends
the read, and sets `read_timeout` exactly if the read has timed out. -/
theorem readNormal_only {c c' : Conn} {timedOut : Bool} {al : Allocs} {rs : List ReadRes}
    {out : Outcome} (h : c.readNormal timedOut al rs = some (c', out)) :
    c.OnlyRead c' ∧
    ((out = .done ∧ c'.readType = .readNone) ∨ (out = .pending ∧ c'.readType = c.readType)) ∧
    c'.readTimeout = (c.readTimeout || (decide (c.readExpireTime ≠ 0) && timedOut)) := by
  unfold Conn.readNormal at h
  by_cases htime : c.readExpireTime ≠ 0 ∧ timedOut
  · rw [if_pos htime] at h
    obtain ⟨rfl, rfl⟩ := Prod.mk.inj (Option.some.inj h)
    exact ⟨⟨rfl, rfl, rfl, rfl, rfl, rfl, rfl⟩, Or.inl ⟨rfl, rfl⟩, by simp [Conn.endRead, htime]⟩
  · have hno : (decide (c.readExpireTime ≠ 0) && timedOut) = false := by simpa using htime
    rw [if_neg htime] at h
    rw [hno, Bool.or_false]
    split at h
    · cases h
    · rename_i b ret _
      have hafter : c.OnlyBytes (c.afterLoop b ret) :=
        ⟨⟨rfl, rfl, rfl, rfl, rfl, rfl, rfl⟩, rfl, rfl⟩
      have hsettle := Option.some.inj h
      unfold Conn.settle at hsettle
      split at hsettle
      · rename_i c₁ hcheck
        have hmoved := hafter.trans (checkReadType_only hcheck)
        obtain ⟨rfl, rfl⟩ := Prod.mk.inj hsettle
        exact ⟨hmoved.toOnlyRead.trans ⟨rfl, rfl, rfl, rfl, rfl, rfl, rfl⟩, Or.inl ⟨rfl, rfl⟩,
          hmoved.readTimeout⟩
      · split at hsettle
        · obtain ⟨rfl, rfl⟩ := Prod.mk.inj hsettle
          exact ⟨⟨rfl, rfl, rfl, rfl, rfl, rfl, rfl⟩, Or.inl ⟨rfl, rfl⟩, rfl⟩
        · obtain ⟨rfl, rfl⟩ := Prod.mk.inj hsettle
          exact ⟨hafter.toOnlyRead, Or.inr ⟨rfl, rfl⟩, rfl⟩

end Spe
