import Spe.ConnFlags

/-!
# Connections that nobody can tell apart

Two connections are alike when their three buffers hold the same bytes, though maybe
in blocks of different sizes, and all fields agree that are read before they are
written: `_delim` and `_rbytes` count only while a request for them is pending, which
is how `Conn.reader` has them.

The size of a block shows in how many bytes a `read` may return and in whether an
append needs an allocation.  So what the environment answers is the same in both when
the reads return the same and the appends succeed in both or in none
(`ConnEvent.Suits`), and then alike connections stay alike.
-/

namespace Spe

open Transition

/-- The read returns the same for two buffers. -/
def SameRead (b b' : ByteBuf) (al : Alloc) (r : ReadRes) : Prop :=
  (b.readFdAppend BUF_SIZE al r).2 = (b'.readFdAppend BUF_SIZE al r).2

/-- The reads of the loop of `read_normal` return the same for two buffers. -/
def SameReads (al : Alloc) : ByteBuf → ByteBuf → List ReadRes → Prop
  | _, _, [] => True
  | b, b', r :: rs =>
      SameRead b b' al r ∧
        ((b.readFdAppend BUF_SIZE al r).2 = .fail .eintr →
          SameReads al (b.readFdAppend BUF_SIZE al r).1 (b'.readFdAppend BUF_SIZE al r).1 rs)

/-- The append succeeds for two buffers or for none. -/
def SameAppend (b b' : ByteBuf) (src : Bytes) (al : Alloc) : Prop :=
  (b.append src al).2 = (b'.append src al).2

/-- Reads with the same result deliver the same bytes. -/
theorem bytes_of_ret_eq {r : ReadRes} {n m : Nat} (h : r.ret n = r.ret m) :
    r.bytes n = r.bytes m := by
  cases r with
  | data bs =>
      have hlen : ((ReadRes.data bs).bytes n).length = ((ReadRes.data bs).bytes m).length := by
        simp only [ReadRes.ret] at h
        grind
      rw [ReadRes.bytes, ReadRes.bytes, List.length_take, List.length_take] at hlen
      rw [ReadRes.bytes, ReadRes.bytes, List.take_eq_take_iff]
      exact hlen
  | eof => rfl
  | err e => rfl

/-- Two buffers with the same bytes after a read that returns the same. -/
theorem SameRead.bytes {b b' : ByteBuf} {al : Alloc} {r : ReadRes} (hread : SameRead b b' al r)
    (h : b.bytes = b'.bytes) :
    (b.readFdAppend BUF_SIZE al r).1.bytes = (b'.readFdAppend BUF_SIZE al r).1.bytes := by
  obtain ⟨_, _, _, hspec⟩ := bufReadFdAppend_spec al r b.wf (holds_exact _)
    (appendFits_exact _ BUF_SIZE)
  obtain ⟨_, _, _, hspec'⟩ := bufReadFdAppend_spec al r b'.wf (holds_exact _)
    (appendFits_exact _ BUF_SIZE)
  have hret : (bufReadFdAppend .exact b.buf BUF_SIZE al r).2 =
      (bufReadFdAppend .exact b'.buf BUF_SIZE al r).2 := hread
  have hcontent : b.buf.content = b'.buf.content := h
  change (bufReadFdAppend .exact b.buf BUF_SIZE al r).1.content =
    (bufReadFdAppend .exact b'.buf BUF_SIZE al r).1.content
  rcases hspec with ⟨hfailed, _, hsame⟩ | ⟨room, _, hroom, hgrown⟩
  · rcases hspec' with ⟨_, _, hsame'⟩ | ⟨room', _, hroom', _⟩
    · rw [hsame, hsame', hcontent]
    · exact absurd (hroom'.symm.trans (hret.symm.trans hfailed)) (ret_ne_bufError r room')
  · rcases hspec' with ⟨hfailed', _, _⟩ | ⟨room', _, hroom', hgrown'⟩
    · exact absurd (hroom.symm.trans (hret.trans hfailed')) (ret_ne_bufError r room)
    · rw [hgrown, hgrown', hcontent,
        bytes_of_ret_eq (hroom.symm.trans (hret.trans hroom'))]

/-- Two buffers with the same bytes after an append. -/
theorem SameAppend.bytes {b b' : ByteBuf} {src : Bytes} {al : Alloc}
    (happend : SameAppend b b' src al) (h : b.bytes = b'.bytes) :
    (b.append src al).1.bytes = (b'.append src al).1.bytes := by
  unfold SameAppend at happend
  rw [ByteBuf.bytes_append, ByteBuf.bytes_append, happend, h]

/-- An append whose allocation succeeds is the same for all buffers. -/
theorem sameAppend_of_alloc (b b' : ByteBuf) (src : Bytes) {al : Alloc} (hal : al.isSome) :
    SameAppend b b' src al := by
  unfold SameAppend
  rw [ByteBuf.append_ok _ _ hal, ByteBuf.append_ok _ _ hal]

/-- A read of at most `BUF_SIZE` bytes whose allocation succeeds returns the same for
all buffers. -/
theorem sameRead_of_alloc (b b' : ByteBuf) {al : Alloc} {r : ReadRes} (hal : al.isSome)
    (hfits : ∀ bs, r = .data bs → bs.length ≤ BUF_SIZE) : SameRead b b' al r := by
  obtain ⟨room, hroom, hret, _⟩ := b.bytes_readFdAppend BUF_SIZE r hal
  obtain ⟨room', hroom', hret', _⟩ := b'.bytes_readFdAppend BUF_SIZE r hal
  unfold SameRead
  rw [hret, hret']
  cases r with
  | data bs =>
      have hlen := hfits bs rfl
      have hwhole : ∀ n, BUF_SIZE ≤ n → (ReadRes.data bs).bytes n = bs := by
        intro n hn
        exact List.take_of_length_le (by omega)
      simp only [ReadRes.ret, hwhole room hroom, hwhole room' hroom']
  | eof => rfl
  | err e => rfl

/-- What the loop of `read_normal` makes of two buffers with the same bytes. -/
theorem SameReads.readLoop {b b' : ByteBuf} {al : Allocs} {rs : List ReadRes}
    (hreads : SameReads al.read b b' rs) (h : b.bytes = b'.bytes) :
    Option.Rel (fun p q => p.1.bytes = q.1.bytes ∧ p.2 = q.2)
      (Conn.readLoop b al rs) (Conn.readLoop b' al rs) := by
  induction rs generalizing b b' with
  | nil => exact .none
  | cons r rs ih =>
      obtain ⟨hread, hrest⟩ := hreads
      have hbytes := hread.bytes h
      rw [Conn.readLoop, Conn.readLoop]
      by_cases hintr : (b.readFdAppend BUF_SIZE al.read r).2 = .fail .eintr
      · have hintr' : (b'.readFdAppend BUF_SIZE al.read r).2 = .fail .eintr :=
          hread.symm.trans hintr
        rw [if_pos hintr, if_pos hintr']
        exact ih (hrest hintr) hbytes
      · have hintr' : (b'.readFdAppend BUF_SIZE al.read r).2 ≠ .fail .eintr :=
          fun heq => hintr (hread.trans heq)
        rw [if_neg hintr, if_neg hintr']
        exact .some ⟨hbytes, hread⟩

/-- The fields of a connection that its reads leave alone, but for `read_timeout`. -/
structure OffRead where
  fd : Nat
  readExpireTime : Nat
  writeExpireTime : Nat
  writing : Bytes
  writeType : WriteType
  connectTimeout : Bool
  readTimeout : Bool
  writeTimeout : Bool

/-- What reads leave alone. -/
def Conn.offRead (c : Conn) : OffRead where
  fd := c.fd
  readExpireTime := c.readExpireTime
  writeExpireTime := c.writeExpireTime
  writing := c.writeBuffer.bytes
  writeType := c.writeType
  connectTimeout := c.connectTimeout
  readTimeout := c.readTimeout
  writeTimeout := c.writeTimeout

/-- Two connections that nobody can tell apart. -/
structure Conn.Alike (c d : Conn) : Prop where
  reader : c.reader = d.reader
  offRead : c.offRead = d.offRead

/-- A connection is like itself. -/
theorem Conn.Alike.refl (c : Conn) : c.Alike c := ⟨rfl, rfl⟩

section Fields

variable {c d : Conn} (h : c.Alike d)
include h

/-- Alike connections have the same bytes in `buffer`. -/
theorem Conn.Alike.buffer : c.buffer.bytes = d.buffer.bytes := congrArg Reader.buffer h.reader

/-- Alike connections have the same bytes in `_read_buffer`. -/
theorem Conn.Alike.readBuffer : c.readBuffer.bytes = d.readBuffer.bytes :=
  congrArg Reader.readBuffer h.reader

/-- Alike connections have the same bytes in `_write_buffer`. -/
theorem Conn.Alike.writing : c.writeBuffer.bytes = d.writeBuffer.bytes :=
  congrArg OffRead.writing h.offRead

/-- Alike connections are over together. -/
theorem Conn.Alike.over : c.closed = d.closed ∧ c.error = d.error :=
  ⟨congrArg Reader.closed h.reader, congrArg Reader.error h.reader⟩

/-- Alike connections refuse their calls together. -/
theorem Conn.Alike.refuses : (c.closed || c.error) = (d.closed || d.error) := by
  obtain ⟨hclosed, herror⟩ := h.over
  rw [hclosed, herror]

/-- Alike connections have the same time limits. -/
theorem Conn.Alike.limits (k : OpKind) : k.expireTime c = k.expireTime d := by
  have hread : c.readExpireTime = d.readExpireTime := congrArg OffRead.readExpireTime h.offRead
  have hwrite : c.writeExpireTime = d.writeExpireTime := congrArg OffRead.writeExpireTime h.offRead
  cases k with
  | read => exact hread
  | connect => exact hread
  | flush => exact hwrite

/-- Alike connections time out together. -/
theorem Conn.Alike.timesOut (k : OpKind) (timedOut : Bool) :
    (k.expireTime c ≠ 0 ∧ timedOut = true) ↔ (k.expireTime d ≠ 0 ∧ timedOut = true) := by
  rw [h.limits k]

/-- Alike connections have the same timeout flags. -/
theorem Conn.Alike.flags (k : OpKind) : k.flag c = k.flag d := by
  cases k with
  | read => exact congrArg OffRead.readTimeout h.offRead
  | connect => exact congrArg OffRead.connectTimeout h.offRead
  | flush => exact congrArg OffRead.writeTimeout h.offRead

/-- Alike connections read the same. -/
theorem Conn.Alike.readType : c.readType = d.readType := by
  have hrequest : c.request = d.request := congrArg Reader.request h.reader
  unfold Conn.request at hrequest
  cases hc : c.readType <;> cases hd : d.readType <;> simp_all

/-- Alike connections write together. -/
theorem Conn.Alike.writeType : c.writeType = d.writeType := congrArg OffRead.writeType h.offRead

end Fields

/-- Bytes are handed over in two connections that are alike. -/
theorem Conn.Alike.handOver {c d : Conn} (h : c.Alike d) {al : Allocs}
    (happend : ∀ src, SameAppend c.buffer d.buffer src al.append) (n : Nat) :
    (c.handOver n al).Alike (d.handOver n al) := by
  have hbytes := (happend (c.readBuffer.bytes.take n)).bytes h.buffer
  refine ⟨?_, h.offRead⟩
  change { c.reader with
      buffer := (c.buffer.append (c.readBuffer.bytes.take n) al.append).1.bytes
      readBuffer := (c.readBuffer.lconsume n).bytes } =
    { d.reader with
      buffer := (d.buffer.append (d.readBuffer.bytes.take n) al.append).1.bytes
      readBuffer := (d.readBuffer.lconsume n).bytes }
  rw [h.reader, ← h.readBuffer, hbytes, ByteBuf.bytes_lconsume, ByteBuf.bytes_lconsume,
    h.readBuffer]

/-- All bytes are handed over in two connections that are alike. -/
theorem Conn.Alike.handOverAll {c d : Conn} (h : c.Alike d) {al : Allocs}
    (happend : ∀ src, SameAppend c.buffer d.buffer src al.append) :
    (c.handOverAll al).Alike (d.handOverAll al) := by
  have hbytes := (happend c.readBuffer.bytes).bytes h.buffer
  refine ⟨?_, h.offRead⟩
  change { c.reader with
      buffer := (c.buffer.append c.readBuffer.bytes al.append).1.bytes
      readBuffer := c.readBuffer.clean.bytes } =
    { d.reader with
      buffer := (d.buffer.append d.readBuffer.bytes al.append).1.bytes
      readBuffer := d.readBuffer.clean.bytes }
  rw [h.reader, ← h.readBuffer, hbytes, ByteBuf.bytes_clean, ByteBuf.bytes_clean]

/-- The result of a function on two connections that are alike. -/
def SameOutcome (p q : Conn × Outcome) : Prop := p.1.Alike q.1 ∧ p.2 = q.2

/-- `spe_conn_read_sync` on two connections that are alike; where it goes on, `buffer`
is as it was. -/
theorem Conn.Alike.readSync {c d : Conn} (h : c.Alike d) {al : Allocs} {r : ReadRes}
    (hread : SameRead c.readBuffer d.readBuffer al.read r)
    (happend : ∀ src, SameAppend c.buffer d.buffer src al.append) :
    (c.readSync al r).1.Alike (d.readSync al r).1 ∧
    (c.readSync al r).2 = (d.readSync al r).2 ∧
    ((c.readSync al r).2 = false →
      (c.readSync al r).1.buffer = c.buffer ∧ (d.readSync al r).1.buffer = d.buffer) := by
  have hret : (c.readBuffer.readFdAppend BUF_SIZE al.read r).2 =
      (d.readBuffer.readFdAppend BUF_SIZE al.read r).2 := hread
  have hbytes := hread.bytes h.readBuffer
  obtain ⟨hclosed, herror⟩ := h.over
  let c₁ : Conn := { c with
    readBuffer := (c.readBuffer.readFdAppend BUF_SIZE al.read r).1
    error := c.error || (c.readBuffer.readFdAppend BUF_SIZE al.read r).2.fatal
    closed := c.closed || (c.readBuffer.readFdAppend BUF_SIZE al.read r).2 = .zero }
  let d₁ : Conn := { d with
    readBuffer := (d.readBuffer.readFdAppend BUF_SIZE al.read r).1
    error := d.error || (d.readBuffer.readFdAppend BUF_SIZE al.read r).2.fatal
    closed := d.closed || (d.readBuffer.readFdAppend BUF_SIZE al.read r).2 = .zero }
  have hflags : c₁.error = d₁.error ∧ c₁.closed = d₁.closed := by
    dsimp only [c₁, d₁]
    rw [hret, hclosed, herror]
    exact ⟨rfl, rfl⟩
  have hread₁ : c₁.Alike d₁ := by
    refine ⟨?_, h.offRead⟩
    change { c.reader with
        readBuffer := c₁.readBuffer.bytes, error := c₁.error, closed := c₁.closed } =
      { d.reader with
        readBuffer := d₁.readBuffer.bytes, error := d₁.error, closed := d₁.closed }
    have hbytes₁ : c₁.readBuffer.bytes = d₁.readBuffer.bytes := hbytes
    rw [h.reader, hflags.1, hflags.2, hbytes₁]
  have hends : (c₁.error || c₁.closed) = (d₁.error || d₁.closed) := by
    rw [hflags.1, hflags.2]
  have hc : c.readSync al r =
      if c₁.error || c₁.closed then (c₁.handOverAll al, true) else (c₁, false) := rfl
  have hd : d.readSync al r =
      if d₁.error || d₁.closed then (d₁.handOverAll al, true) else (d₁, false) := rfl
  rw [hc, hd, hends]
  split
  · exact ⟨hread₁.handOverAll happend, rfl, nofun⟩
  · exact ⟨hread₁, rfl, fun _ => ⟨rfl, rfl⟩⟩

/-- A read call on two connections that are alike. -/
theorem Conn.Alike.issue {c d : Conn} (h : c.Alike d) (req : Request) {al : Allocs}
    {r : ReadRes} (hread : SameRead c.readBuffer d.readBuffer al.read r)
    (happend : ∀ src, SameAppend c.buffer d.buffer src al.append) :
    SameOutcome (c.issue req al r) (d.issue req al r) := by
  obtain ⟨hsync, hended, hkept⟩ := h.readSync hread happend
  have hhandOver : (c.readSync al r).2 = false → ∀ n,
      ((c.readSync al r).1.handOver n al).Alike ((d.readSync al r).1.handOver n al) := by
    intro hgoes n
    obtain ⟨hleft, hright⟩ := hkept hgoes
    apply hsync.handOver
    rw [hleft, hright]
    exact happend
  have hhandOverAll : (c.readSync al r).2 = false →
      ((c.readSync al r).1.handOverAll al).Alike ((d.readSync al r).1.handOverAll al) := by
    intro hgoes
    obtain ⟨hleft, hright⟩ := hkept hgoes
    apply hsync.handOverAll
    rw [hleft, hright]
    exact happend
  have hlen : (c.readSync al r).1.readBuffer.buf.len = (d.readSync al r).1.readBuffer.buf.len := by
    rw [ByteBuf.len_eq, ByteBuf.len_eq, hsync.readBuffer]
  have hoff := congrArg (fun v : OffRead => { v with readTimeout := false }) hsync.offRead
  have hrequest : ∀ req' : Request, { (c.readSync al r).1.reader with request := some req' } =
      { (d.readSync al r).1.reader with request := some req' } :=
    fun req' => congrArg (fun v : Reader => { v with request := some req' }) hsync.reader
  unfold Conn.issue
  cases req with
  | readUntil delim =>
      cases delim with
      | none => exact ⟨h, rfl⟩
      | some delim =>
          have hsearch : (c.readSync al r).1.readBuffer.search delim.1 =
              (d.readSync al r).1.readBuffer.search delim.1 := by
            rw [ByteBuf.search_eq, ByteBuf.search_eq, hsync.readBuffer]
          dsimp only [Conn.readUntil]
          refine ite_rel SameOutcome (by rw [h.refuses]) (fun _ => ⟨h, rfl⟩) (fun _ => ?_)
          refine ite_rel SameOutcome (by rw [hended]) (fun _ => ⟨hsync, rfl⟩) (fun hgoes => ?_)
          rw [← hsearch]
          split
          · exact ⟨hhandOver (Bool.eq_false_iff.mpr hgoes) _, rfl⟩
          · exact ⟨⟨hrequest (.readUntil (some delim)), hoff⟩, rfl⟩
  | readbytes len =>
      have hrefuses : (decide (len = 0) || c.closed || c.error) =
          (decide (len = 0) || d.closed || d.error) := by
        rw [Bool.or_assoc, Bool.or_assoc, h.refuses]
      dsimp only [Conn.readbytes]
      refine ite_rel SameOutcome (by rw [hrefuses]) (fun _ => ⟨h, rfl⟩) (fun _ => ?_)
      refine ite_rel SameOutcome (by rw [hended]) (fun _ => ⟨hsync, rfl⟩) (fun hgoes => ?_)
      refine ite_rel SameOutcome (by rw [hlen]) (fun _ => ?_) (fun _ => ?_)
      · exact ⟨hhandOver (Bool.eq_false_iff.mpr hgoes) _, rfl⟩
      · exact ⟨⟨hrequest (.readbytes len), hoff⟩, rfl⟩
  | read =>
      dsimp only [Conn.read]
      refine ite_rel SameOutcome (by rw [h.refuses]) (fun _ => ⟨h, rfl⟩) (fun _ => ?_)
      refine ite_rel SameOutcome (by rw [hended]) (fun _ => ⟨hsync, rfl⟩) (fun hgoes => ?_)
      refine ite_rel SameOutcome (by rw [hlen]) (fun _ => ?_) (fun _ => ?_)
      · exact ⟨hhandOverAll (Bool.eq_false_iff.mpr hgoes), rfl⟩
      · exact ⟨⟨hrequest .read, hoff⟩, rfl⟩

/-- The check of `_read_type` in two connections that are alike. -/
theorem Conn.Alike.checkReadType {c d : Conn} (h : c.Alike d) {al : Allocs}
    (happend : ∀ src, SameAppend c.buffer d.buffer src al.append) :
    Option.Rel Conn.Alike (c.checkReadType al) (d.checkReadType al) := by
  have hrequest : c.request = d.request := congrArg Reader.request h.reader
  have hlen : c.readBuffer.buf.len = d.readBuffer.buf.len := by
    rw [ByteBuf.len_eq, ByteBuf.len_eq, h.readBuffer]
  have htype' := h.readType
  unfold Conn.checkReadType
  unfold Conn.request at hrequest
  rw [← htype'] at hrequest ⊢
  cases htype : c.readType with
  | readNone => exact .none
  | readUntil =>
      have hdelim : c.delim = d.delim := by simpa [htype] using hrequest
      have hsearch : c.readBuffer.search c.delim.1 = d.readBuffer.search d.delim.1 := by
        rw [ByteBuf.search_eq, ByteBuf.search_eq, h.readBuffer, hdelim]
      dsimp only
      rw [← hsearch, ← hdelim]
      cases c.readBuffer.search c.delim.1 with
      | none => exact .none
      | some pos => exact .some (h.handOver happend _)
  | readBytes =>
      have hbytes : c.rbytes = d.rbytes := by simpa [htype] using hrequest
      dsimp only
      rw [← hbytes]
      exact rel_ite (by rw [hlen]) (fun _ => .some (h.handOver happend _))
  | read =>
      exact rel_ite (by rw [hlen]) (fun _ => .some (h.handOverAll happend))

/-- A read has ended on two connections that are alike. -/
theorem Conn.Alike.endRead {c d : Conn} (h : c.Alike d) : c.endRead.Alike d.endRead :=
  ⟨congrArg (fun v : Reader => { v with request := none }) h.reader, h.offRead⟩

/-- The rest of `read_normal` on two connections that are alike. -/
theorem Conn.Alike.settle {c d : Conn} (h : c.Alike d) {al : Allocs}
    (happend : ∀ src, SameAppend c.buffer d.buffer src al.append) :
    SameOutcome (c.settle al) (d.settle al) := by
  unfold Conn.settle
  rcases rel_cases (h.checkReadType happend) with ⟨hc, hd⟩ | ⟨c', d', hc, hd, hcheck⟩
  · rw [hc, hd]
    exact ite_rel SameOutcome (by rw [h.refuses]) (fun _ => ⟨h.endRead, rfl⟩)
      (fun _ => ⟨h, rfl⟩)
  · rw [hc, hd]
    exact ⟨hcheck.endRead, rfl⟩

/-- `read_normal` on two connections that are alike. -/
theorem Conn.Alike.readNormal {c d : Conn} (h : c.Alike d) (timedOut : Bool) {al : Allocs}
    {rs : List ReadRes} (hreads : SameReads al.read c.readBuffer d.readBuffer rs)
    (happend : ∀ src, SameAppend c.buffer d.buffer src al.append) :
    Option.Rel SameOutcome (c.readNormal timedOut al rs) (d.readNormal timedOut al rs) := by
  unfold Conn.readNormal
  refine ite_rel (Option.Rel SameOutcome) (h.timesOut .read timedOut) (fun _ => ?_) (fun _ => ?_)
  · refine .some ⟨⟨?_, ?_⟩, rfl⟩
    · exact congrArg (fun v : Reader => { v with request := none }) h.reader
    · exact congrArg (fun v : OffRead => { v with readTimeout := true }) h.offRead
  · rcases rel_cases (hreads.readLoop h.readBuffer) with
      ⟨hloop, hloop'⟩ | ⟨⟨b, ret⟩, ⟨b', ret'⟩, hloop, hloop', hsame⟩
    · rw [hloop, hloop']
      exact .none
    · obtain ⟨hbytes, hret⟩ := hsame
      obtain rfl : ret = ret' := hret
      obtain ⟨hclosed, herror⟩ := h.over
      have hafter : (c.afterLoop b ret).Alike (d.afterLoop b' ret) := by
        refine ⟨?_, h.offRead⟩
        change { c.reader with
            readBuffer := b.bytes
            error := (c.afterLoop b ret).error
            closed := (c.afterLoop b ret).closed } =
          { d.reader with
            readBuffer := b'.bytes
            error := (d.afterLoop b' ret).error
            closed := (d.afterLoop b' ret).closed }
        have hbytes : b.bytes = b'.bytes := hbytes
        rw [Conn.afterLoop, Conn.afterLoop, h.reader, hbytes, hclosed, herror]
      rw [hloop, hloop']
      exact .some (hafter.settle happend)

/-- `spe_conn_write` on two connections that are alike. -/
theorem Conn.Alike.write {c d : Conn} (h : c.Alike d) {bs : Bytes} {al : Alloc}
    (happend : SameAppend c.writeBuffer d.writeBuffer bs al) :
    (c.write bs al).1.Alike (d.write bs al).1 := by
  unfold Conn.write
  refine ite_rel (fun p q : Conn × Bool => p.1.Alike q.1) (by rw [h.refuses]) (fun _ => h) ?_
  intro _
  have hwriting := happend.bytes h.writing
  refine ⟨h.reader, ?_⟩
  change { c.offRead with writing := (c.writeBuffer.append bs al).1.bytes } =
    { d.offRead with writing := (d.writeBuffer.append bs al).1.bytes }
  rw [h.offRead, hwriting]

/-- A `write` system call for two connections that are alike. -/
theorem Conn.Alike.wrote {c d : Conn} (h : c.Alike d) (w : WriteRes) :
    (c.wrote w).1.Alike (d.wrote w).1 ∧ (c.wrote w).2 = (d.wrote w).2 := by
  have hclosed : ({ c with closed := true } : Conn).Alike { d with closed := true } :=
    ⟨congrArg (fun v : Reader => { v with closed := true }) h.reader, h.offRead⟩
  have herror : ({ c with error := true } : Conn).Alike { d with error := true } :=
    ⟨congrArg (fun v : Reader => { v with error := true }) h.reader, h.offRead⟩
  cases w with
  | err e =>
      cases e with
      | epipe => exact ⟨hclosed, rfl⟩
      | eintr => exact ⟨herror, rfl⟩
      | eagain => exact ⟨herror, rfl⟩
      | other => exact ⟨herror, rfl⟩
  | wrote n =>
      have hlen : c.writeBuffer.buf.len = d.writeBuffer.buf.len := by
        rw [ByteBuf.len_eq, ByteBuf.len_eq, h.writing]
      have hleft : ∀ k, (c.writeBuffer.lconsume k).bytes = (d.writeBuffer.lconsume k).bytes := by
        intro k
        rw [ByteBuf.bytes_lconsume, ByteBuf.bytes_lconsume, h.writing]
      have hleftLen : ∀ k,
          (c.writeBuffer.lconsume k).buf.len = (d.writeBuffer.lconsume k).buf.len := by
        intro k
        rw [ByteBuf.len_eq, ByteBuf.len_eq, hleft]
      constructor
      · refine ⟨h.reader, ?_⟩
        change { c.offRead with
            writing := (c.writeBuffer.lconsume (min n c.writeBuffer.buf.len)).bytes } =
          { d.offRead with
            writing := (d.writeBuffer.lconsume (min n d.writeBuffer.buf.len)).bytes }
        rw [h.offRead, hlen, hleft]
      · change decide ((c.writeBuffer.lconsume (min n c.writeBuffer.buf.len)).buf.len = 0) =
          decide ((d.writeBuffer.lconsume (min n d.writeBuffer.buf.len)).buf.len = 0)
        rw [hlen, hleftLen]

/-- `spe_conn_flush` on two connections that are alike. -/
theorem Conn.Alike.flush {c d : Conn} (h : c.Alike d) (w : WriteRes) :
    SameOutcome (c.flush w) (d.flush w) := by
  obtain ⟨hwrote, hended⟩ := h.wrote w
  unfold Conn.flush
  have hdone : (c.wrote w).2 = true ↔ (d.wrote w).2 = true := by rw [hended]
  refine ite_rel SameOutcome (by rw [h.refuses]) (fun _ => ⟨h, rfl⟩) (fun _ => ?_)
  refine ite_rel SameOutcome hdone (fun _ => ⟨hwrote, rfl⟩) (fun _ => ?_)
  exact ⟨⟨hwrote.reader, congrArg (fun v : OffRead =>
    { v with writeTimeout := false, writeType := .write }) hwrote.offRead⟩, rfl⟩

/-- `write_normal` on two connections that are alike. -/
theorem Conn.Alike.writeNormal {c d : Conn} (h : c.Alike d) (timedOut : Bool) (w : WriteRes) :
    SameOutcome (c.writeNormal timedOut w) (d.writeNormal timedOut w) := by
  obtain ⟨hwrote, hended⟩ := h.wrote w
  unfold Conn.writeNormal
  have hdone : (c.wrote w).2 = true ↔ (d.wrote w).2 = true := by rw [hended]
  refine ite_rel SameOutcome (h.timesOut .flush timedOut) (fun _ => ?_) (fun _ => ?_)
  · exact ⟨⟨h.reader, congrArg (fun v : OffRead =>
      { v with writeTimeout := true, writeType := .writeNone }) h.offRead⟩, rfl⟩
  · refine ite_rel SameOutcome hdone (fun _ => ?_) (fun _ => ⟨hwrote, rfl⟩)
    exact ⟨⟨hwrote.reader, congrArg (fun v : OffRead =>
      { v with writeType := .writeNone }) hwrote.offRead⟩, rfl⟩

/-- `spe_conn_connect` on two connections that are alike. -/
theorem Conn.Alike.connect {c d : Conn} (h : c.Alike d) (res : ConnectRes) :
    SameOutcome (c.connect res) (d.connect res) := by
  cases res with
  | noAddress => exact ⟨h, rfl⟩
  | connected => exact ⟨h, rfl⟩
  | failed =>
      exact ⟨⟨congrArg (fun v : Reader => { v with error := true }) h.reader, h.offRead⟩, rfl⟩
  | inProgress =>
      refine ⟨⟨?_, ?_⟩, rfl⟩
      · exact congrArg (fun v : Reader => { v with request := some .read }) h.reader
      · exact congrArg (fun v : OffRead =>
          { v with connectTimeout := false, writeType := .write }) h.offRead

/-- `connect_normal` on two connections that are alike. -/
theorem Conn.Alike.connectNormal {c d : Conn} (h : c.Alike d) (timedOut soError : Bool) :
    (c.connectNormal timedOut soError).Alike (d.connectNormal timedOut soError) := by
  have hlimit := h.timesOut .connect timedOut
  unfold Conn.connectNormal
  by_cases htime : c.readExpireTime ≠ 0 ∧ timedOut
  · have htime' : d.readExpireTime ≠ 0 ∧ timedOut := hlimit.mp htime
    rw [if_pos htime, if_pos htime']
    refine ⟨?_, ?_⟩
    · exact congrArg (fun v : Reader => { v with request := none }) h.reader
    · exact congrArg (fun v : OffRead =>
        { v with connectTimeout := true, writeType := .writeNone }) h.offRead
  · have htime' : ¬ (d.readExpireTime ≠ 0 ∧ timedOut) := fun hd => htime (hlimit.mpr hd)
    rw [if_neg htime, if_neg htime']
    refine ⟨?_, ?_⟩
    · exact congrArg (fun v : Reader =>
        { v with error := v.error || soError, request := none }) h.reader
    · exact congrArg (fun v : OffRead => { v with writeType := .writeNone }) h.offRead

/-- The environment answers the same to two connections: reads return the same, and
appends succeed in both or in none.  A flush stores a NUL in the block of
`_write_buffer`, so both have one or none has. -/
def ConnEvent.Suits (c d : Conn) : ConnEvent → Prop
  | .issue _ al r =>
      SameRead c.readBuffer d.readBuffer al.read r ∧
        ∀ src, SameAppend c.buffer d.buffer src al.append
  | .readNormal _ al rs =>
      SameReads al.read c.readBuffer d.readBuffer rs ∧
        ∀ src, SameAppend c.buffer d.buffer src al.append
  | .write bs al => SameAppend c.writeBuffer d.writeBuffer bs al
  | .flush _ => c.writeBuffer.buf.start.isSome = d.writeBuffer.buf.start.isSome
  | _ => True

/-- Alike connections, both or none with a pending connect. -/
structure ConnState.Alike (s s' : ConnState) : Prop where
  conn : s.conn.Alike s'.conn
  connecting : s.hist.connecting = s'.hist.connecting

/-- A connection is like itself. -/
theorem ConnState.Alike.refl (s : ConnState) : s.Alike s := ⟨.refl s.conn, rfl⟩

/-- Alike connections have the same operations pending. -/
theorem ConnState.Alike.phase {s s' : ConnState} (h : s.Alike s') : s.phase = s'.phase := by
  ext
  · simp only [ConnState.phase, ne_eq, h.conn.readType]
  · simp only [ConnState.phase, h.conn.writeType]
  · exact h.connecting

/-- `read_normal` with the history. -/
theorem ConnState.readNormal_eq (s : ConnState) (timedOut : Bool) (al : Allocs)
    (rs : List ReadRes) :
    match s.conn.readNormal timedOut al rs with
    | none => s.readNormal timedOut al rs = none
    | some (c, out) => ∃ hist : History, hist.connecting = s.hist.connecting ∧
        s.readNormal timedOut al rs = some (⟨c, hist⟩, out) := by
  unfold ConnState.readNormal
  cases s.conn.readNormal timedOut al rs with
  | none => rfl
  | some res =>
      obtain ⟨c, out⟩ := res
      dsimp only
      split
      · refine ⟨_, ?_, rfl⟩
        rfl
      · refine ⟨_, ?_, rfl⟩
        rfl

/-- The result of an event for two connections that are alike. -/
def SameStep (p q : ConnState × Outcome) : Prop := p.1.Alike q.1 ∧ p.2 = q.2

/-- `read_normal` on two connections that are alike. -/
theorem ConnState.Alike.readNormal {s s' : ConnState} (h : s.Alike s') (timedOut : Bool)
    {al : Allocs} {rs : List ReadRes}
    (hreads : SameReads al.read s.conn.readBuffer s'.conn.readBuffer rs)
    (happend : ∀ src, SameAppend s.conn.buffer s'.conn.buffer src al.append) :
    Option.Rel SameStep (s.readNormal timedOut al rs) (s'.readNormal timedOut al rs) := by
  have hconn := h.conn.readNormal timedOut hreads happend
  have heq := s.readNormal_eq timedOut al rs
  have heq' := s'.readNormal_eq timedOut al rs
  rcases rel_cases hconn with ⟨hres, hres'⟩ | ⟨p, q, hres, hres', hsame⟩
  · rw [hres] at heq
    rw [hres'] at heq'
    dsimp only at heq heq'
    rw [heq, heq']
    exact .none
  · rw [hres] at heq
    rw [hres'] at heq'
    obtain ⟨hist, hkept, heq⟩ := heq
    obtain ⟨hist', hkept', heq'⟩ := heq'
    rw [heq, heq']
    exact .some ⟨⟨hsame.1, (hkept.trans h.connecting).trans hkept'.symm⟩, hsame.2⟩

/-- `write_normal` on two connections that are alike. -/
theorem ConnState.Alike.writeNormal {s s' : ConnState} (h : s.Alike s') (timedOut : Bool)
    (w : WriteRes) : SameStep (s.writeNormal timedOut w) (s'.writeNormal timedOut w) := by
  obtain ⟨halike, hout⟩ := h.conn.writeNormal timedOut w
  have hkeeps : ∀ x : ConnState,
      (x.writeNormal timedOut w).1.hist.connecting = x.hist.connecting := by
    intro x
    unfold ConnState.writeNormal
    dsimp only
    split <;> rfl
  refine ⟨⟨halike, ?_⟩, hout⟩
  rw [hkeeps, hkeeps, h.connecting]

/-- `connect_normal` on two connections that are alike. -/
theorem ConnState.Alike.connectNormal {s s' : ConnState} (h : s.Alike s')
    (timedOut soError : Bool) :
    (s.connectNormal timedOut soError).Alike (s'.connectNormal timedOut soError) :=
  ⟨h.conn.connectNormal timedOut soError, rfl⟩

/-- **Step lemma.**  The same event does the same to two connections that are alike. -/
theorem ConnState.Alike.step {s s' : ConnState} (h : s.Alike s') {ev : ConnEvent}
    (hsuits : ev.Suits s.conn s'.conn) :
    Option.Rel SameStep (connStep s ev) (connStep s' ev) := by
  cases ev with
  | issue req al r =>
      obtain ⟨hread, happend⟩ := hsuits
      obtain ⟨hconn, _, _, hconnecting⟩ := s.issue_conn req al r
      obtain ⟨hconn', _, _, hconnecting'⟩ := s'.issue_conn req al r
      obtain ⟨halike, hout⟩ := h.conn.issue req hread happend
      rw [← hconn, ← hconn'] at halike hout
      rw [connStep, connStep, h.conn.readType]
      split
      · exact .some ⟨⟨halike, (hconnecting.trans h.connecting).trans hconnecting'.symm⟩, hout⟩
      · exact .none
  | readNormal timedOut al rs =>
      rw [connStep, connStep, h.conn.readType, h.connecting]
      split
      · exact h.readNormal timedOut hsuits.1 hsuits.2
      · exact .none
  | write bs al =>
      have hkeeps : ∀ x : ConnState, (x.write bs al).hist.connecting = x.hist.connecting := by
        intro x
        unfold ConnState.write
        dsimp only
        split <;> rfl
      refine .some ⟨⟨h.conn.write hsuits, ?_⟩, rfl⟩
      rw [hkeeps, hkeeps, h.connecting]
  | flush w =>
      obtain ⟨halike, hout⟩ := h.conn.flush w
      have hkeeps : ∀ x : ConnState, (x.flush w).1.hist.connecting = x.hist.connecting := by
        intro x
        unfold ConnState.flush
        dsimp only
        split <;> rfl
      rw [connStep, connStep, h.conn.writeType]
      split
      · refine .some ⟨⟨halike, ?_⟩, hout⟩
        rw [hkeeps, hkeeps, h.connecting]
      · exact .none
  | writeNormal timedOut w =>
      rw [connStep, connStep, h.conn.writeType, h.connecting]
      split
      · exact .some (h.writeNormal timedOut w)
      · exact .none
  | connect res =>
      obtain ⟨halike, hout⟩ := h.conn.connect res
      rw [connStep, connStep, h.conn.readType, h.conn.writeType]
      split
      · refine .some ⟨⟨halike, ?_⟩, hout⟩
        unfold ConnState.connect
        dsimp only
        rw [hout]
      · exact .none
  | connectNormal timedOut soError =>
      rw [connStep, connStep, h.connecting]
      split
      · exact .some ⟨h.connectNormal timedOut soError, rfl⟩
      · exact .none
  | setTimeout r w =>
      exact .some ⟨⟨⟨h.conn.reader, congrArg (fun v : OffRead =>
        { v with readExpireTime := r, writeExpireTime := w }) h.conn.offRead⟩, h.connecting⟩, rfl⟩
  | useBuffer b =>
      exact .some ⟨⟨⟨congrArg (fun v : Reader => { v with buffer := b.bytes }) h.conn.reader,
        h.conn.offRead⟩, h.connecting⟩, rfl⟩

/-- No event changes `_fd`. -/
theorem connNext_fd {s s' : ConnState} {ev : ConnEvent} (h : connNext s ev = some s') :
    s'.conn.fd = s.conn.fd := by
  obtain ⟨⟨_, out⟩, hstep, rfl⟩ := Option.map_eq_some_iff.mp h
  have hwrote : ∀ (c : Conn) (w : WriteRes), (c.wrote w).1.fd = c.fd := by
    intro c w
    cases w with
    | wrote n => rfl
    | err e => cases e <;> rfl
  cases ev with
  | issue req al r =>
      obtain ⟨_, hissue⟩ := Option.ite_none_right_eq_some.mp hstep
      obtain ⟨hconn, _⟩ := s.issue_conn req al r
      rw [Option.some.inj hissue] at hconn
      have hfd := (issue_reads s.conn req al r).fd
      rw [← hconn] at hfd
      exact hfd
  | readNormal timedOut al rs =>
      obtain ⟨_, hread⟩ := Option.ite_none_right_eq_some.mp hstep
      obtain ⟨hconn, _⟩ := ConnState.readNormal_conn hread
      exact (readNormal_only hconn).1.fd
  | write bs al =>
      obtain ⟨rfl, _⟩ := Prod.mk.inj (Option.some.inj hstep)
      change (s.conn.write bs al).1.fd = s.conn.fd
      unfold Conn.write
      split <;> rfl
  | flush w =>
      obtain ⟨_, ⟨⟩⟩ := Option.ite_none_right_eq_some.mp hstep
      change (s.conn.flush w).1.fd = s.conn.fd
      unfold Conn.flush
      split
      · rfl
      · dsimp only
        split <;> exact hwrote s.conn w
  | writeNormal timedOut w =>
      obtain ⟨_, ⟨⟩⟩ := Option.ite_none_right_eq_some.mp hstep
      change (s.conn.writeNormal timedOut w).1.fd = s.conn.fd
      unfold Conn.writeNormal
      split
      · rfl
      · dsimp only
        split <;> exact hwrote s.conn w
  | connect res =>
      obtain ⟨_, ⟨⟩⟩ := Option.ite_none_right_eq_some.mp hstep
      cases res <;> rfl
  | connectNormal timedOut soError =>
      obtain ⟨_, ⟨⟩⟩ := Option.ite_none_right_eq_some.mp hstep
      change (s.conn.connectNormal timedOut soError).fd = s.conn.fd
      unfold Conn.connectNormal
      dsimp only
      split <;> rfl
  | setTimeout r w =>
      obtain ⟨rfl, _⟩ := Prod.mk.inj (Option.some.inj hstep)
      rfl
  | useBuffer b =>
      obtain ⟨rfl, _⟩ := Prod.mk.inj (Option.some.inj hstep)
      rfl

/-- `_fd` after `spe_conn_create`. -/
theorem create_fd (c : Conn) (fd : Nat) :
    (c.create fd).fd = if c.fd = 0 then fd else c.fd := by
  unfold Conn.create
  by_cases hzero : c.fd = 0
  · simp [hzero, Conn.connInitialize]
  · simp only [if_neg hzero]

/-- `spe_conn_create` makes alike connections of two slots with the same timeout
flags. -/
theorem created_alike {c d : Conn} {fd : Nat} (hfd : (c.create fd).fd = (d.create fd).fd)
    (hflags : ∀ k : OpKind, k.flag c = k.flag d) :
    (ConnState.created c fd).Alike (.created d fd) := by
  have hreader : ∀ x : Conn, (x.create fd).reader =
      { buffer := [], readBuffer := [], closed := false, error := false, request := none } := by
    intro x
    simp [Conn.create, Conn.reader, Conn.request]
  have hflag : ∀ (x : Conn) (k : OpKind), k.flag (x.create fd) = k.flag x := by
    intro x k
    unfold Conn.create
    by_cases hzero : x.fd = 0
    · cases k <;> simp [hzero, Conn.connInitialize, OpKind.flag]
    · cases k <;> simp [hzero, OpKind.flag]
  have hoff : ∀ x : Conn, (x.create fd).offRead =
      { fd := (x.create fd).fd, readExpireTime := 0, writeExpireTime := 0, writing := [],
        writeType := .writeNone, connectTimeout := OpKind.flag .connect x,
        readTimeout := OpKind.flag .read x, writeTimeout := OpKind.flag .flush x } := by
    intro x
    rw [← hflag x .connect, ← hflag x .read, ← hflag x .flush]
    unfold Conn.offRead
    rw [(x.create_bytes fd).2.2]
    rfl
  refine ⟨⟨(hreader c).trans (hreader d).symm, ?_⟩, rfl⟩
  change (c.create fd).offRead = (d.create fd).offRead
  rw [hoff c, hoff d, hfd, hflags, hflags, hflags]

end Spe
