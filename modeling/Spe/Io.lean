import Spe.ConnCompletion
import Spe.Transition

/-!
# Blocking readers (`spe_io.c`)

`spe_io_t` reads from a descriptor into `_rbuf` and hands what a call asks for over to
the buffer of the caller.  One loop serves the three kinds of requests: it looks for
the frame in `_rbuf`, which may have been read for an earlier call of another kind,
and reads more when it is not there.

A descriptor is its contents and a position.  How `read` cuts the contents, where it
is interrupted or fails, and which allocations succeed are parameters.
-/

namespace Spe

open Transition

/-- `BUF_LEN`. -/
def BUF_LEN : Nat := 4096

/-- `SPE_IO_CLOSED` and `SPE_IO_ERROR`. -/
def SPE_IO_CLOSED : Int := 0

def SPE_IO_ERROR : Int := -1

/-- `SPE_IO_READNONE`, `SPE_IO_READ`, `SPE_IO_READBYTES`, `SPE_IO_READUNTIL`. -/
inductive IoReadType
  | readNone
  | read
  | readBytes
  | readUntil
  deriving DecidableEq

/-- `spe_io_t` without its descriptor. -/
structure Io where
  rbuf : ByteBuf
  delim : CStr
  rbytes : Nat
  rtype : IoReadType
  closed : Bool
  error : Bool

/-- An open file: what it contains and how much of it has been read. -/
structure Descriptor where
  content : Bytes
  pos : Nat
  deriving DecidableEq

/-- What has not been read yet. -/
def Descriptor.rest (fd : Descriptor) : Bytes := fd.content.drop fd.pos

/-- The position after a read of `n` bytes. -/
def Descriptor.advance (fd : Descriptor) (n : Nat) : Descriptor := { fd with pos := fd.pos + n }

/-- How `read` goes: it delivers at most `n + 1` bytes, or it fails. -/
inductive Cut
  | deliver (n : Nat)
  | fail (e : Errno)
  deriving DecidableEq

/-- What `read` answers at the position of the descriptor. -/
def Cut.answer (cut : Cut) (fd : Descriptor) : ReadRes :=
  match cut with
  | .deliver n => if fd.rest = [] then .eof else .data (fd.rest.take (n + 1))
  | .fail e => .err e

/-- The result of a read as an `int`; `SPE_BUF_ERROR` is -2. -/
def ReadRet.value : ReadRet → Int
  | .got n => n
  | .zero => 0
  | .fail _ => -1
  | .bufError => -2

/-- What a call leaves behind: the reader, the buffer of the caller, the descriptor, and
the result. -/
structure IoResult where
  io : Io
  buf : ByteBuf
  fd : Descriptor
  ret : Int

namespace Io

variable (io : Io)

/-- The checks at the head of the loop of `read_common`; the number is the result. -/
def checkType (buf : ByteBuf) (al : Alloc) : Option (Io × ByteBuf × Nat) :=
  match io.rtype with
  | .read =>
      if 0 < io.rbuf.buf.len then
        some ({ io with rbuf := io.rbuf.clean, rtype := .readNone },
          (buf.append io.rbuf.bytes al).1, io.rbuf.buf.len)
      else none
  | .readBytes =>
      if io.rbytes ≤ io.rbuf.buf.len then
        some ({ io with rbuf := io.rbuf.lconsume io.rbytes, rtype := .readNone },
          (buf.append (io.rbuf.bytes.take io.rbytes) al).1, io.rbytes)
      else none
  | .readUntil =>
      match io.rbuf.search io.delim.1 with
      | some pos =>
          let len := pos + io.delim.1.length
          some ({ io with rbuf := io.rbuf.lconsume len, rtype := .readNone },
            (buf.append (io.rbuf.bytes.take len) al).1, len)
      | none => none
  | .readNone => none

/-- The end of `read_common` after the loop: all of `_rbuf` is handed over. -/
def copyRest (buf : ByteBuf) (al : Alloc) (fd : Descriptor) (ret : Int) : IoResult where
  io := { io with rbuf := io.rbuf.clean, rtype := .readNone }
  buf := (buf.append io.rbuf.bytes al).1
  fd := fd
  ret := ret

/-- `read_common`, run on the ways that `read` goes and on its allocations.  `none` is a
loop that is still reading. -/
def readCommon (io : Io) (buf : ByteBuf) (al : Alloc) (fd : Descriptor) (cuts : List (Cut × Alloc)) :
    Option IoResult :=
  match io.checkType buf al with
  | some (io, buf, len) => some ⟨io, buf, fd, len⟩
  | none =>
      match cuts with
      | [] => none
      | (cut, fresh) :: cuts =>
          let res := io.rbuf.readFdAppend BUF_LEN fresh (cut.answer fd)
          let io : Io := { io with rbuf := res.1 }
          match res.2 with
          | .got n => readCommon io buf al (fd.advance n) cuts
          | .fail .eintr => readCommon io buf al fd cuts
          | .zero => some (({ io with closed := true } : Io).copyRest buf al fd 0)
          | ret => some (({ io with error := true } : Io).copyRest buf al fd ret.value)

/-- The part that the three calls share: a reader that is closed or has failed reads no
more. -/
def guarded (io' : Io) (buf : ByteBuf) (al : Alloc) (fd : Descriptor)
    (cuts : List (Cut × Alloc)) : Option IoResult :=
  if io.closed then some ⟨io, buf, fd, SPE_IO_CLOSED⟩
  else if io.error then some ⟨io, buf, fd, SPE_IO_ERROR⟩
  else io'.readCommon buf al fd cuts

/-- `spe_io_read`. -/
def read (buf : ByteBuf) (al : Alloc) (fd : Descriptor) (cuts : List (Cut × Alloc)) :
    Option IoResult :=
  io.guarded { io with rtype := .read } buf al fd cuts

/-- `spe_io_readbytes`. -/
def readbytes (len : Nat) (buf : ByteBuf) (al : Alloc) (fd : Descriptor)
    (cuts : List (Cut × Alloc)) : Option IoResult :=
  if len = 0 then none
  else io.guarded { io with rtype := .readBytes, rbytes := len } buf al fd cuts

/-- `spe_io_readuntil`; a NULL `delim` is `none`. -/
def readuntil (delim : Option CStr) (buf : ByteBuf) (al : Alloc) (fd : Descriptor)
    (cuts : List (Cut × Alloc)) : Option IoResult :=
  match delim with
  | none => none
  | some delim => io.guarded { io with rtype := .readUntil, delim := delim } buf al fd cuts

theorem nul_not_mem_nil : (0 : UInt8) ∉ ([] : Bytes) := List.not_mem_nil

/-- `spe_io_create_fd`. -/
def create : Io where
  rbuf := .create
  delim := ⟨[], nul_not_mem_nil⟩
  rbytes := 0
  rtype := .readNone
  closed := false
  error := false

/-- The request that the loop is working on. -/
def request : Option Request :=
  match io.rtype with
  | .readNone => none
  | .read => some .read
  | .readBytes => some (.readbytes io.rbytes)
  | .readUntil => some (.readUntil (some io.delim))

end Io

/-- The kernel interrupts reads, and does not make them fail; the allocations succeed. -/
def CutsGood (cuts : List (Cut × Alloc)) : Prop :=
  ∀ c ∈ cuts, c.2.isSome ∧ ∀ e, c.1 = .fail e → e = .eintr

/-- The reads that deliver bytes or the end of file. -/
def deliveries (cuts : List (Cut × Alloc)) : Nat :=
  cuts.countP fun c => c.1 matches .deliver _

/-- The checks at the head of the loop look for the frame of the request. -/
theorem Io.checkType_spec {io : Io} {req : Request} (buf : ByteBuf) {al : Alloc}
    (hreq : io.request = some req) (hal : al.isSome) :
    match codeFrame req io.rbuf.bytes with
    | none => io.checkType buf al = none
    | some n => ∃ io' buf', io.checkType buf al = some (io', buf', n) ∧
        io'.rbuf.bytes = io.rbuf.bytes.drop n ∧ buf'.bytes = buf.bytes ++ io.rbuf.bytes.take n ∧
        io'.closed = io.closed ∧ io'.error = io.error := by
  unfold Io.request at hreq
  unfold Io.checkType
  cases htype : io.rtype with
  | readNone => simp [htype] at hreq
  | read =>
      obtain rfl : .read = req := by simpa [htype] using hreq
      unfold codeFrame
      by_cases hnil : io.rbuf.bytes = []
      · simp [hnil, ByteBuf.len_eq]
      · have hpos : 0 < io.rbuf.bytes.length := List.length_pos_iff.mpr hnil
        simp only [if_neg hnil, ByteBuf.len_eq, if_pos hpos]
        exact ⟨_, _, rfl, by simp, by simp [hal], rfl, rfl⟩
  | readBytes =>
      obtain rfl : .readbytes io.rbytes = req := by simpa [htype] using hreq
      unfold codeFrame
      rw [ByteBuf.len_eq]
      by_cases hle : io.rbytes ≤ io.rbuf.bytes.length
      · simp only [if_pos hle]
        exact ⟨_, _, rfl, by simp, by simp [hal], rfl, rfl⟩
      · simp only [if_neg hle]
  | readUntil =>
      obtain rfl : .readUntil (some io.delim) = req := by simpa [htype] using hreq
      unfold codeFrame
      rw [ByteBuf.search_eq]
      by_cases hnil : io.rbuf.bytes = []
      · simp only [if_pos hnil]
      · simp only [if_neg hnil]
        cases hfind : Search.find io.delim.1 (cstr io.rbuf.bytes) with
        | none => rfl
        | some pos => exact ⟨_, _, rfl, by simp, by simp [hal], rfl, rfl⟩

/-- A frame that asks for something is not empty. -/
theorem codeFrame_pos {req : Request} {p : Bytes} {n : Nat} (hne : req.Nonempty)
    (h : codeFrame req p = some n) : 0 < n := by
  cases req with
  | readUntil delim =>
      obtain ⟨d, rfl, hd⟩ := hne
      obtain ⟨_, h⟩ := Option.ite_none_left_eq_some.mp h
      obtain ⟨i, _, rfl⟩ := Option.map_eq_some_iff.mp h
      have hpos := List.length_pos_iff.mpr hd
      omega
  | readbytes len =>
      obtain ⟨_, h⟩ := Option.ite_none_right_eq_some.mp h
      obtain rfl := Option.some.inj h
      exact hne
  | read =>
      obtain ⟨hnil, h⟩ := Option.ite_none_left_eq_some.mp h
      obtain rfl := Option.some.inj h
      exact List.length_pos_iff.mpr hnil

/-- How far a call has come: the descriptor has moved on by `got`, the buffer of the
caller by `added`, and what has been read and not been handed over is in `_rbuf`. -/
structure Io.Moved (io : Io) (buf : ByteBuf) (fd : Descriptor) (r : IoResult) (got added : Bytes) :
    Prop where
  content : r.fd.content = fd.content
  taken : r.fd.content.take r.fd.pos = fd.content.take fd.pos ++ got
  rest : fd.rest = got ++ r.fd.rest
  appended : r.buf.bytes = buf.bytes ++ added
  kept : io.rbuf.bytes ++ got = added ++ r.io.rbuf.bytes

/-- What a call that has returned has done with the request: its frame was there, or the
file is at its end and everything has been handed over. -/
def Io.Ended (io : Io) (req : Request) (r : IoResult) (got added : Bytes) : Prop :=
  match codeFrame req (io.rbuf.bytes ++ got) with
  | some n => r.ret = n ∧ added.length = n ∧ r.io.closed = io.closed
  | none => r.ret = 0 ∧ r.fd.rest = [] ∧ r.io.rbuf.bytes = [] ∧ r.io.closed = true

/-- A descriptor that moves on by the first bytes of its rest. -/
theorem Descriptor.advance_spec {fd : Descriptor} {got : Bytes} (h : got <+: fd.rest) :
    fd.rest = got ++ (fd.advance got.length).rest ∧
    (fd.advance got.length).content.take (fd.advance got.length).pos =
      fd.content.take fd.pos ++ got := by
  obtain ⟨later, hlater⟩ := h
  have hrest : (fd.advance got.length).rest = later := by
    unfold Descriptor.rest Descriptor.advance at *
    dsimp only
    rw [← List.drop_drop, ← hlater, List.drop_left]
  constructor
  · rw [hrest, hlater]
  · unfold Descriptor.rest Descriptor.advance at *
    dsimp only
    rw [List.take_add, ← hlater, List.take_left]

/-- What the descriptor answers when it delivers: the first bytes of its rest, at least
one of them. -/
theorem Cut.answer_deliver (n : Nat) {fd : Descriptor} {room : Nat} (hroom : 0 < room)
    (hrest : fd.rest ≠ []) :
    ∃ got, ((Cut.deliver n).answer fd).ret room = .got got.length ∧
      ((Cut.deliver n).answer fd).bytes room = got ∧ got <+: fd.rest ∧ 0 < got.length := by
  have hanswer : (Cut.deliver n).answer fd = .data (fd.rest.take (n + 1)) := if_neg hrest
  have hfull : 0 < fd.rest.length := List.length_pos_iff.mpr hrest
  have hpos : 0 < ((fd.rest.take (n + 1)).take room).length := by
    simp only [List.length_take]
    omega
  refine ⟨(fd.rest.take (n + 1)).take room, ?_, by rw [hanswer]; rfl,
    (List.take_prefix _ _).trans (List.take_prefix _ _), hpos⟩
  rw [hanswer]
  exact if_neg (Nat.ne_of_gt hpos)

/-- What one `read` of the loop does: it is interrupted, it delivers bytes, or the file
is at its end. -/
theorem read_cut (b : ByteBuf) {cut : Cut} {fresh : Alloc} (fd : Descriptor)
    (hfresh : fresh.isSome) (hcut : ∀ e, cut = .fail e → e = .eintr) :
    ((b.readFdAppend BUF_LEN fresh (cut.answer fd)).2 = .fail .eintr ∧
      (b.readFdAppend BUF_LEN fresh (cut.answer fd)).1.bytes = b.bytes ∧
      ∀ n, cut ≠ .deliver n) ∨
    (∃ got, (b.readFdAppend BUF_LEN fresh (cut.answer fd)).2 = .got got.length ∧
      (b.readFdAppend BUF_LEN fresh (cut.answer fd)).1.bytes = b.bytes ++ got ∧
      got <+: fd.rest ∧ 0 < got.length) ∨
    ((b.readFdAppend BUF_LEN fresh (cut.answer fd)).2 = .zero ∧
      (b.readFdAppend BUF_LEN fresh (cut.answer fd)).1.bytes = b.bytes ∧ fd.rest = []) := by
  obtain ⟨room, hroom, hret, hbytes⟩ := b.bytes_readFdAppend BUF_LEN (cut.answer fd) hfresh
  rw [hret, hbytes]
  cases cut with
  | fail e =>
      obtain rfl := hcut e rfl
      exact Or.inl ⟨rfl, List.append_nil _, by simp⟩
  | deliver n =>
      right
      by_cases hend : fd.rest = []
      · right
        have hanswer : (Cut.deliver n).answer fd = .eof := if_pos hend
        rw [hanswer]
        exact ⟨rfl, List.append_nil _, hend⟩
      · left
        have hpos : 0 < room := by unfold BUF_LEN at hroom; omega
        obtain ⟨got, hgot, hdata, hpre, hlen⟩ := Cut.answer_deliver n hpos hend
        exact ⟨got, hgot, by rw [hdata], hpre, hlen⟩

/-- A reader that has read `got` more, working on the same request. -/
structure Io.Grown (io io' : Io) (got : Bytes) : Prop where
  request : io'.request = io.request
  rbuf : io'.rbuf.bytes = io.rbuf.bytes ++ got
  closed : io'.closed = io.closed
  error : io'.error = io.error

/-- One turn of the loop when the frame is not there. -/
theorem Io.readCommon_cons {io : Io} {req : Request} (buf : ByteBuf) {al fresh : Alloc}
    {fd : Descriptor} {cut : Cut} (cuts : List (Cut × Alloc)) (hreq : io.request = some req)
    (hal : al.isSome) (hnone : codeFrame req io.rbuf.bytes = none) (hfresh : fresh.isSome)
    (hcut : ∀ e, cut = .fail e → e = .eintr) :
    (∃ io', io.readCommon buf al fd ((cut, fresh) :: cuts) = io'.readCommon buf al fd cuts ∧
      io.Grown io' [] ∧ ∀ n, cut ≠ .deliver n) ∨
    (∃ io' got, io.readCommon buf al fd ((cut, fresh) :: cuts) =
        io'.readCommon buf al (fd.advance got.length) cuts ∧
      io.Grown io' got ∧ got <+: fd.rest ∧ 0 < got.length) ∨
    (∃ io', io.readCommon buf al fd ((cut, fresh) :: cuts) =
        some (({ io' with closed := true } : Io).copyRest buf al fd 0) ∧
      io.Grown io' [] ∧ fd.rest = []) := by
  have hcheck := Io.checkType_spec buf hreq hal
  rw [hnone] at hcheck
  rw [Io.readCommon, hcheck]
  dsimp only
  have hkeep : ∀ (b : ByteBuf) (got : Bytes), b.bytes = io.rbuf.bytes ++ got →
      io.Grown { io with rbuf := b } got := fun b got hb => ⟨rfl, hb, rfl, rfl⟩
  rcases read_cut io.rbuf fd hfresh hcut with ⟨hret, hbytes, hno⟩ | ⟨got, hret, hbytes, hpre, hpos⟩
    | ⟨hret, hbytes, hend⟩
  · rw [hret]
    exact Or.inl ⟨_, rfl, hkeep _ [] (by rw [hbytes, List.append_nil]), hno⟩
  · rw [hret]
    exact Or.inr (Or.inl ⟨_, got, rfl, hkeep _ got hbytes, hpre, hpos⟩)
  · rw [hret]
    exact Or.inr (Or.inr ⟨_, rfl, hkeep _ [] (by rw [hbytes, List.append_nil]), hend⟩)

/-- What a later point of the loop has done, seen from an earlier one. -/
theorem Io.Moved.before {io io' : Io} {buf : ByteBuf} {fd : Descriptor} {r : IoResult}
    {first got added : Bytes} (hgrown : io.Grown io' first) (hpre : first <+: fd.rest)
    (h : io'.Moved buf (fd.advance first.length) r got added) :
    io.Moved buf fd r (first ++ got) added := by
  obtain ⟨hrest, htaken⟩ := Descriptor.advance_spec hpre
  constructor
  · exact h.content
  · rw [h.taken, htaken, List.append_assoc]
  · rw [hrest, h.rest, List.append_assoc]
  · exact h.appended
  · rw [← h.kept, hgrown.rbuf, List.append_assoc]

theorem Io.Ended.before {io io' : Io} {req : Request} {r : IoResult} {first got added : Bytes}
    (hgrown : io.Grown io' first) (h : io'.Ended req r got added) :
    io.Ended req r (first ++ got) added := by
  unfold Io.Ended at *
  rw [hgrown.rbuf, List.append_assoc, hgrown.closed] at h
  exact h

/-- A frame that is already in `_rbuf` is handed over without a read. -/
theorem Io.readCommon_frame {io : Io} {req : Request} {buf : ByteBuf} {al : Alloc}
    (fd : Descriptor) (cuts : List (Cut × Alloc)) {n : Nat} (hreq : io.request = some req)
    (hal : al.isSome) (hframe : codeFrame req io.rbuf.bytes = some n) :
    ∃ r, io.readCommon buf al fd cuts = some r ∧
      io.Moved buf fd r [] (io.rbuf.bytes.take n) ∧
      io.Ended req r [] (io.rbuf.bytes.take n) ∧ r.io.error = io.error := by
  have hcheck := Io.checkType_spec buf hreq hal
  rw [hframe] at hcheck
  obtain ⟨io', buf', hsome, hrbuf, hbuf, hclosed, herror⟩ := hcheck
  have hreturn : io.readCommon buf al fd cuts = some ⟨io', buf', fd, n⟩ := by
    cases cuts with
    | nil => rw [Io.readCommon, hsome]
    | cons c cuts => rw [Io.readCommon, hsome]
  refine ⟨_, hreturn, ⟨rfl, (List.append_nil _).symm, rfl, hbuf, ?_⟩, ?_, herror⟩
  · rw [hrbuf, List.append_nil, List.take_append_drop]
  · unfold Io.Ended
    rw [List.append_nil, hframe]
    exact ⟨rfl, List.length_take_of_le (codeFrame_bound hframe), hclosed⟩

/-- Without a frame and without a read, the loop goes on. -/
theorem Io.readCommon_nil {io : Io} {req : Request} {buf : ByteBuf} {al : Alloc}
    {fd : Descriptor} (hreq : io.request = some req) (hal : al.isSome)
    (hnone : codeFrame req io.rbuf.bytes = none) : io.readCommon buf al fd [] = none := by
  have hcheck := Io.checkType_spec buf hreq hal
  rw [hnone] at hcheck
  rw [Io.readCommon, hcheck]

/-- At the end of the file everything is handed over. -/
theorem Io.copyRest_spec {io io' : Io} {req : Request} {buf : ByteBuf} {al : Alloc}
    {fd : Descriptor} (hal : al.isSome) (hnone : codeFrame req io.rbuf.bytes = none)
    (hgrown : io.Grown io' []) (hend : fd.rest = []) :
    io.Moved buf fd (({ io' with closed := true } : Io).copyRest buf al fd 0) []
        io.rbuf.bytes ∧
      io.Ended req (({ io' with closed := true } : Io).copyRest buf al fd 0) []
        io.rbuf.bytes := by
  have hrbuf : io'.rbuf.bytes = io.rbuf.bytes := by rw [hgrown.rbuf, List.append_nil]
  constructor
  · refine ⟨rfl, (List.append_nil _).symm, rfl, ?_, ?_⟩
    · simp [Io.copyRest, hal, hrbuf]
    · simp [Io.copyRest]
  · unfold Io.Ended
    rw [List.append_nil, hnone]
    exact ⟨rfl, hend, ByteBuf.bytes_clean _, rfl⟩

/-- A loop that returns has found the frame of the request or the end of the file. -/
theorem Io.readCommon_spec {io : Io} {req : Request} {buf : ByteBuf} {al : Alloc}
    {fd : Descriptor} {cuts : List (Cut × Alloc)} {r : IoResult} (hreq : io.request = some req)
    (hal : al.isSome) (hcuts : CutsGood cuts) (h : io.readCommon buf al fd cuts = some r) :
    ∃ got added, io.Moved buf fd r got added ∧ io.Ended req r got added ∧
      r.io.error = io.error := by
  induction cuts generalizing io fd with
  | nil =>
      cases hframe : codeFrame req io.rbuf.bytes with
      | some n =>
          obtain ⟨r', hr', hspec⟩ := Io.readCommon_frame fd [] hreq hal hframe
          obtain rfl := Option.some.inj (h.symm.trans hr')
          exact ⟨_, _, hspec⟩
      | none =>
          rw [Io.readCommon_nil hreq hal hframe] at h
          cases h
  | cons c cuts ih =>
      obtain ⟨cut, fresh⟩ := c
      obtain ⟨hfresh, hcut⟩ := hcuts _ List.mem_cons_self
      have hlater : CutsGood cuts := fun c hc => hcuts c (List.mem_cons_of_mem _ hc)
      cases hframe : codeFrame req io.rbuf.bytes with
      | some n =>
          obtain ⟨r', hr', hspec⟩ := Io.readCommon_frame fd ((cut, fresh) :: cuts) hreq hal hframe
          obtain rfl := Option.some.inj (h.symm.trans hr')
          exact ⟨_, _, hspec⟩
      | none =>
          rcases Io.readCommon_cons buf cuts hreq hal hframe hfresh hcut with
            ⟨io', hturn, hgrown, _⟩ | ⟨io', first, hturn, hgrown, hpre, _⟩ |
            ⟨io', hturn, hgrown, hend⟩
          · obtain ⟨got, added, hmoved, hended, herror⟩ :=
              ih (hgrown.request.trans hreq) hlater (hturn.symm.trans h)
            refine ⟨got, added, ?_, ?_, herror.trans hgrown.error⟩
            · exact Io.Moved.before hgrown List.nil_prefix hmoved
            · exact Io.Ended.before hgrown hended
          · obtain ⟨got, added, hmoved, hended, herror⟩ :=
              ih (hgrown.request.trans hreq) hlater (hturn.symm.trans h)
            refine ⟨first ++ got, added, ?_, ?_, herror.trans hgrown.error⟩
            · exact Io.Moved.before hgrown hpre hmoved
            · exact Io.Ended.before hgrown hended
          · obtain rfl := Option.some.inj (hturn.symm.trans h)
            obtain ⟨hmoved, hended⟩ := Io.copyRest_spec hal hframe hgrown hend
            exact ⟨[], _, hmoved, hended, hgrown.error⟩

/-- The loop returns before `read` has delivered more often than there are bytes left. -/
theorem Io.readCommon_returns {io : Io} {req : Request} {buf : ByteBuf} {al : Alloc}
    {fd : Descriptor} {cuts : List (Cut × Alloc)} (hreq : io.request = some req)
    (hal : al.isSome) (hcuts : CutsGood cuts) (hmany : fd.rest.length < deliveries cuts) :
    (io.readCommon buf al fd cuts).isSome := by
  induction cuts generalizing io fd with
  | nil => simp [deliveries] at hmany
  | cons c cuts ih =>
      obtain ⟨cut, fresh⟩ := c
      obtain ⟨hfresh, hcut⟩ := hcuts _ List.mem_cons_self
      have hlater : CutsGood cuts := fun c hc => hcuts c (List.mem_cons_of_mem _ hc)
      have hcount : deliveries ((cut, fresh) :: cuts) ≤ deliveries cuts + 1 := by
        cases cut <;> simp [deliveries]
      cases hframe : codeFrame req io.rbuf.bytes with
      | some n =>
          obtain ⟨r', hr', _⟩ := Io.readCommon_frame fd ((cut, fresh) :: cuts) hreq hal hframe
          rw [hr']
          rfl
      | none =>
          rcases Io.readCommon_cons buf cuts hreq hal hframe hfresh hcut with
            ⟨io', hturn, hgrown, hno⟩ | ⟨io', first, hturn, hgrown, hpre, hpos⟩ |
            ⟨io', hturn, _, _⟩
          · rw [hturn]
            refine ih (hgrown.request.trans hreq) hlater ?_
            -- an interrupted read does not count
            cases cut with
            | deliver n => exact absurd rfl (hno n)
            | fail e => simpa [deliveries] using hmany
          · rw [hturn]
            refine ih (hgrown.request.trans hreq) hlater ?_
            have hrest := (Descriptor.advance_spec hpre).1
            have hlen := congrArg List.length hrest
            rw [List.length_append] at hlen
            omega
          · rw [hturn]
            rfl

/-- What the checks hand over is one append to the buffer of the caller. -/
theorem Io.checkType_appends {io io' : Io} {buf buf' : ByteBuf} {al : Alloc} {n : Nat}
    (h : io.checkType buf al = some (io', buf', n)) :
    ∃ src, buf' = (buf.append src al).1 := by
  unfold Io.checkType at h
  cases htype : io.rtype with
  | readNone => simp [htype] at h
  | read =>
      simp only [htype, Option.ite_none_right_eq_some, Option.some.injEq, Prod.mk.injEq] at h
      exact ⟨_, h.2.2.1.symm⟩
  | readBytes =>
      simp only [htype, Option.ite_none_right_eq_some, Option.some.injEq, Prod.mk.injEq] at h
      exact ⟨_, h.2.2.1.symm⟩
  | readUntil =>
      cases hpos : io.rbuf.search io.delim.1 with
      | none => simp [htype, hpos] at h
      | some pos =>
          simp only [htype, hpos, Option.some.injEq, Prod.mk.injEq] at h
          exact ⟨_, h.2.1.symm⟩

/-- A loop that returns has made one append to the buffer of the caller. -/
theorem Io.readCommon_appends {io : Io} {buf : ByteBuf} {al : Alloc} {fd : Descriptor}
    {cuts : List (Cut × Alloc)} {r : IoResult} (h : io.readCommon buf al fd cuts = some r) :
    ∃ src, r.buf = (buf.append src al).1 := by
  induction cuts generalizing io fd with
  | nil =>
      unfold Io.readCommon at h
      cases hcheck : io.checkType buf al with
      | some found =>
          rw [hcheck] at h
          obtain rfl := Option.some.inj h
          exact Io.checkType_appends hcheck
      | none => simp [hcheck] at h
  | cons c cuts ih =>
      unfold Io.readCommon at h
      cases hcheck : io.checkType buf al with
      | some found =>
          rw [hcheck] at h
          obtain rfl := Option.some.inj h
          exact Io.checkType_appends hcheck
      | none =>
          rw [hcheck] at h
          dsimp only at h
          split at h
          · exact ih h
          · exact ih h
          · obtain rfl := Option.some.inj h
            exact ⟨_, rfl⟩
          · obtain rfl := Option.some.inj h
            exact ⟨_, rfl⟩

/-- A call of one of the three functions on a reader. -/
structure IoCall where
  req : Request
  dest : ByteBuf
  al : Alloc
  cuts : List (Cut × Alloc)

/-- The function that serves a request. -/
def Io.call (io : Io) (fd : Descriptor) (c : IoCall) : Option IoResult :=
  match c.req with
  | .read => io.read c.dest c.al fd c.cuts
  | .readbytes len => io.readbytes len c.dest c.al fd c.cuts
  | .readUntil delim => io.readuntil delim c.dest c.al fd c.cuts

/-- A call that asks for something, with allocations that succeed and a file whose reads
may be interrupted. -/
structure IoCall.Good (c : IoCall) : Prop where
  nonempty : c.req.Nonempty
  al : c.al.isSome
  cuts : CutsGood c.cuts

/-- A reader on a file, and the bytes that its calls have appended. -/
structure IoRun where
  io : Io
  fd : Descriptor
  appended : Bytes

/-- A call in a run: what the buffer of the caller has got is added to `appended`. -/
def IoRun.step (s : IoRun) (c : IoCall) : Option IoRun :=
  (s.io.call s.fd c).map fun r =>
    { io := r.io, fd := r.fd, appended := s.appended ++ r.buf.bytes.drop c.dest.bytes.length }

/-- A fresh reader on a file that contains `source`. -/
def IoRun.start (source : Bytes) : IoRun := ⟨Io.create, ⟨source, 0⟩, []⟩

/-- The bytes that a call has left to hand over. -/
def IoRun.remaining (s : IoRun) : Bytes := s.io.rbuf.bytes ++ s.fd.rest

/-- The requests whose frames the code and the rule see alike: no NUL is in the way of
a delimiter. -/
def Request.Visible (req : Request) (p : Bytes) : Prop :=
  match req with
  | .readUntil _ => (0 : UInt8) ∉ p
  | _ => True

/-- What a result says about the bytes `p` that were remaining and those that were
appended.  A NUL can hide a frame, but it cannot make one up. -/
structure Lawful (req : Request) (p added : Bytes) (ret : Int) : Prop where
  nonneg : 0 ≤ ret
  first : added <+: p
  count : 0 < ret → ret = added.length
  bytes : 0 < ret → ∀ n, req = .readbytes n → ret = n
  frame : 0 < ret → ∀ delim, req = .readUntil delim → shortest req p = some added.length
  whole : ret = 0 → added = p
  none_left : ret = 0 → req.Visible p → shortest req p = none

/-- The frame of `readbytes`. -/
theorem codeFrame_readbytes {len n : Nat} {p : Bytes} (h : codeFrame (.readbytes len) p = some n) :
    n = len := by
  obtain ⟨_, h⟩ := Option.ite_none_right_eq_some.mp h
  exact (Option.some.inj h).symm

/-- Without NUL there is none in a frame. -/
theorem Request.Visible.clean {req : Request} {p : Bytes} (h : req.Visible p) :
    FrameClean req p := by
  cases req with
  | readUntil delim => exact fun k _ hmem => h (List.mem_of_mem_take hmem)
  | readbytes len => trivial
  | read => trivial

/-- A call that has returned is lawful. -/
theorem Io.Ended.lawful {io : Io} {req : Request} {buf : ByteBuf} {fd : Descriptor}
    {r : IoResult} {got added : Bytes} (hne : req.Nonempty) (hmoved : io.Moved buf fd r got added)
    (hended : io.Ended req r got added) :
    Lawful req (io.rbuf.bytes ++ fd.rest) added r.ret := by
  have hall : io.rbuf.bytes ++ fd.rest = added ++ (r.io.rbuf.bytes ++ r.fd.rest) := by
    rw [hmoved.rest, ← List.append_assoc, hmoved.kept, List.append_assoc]
  have hfirst : added <+: io.rbuf.bytes ++ fd.rest := ⟨_, hall.symm⟩
  unfold Io.Ended at hended
  cases hframe : codeFrame req (io.rbuf.bytes ++ got) with
  | some n =>
      rw [hframe] at hended
      obtain ⟨hret, hlen, _⟩ := hended
      have hpos := codeFrame_pos hne hframe
      have hnonzero : r.ret ≠ 0 := by omega
      refine ⟨by omega, hfirst, fun _ => by omega, ?_, ?_, fun h => absurd h hnonzero,
        fun h => absurd h hnonzero⟩
      · intro _ len hreq
        rw [hreq] at hframe
        rw [hret, codeFrame_readbytes hframe]
      · intro _ delim hreq
        have hlater := codeFrame_append (by rw [hreq]; simp) hframe r.fd.rest
        rw [List.append_assoc, ← hmoved.rest] at hlater
        rw [hlen]
        exact (shortest_of_codeFrame hne hlater).1
  | none =>
      rw [hframe] at hended
      obtain ⟨hret, hrest, hrbuf, _⟩ := hended
      have hnot : ¬ 0 < r.ret := by omega
      have hwhole : added = io.rbuf.bytes ++ fd.rest := by
        rw [hall, hrbuf, hrest, List.append_nil, List.append_nil]
      refine ⟨by omega, hfirst, fun h => absurd h hnot, fun h => absurd h hnot,
        fun h => absurd h hnot, fun _ => hwhole, ?_⟩
      intro _ hvisible
      rw [hmoved.rest, hrest, List.append_nil] at hvisible ⊢
      exact codeFrame_eq_none hne hframe hvisible.clean

/-- A closed reader answers end of file and changes nothing. -/
theorem Io.call_closed {io : Io} (fd : Descriptor) {c : IoCall} (hgood : c.Good)
    (hclosed : io.closed = true) : io.call fd c = some ⟨io, c.dest, fd, 0⟩ := by
  have hguard : ∀ io' : Io, io.guarded io' c.dest c.al fd c.cuts = some ⟨io, c.dest, fd, 0⟩ :=
    fun io' => if_pos hclosed
  have hne := hgood.nonempty
  unfold Io.call
  cases hreq : c.req with
  | readUntil delim =>
      rw [hreq] at hne
      obtain ⟨d, rfl, _⟩ := hne
      exact hguard _
  | readbytes len =>
      rw [hreq] at hne
      exact (if_neg (Nat.ne_of_gt hne)).trans (hguard _)
  | read => exact hguard _

/-- An open reader goes into the loop with the request of the call. -/
theorem Io.call_open {io : Io} (fd : Descriptor) {c : IoCall} (hgood : c.Good)
    (hclosed : io.closed = false) (herror : io.error = false) :
    ∃ io' : Io, io.call fd c = io'.readCommon c.dest c.al fd c.cuts ∧
      io'.request = some c.req ∧ io'.rbuf = io.rbuf ∧ io'.closed = false ∧ io'.error = false := by
  have hguard : ∀ io' : Io, io.guarded io' c.dest c.al fd c.cuts =
      io'.readCommon c.dest c.al fd c.cuts := by
    intro io'
    unfold Io.guarded
    rw [hclosed, herror]
    rfl
  have hne := hgood.nonempty
  unfold Io.call
  cases hreq : c.req with
  | readUntil delim =>
      rw [hreq] at hne
      obtain ⟨d, rfl, _⟩ := hne
      exact ⟨_, hguard _, rfl, rfl, hclosed, herror⟩
  | readbytes len =>
      rw [hreq] at hne
      exact ⟨_, (if_neg (Nat.ne_of_gt hne)).trans (hguard _), rfl, rfl, hclosed, herror⟩
  | read => exact ⟨_, hguard _, rfl, rfl, hclosed, herror⟩

/-- A reader whose calls have handed over a part of the source: what has been read and
not been handed over is in `_rbuf`, and nothing is left when it is closed. -/
structure IoRun.Inv (source : Bytes) (s : IoRun) : Prop where
  content : s.fd.content = source
  balance : s.appended ++ s.io.rbuf.bytes = source.take s.fd.pos
  error : s.io.error = false
  closed : s.io.closed = true → s.remaining = []

/-- A good call in such a state. -/
theorem IoRun.Inv.call {source : Bytes} {s : IoRun} {c : IoCall} {r : IoResult}
    (hinv : s.Inv source) (hgood : c.Good) (h : s.io.call s.fd c = some r) :
    ∃ added, r.buf.bytes = c.dest.bytes ++ added ∧ Lawful c.req s.remaining added r.ret ∧
      (r.ret = 0 ↔ r.io.closed = true) ∧
      IoRun.Inv source ⟨r.io, r.fd, s.appended ++ added⟩ := by
  cases hclosed : s.io.closed with
  | true =>
      obtain rfl := Option.some.inj ((Io.call_closed s.fd hgood hclosed).symm.trans h)
      have hnil := hinv.closed hclosed
      refine ⟨[], (List.append_nil _).symm, ?_, ⟨fun _ => hclosed, fun _ => rfl⟩, hinv.content, ?_,
        hinv.error, hinv.closed⟩
      · rw [hnil]
        exact ⟨Int.le_refl _, List.nil_prefix, nofun, nofun, nofun, fun _ => rfl,
          fun _ _ => shortest_nil hgood.nonempty⟩
      · rw [List.append_nil]
        exact hinv.balance
  | false =>
      obtain ⟨io', hcall, hreq, hrbuf, hopen, hok⟩ := Io.call_open s.fd hgood hclosed hinv.error
      obtain ⟨got, added, hmoved, hended, herror⟩ :=
        Io.readCommon_spec hreq hgood.al hgood.cuts (hcall.symm.trans h)
      have hlawful := hended.lawful hgood.nonempty hmoved
      rw [hrbuf] at hlawful
      have hdone : r.io.closed = true → r.io.rbuf.bytes ++ r.fd.rest = [] := by
        intro hc
        unfold Io.Ended at hended
        split at hended
        · rw [hended.2.2, hopen] at hc
          cases hc
        · rw [hended.2.1, hended.2.2.1, List.append_nil]
      refine ⟨added, hmoved.appended, hlawful, ?_, hmoved.content.trans hinv.content, ?_,
        herror.trans hok, hdone⟩
      · unfold Io.Ended at hended
        split at hended
        · rename_i n hframe
          have hpos := codeFrame_pos hgood.nonempty hframe
          have hstill := hended.2.2.trans hopen
          exact ⟨fun hret => by omega, fun hc => by simp [hstill] at hc⟩
        · exact ⟨fun _ => hended.2.2.2, fun _ => hended.1⟩
      · have hkept := hmoved.kept
        rw [hrbuf] at hkept
        have htaken := hmoved.taken
        rw [hmoved.content, hinv.content] at htaken
        calc s.appended ++ added ++ r.io.rbuf.bytes
            = s.appended ++ (s.io.rbuf.bytes ++ got) := by rw [List.append_assoc, ← hkept]
          _ = source.take s.fd.pos ++ got := by rw [← List.append_assoc, hinv.balance]
          _ = source.take r.fd.pos := htaken.symm

/-- What has been handed over and what remains are the source. -/
theorem IoRun.Inv.whole {source : Bytes} {s : IoRun} (hinv : s.Inv source) :
    s.appended ++ s.remaining = source := by
  unfold IoRun.remaining Descriptor.rest
  rw [← List.append_assoc, hinv.balance, hinv.content, List.take_append_drop]

/-- A step of a run keeps the invariant. -/
theorem IoRun.Inv.step {source : Bytes} {s s' : IoRun} {c : IoCall} (hinv : s.Inv source)
    (hgood : c.Good) (h : s.step c = some s') : s'.Inv source := by
  obtain ⟨r, hr, rfl⟩ := Option.map_eq_some_iff.mp h
  obtain ⟨added, hbuf, _, _, hnext⟩ := hinv.call hgood hr
  rw [hbuf, List.drop_left]
  exact hnext

/-- Runs of calls that are good. -/
def goodCall : IoRun → IoCall → Prop := fun _ c => c.Good

/-- The invariant holds in every state of a run. -/
theorem IoRun.inv_of_run {source : Bytes} {s : IoRun} {cs : List IoCall}
    (h : Run IoRun.step goodCall (IoRun.start source) cs s) : s.Inv source := by
  refine h.invariant (IoRun.Inv source) ?_ fun s c s' hinv hgood hstep => hinv.step hgood hstep
  exact ⟨rfl, by simp [IoRun.start, Io.create], rfl, nofun⟩

/-- The calls on a closed reader change nothing. -/
theorem IoRun.run_closed {s s' : IoRun} {cs : List IoCall} (h : Run IoRun.step goodCall s cs s')
    (hclosed : s.io.closed = true) : s' = s := by
  induction h with
  | nil s => rfl
  | @cons s m s' c cs hstep hgood _ ih =>
      have hsame : m = s := by
        obtain ⟨r, hr, rfl⟩ := Option.map_eq_some_iff.mp hstep
        obtain rfl := Option.some.inj ((Io.call_closed s.fd hgood hclosed).symm.trans hr)
        rw [List.drop_length, List.append_nil]
      rw [hsame] at ih
      exact ih hclosed

/-- A call returns before `read` has delivered more often than there are bytes left. -/
theorem IoRun.Inv.returns {source : Bytes} {s : IoRun} {c : IoCall} (hinv : s.Inv source)
    (hgood : c.Good) (hmany : s.fd.rest.length < deliveries c.cuts) :
    (s.io.call s.fd c).isSome := by
  cases hclosed : s.io.closed with
  | true =>
      rw [Io.call_closed s.fd hgood hclosed]
      rfl
  | false =>
      obtain ⟨io', hcall, hreq, _⟩ := Io.call_open s.fd hgood hclosed hinv.error
      rw [hcall]
      exact Io.readCommon_returns hreq hgood.al hgood.cuts hmany

/-- **Blocking readers.**  After any calls on a fresh reader, the bytes appended so far
and those in `_rbuf` are what has been read.  The next call returns once `read` has
delivered often enough; its result is lawful; and the result 0 leaves nothing behind, now
and after every further call. -/
theorem blocking_reader {source : Bytes} {cs : List IoCall} {s : IoRun}
    (h : Run IoRun.step goodCall (IoRun.start source) cs s) :
    s.fd.content = source ∧
    s.appended ++ s.io.rbuf.bytes = source.take s.fd.pos ∧
    ∀ c : IoCall, c.Good →
      (s.fd.rest.length < deliveries c.cuts → (s.io.call s.fd c).isSome) ∧
      ∀ r, s.io.call s.fd c = some r →
        ∃ added, r.buf.bytes = c.dest.bytes ++ added ∧
          Lawful c.req s.remaining added r.ret ∧
          (r.ret = 0 → ∀ cs' s',
            Run IoRun.step goodCall ⟨r.io, r.fd, s.appended ++ added⟩ cs' s' →
            s'.appended = s.appended ++ added ∧ s'.io.rbuf.bytes = [] ∧
            ∀ c' : IoCall, c'.Good →
              s'.io.call s'.fd c' = some ⟨s'.io, c'.dest, s'.fd, 0⟩) := by
  have hinv := IoRun.inv_of_run h
  refine ⟨hinv.content, hinv.balance, ?_⟩
  intro c hgood
  refine ⟨hinv.returns hgood, ?_⟩
  intro r hr
  obtain ⟨added, hbuf, hlawful, hend, hnext⟩ := hinv.call hgood hr
  refine ⟨added, hbuf, hlawful, ?_⟩
  intro hret cs' s' hrun
  have hclosed := hend.mp hret
  obtain rfl := IoRun.run_closed hrun hclosed
  have hempty := List.append_eq_nil_iff.mp (hnext.closed hclosed)
  exact ⟨rfl, hempty.1, fun c' hgood' => Io.call_closed r.fd hgood' hclosed⟩

/-- A call for a line, on a file that arrives in pieces and with an interruption. -/
def lineCall : IoCall :=
  let fresh : Alloc := some fun _ => 0
  ⟨.readUntil (some ⟨[10], by decide⟩), .create, fresh,
    [(.deliver 0, fresh), (.fail .eintr, fresh), (.deliver 1, fresh)]⟩

/-- A call for more bytes than there are. -/
def tailCall : IoCall :=
  let fresh : Alloc := some fun _ => 0
  ⟨.readbytes 4, .create, fresh, [(.deliver 0, fresh), (.deliver 0, fresh)]⟩

theorem lineCall_good : lineCall.Good := by
  refine ⟨⟨_, rfl, by decide⟩, rfl, ?_⟩
  intro c hc
  simp only [lineCall, List.mem_cons, List.not_mem_nil, or_false] at hc
  rcases hc with rfl | rfl | rfl <;> simp

theorem tailCall_good : tailCall.Good := by
  refine ⟨Nat.succ_pos 3, rfl, ?_⟩
  intro c hc
  simp only [tailCall, List.mem_cons, List.not_mem_nil, or_false] at hc
  rcases hc with rfl | rfl <;> simp

theorem blocking_reader_line :
    ∃ s r, exec IoRun.step (IoRun.start [97, 10, 98, 99]) [lineCall] = some s ∧
      s.io.call s.fd tailCall = some r ∧ s.appended = [97, 10] ∧ r.buf.bytes = [98, 99] ∧
      ∀ cs' s', Run IoRun.step goodCall ⟨r.io, r.fd, s.appended ++ r.buf.bytes⟩ cs' s' →
        s'.appended = [97, 10, 98, 99] := by
  have hcalls : ((exec IoRun.step (IoRun.start [97, 10, 98, 99]) [lineCall]).bind fun s =>
      (s.io.call s.fd tailCall).map fun r =>
        decide (s.appended = [97, 10] ∧ r.buf.bytes = [98, 99] ∧ r.ret = 0)) = some true := by
    decide +kernel
  obtain ⟨s, hs, hcall⟩ := Option.bind_eq_some_iff.mp hcalls
  obtain ⟨r, hr, hfacts⟩ := Option.map_eq_some_iff.mp hcall
  obtain ⟨happended, hbytes, hret⟩ := of_decide_eq_true hfacts
  have hrun : Run IoRun.step goodCall (IoRun.start [97, 10, 98, 99]) [lineCall] s :=
    run_of_exec (fun c hc _ => List.mem_singleton.mp hc ▸ lineCall_good) hs
  obtain ⟨added, hbuf, _, hend⟩ := ((blocking_reader hrun).2.2 tailCall tailCall_good).2 r hr
  have hadded : added = r.buf.bytes := by
    rw [hbuf]
    exact (List.nil_append _).symm
  refine ⟨s, r, hs, hr, happended, hbytes, ?_⟩
  intro cs' s' hlater
  rw [← hadded] at hlater
  rw [(hend hret cs' s' hlater).1, happended, hadded, hbytes]
  rfl

end Spe
