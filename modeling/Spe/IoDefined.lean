import Spe.HandOver
import Spe.Io

/-!
# When a call of a blocking reader is defined (`spe_io.c`)

`Io` computes its buffer sizes as exact integers, and hands bytes over also where the program
stops: an `ASSERT` that fails in the `-DDEBUG` build, a size that wraps in 32 bits.
`Io.CallDefined` is the condition under which neither happens in a call; the sizes are then those
of the machine (`ByteBuf.append_machine`, `ByteBuf.readFdAppend_machine`).

`Io.fetchCall` says what the reads of a call have led to.
-/

namespace Spe

/-- The reads of the loop of `read_common`, until the frame of the request is there or `read`
has come to the end of the file or to an error; `none` is a loop that is still reading. -/
def Io.fetch (io : Io) (fd : Descriptor) (cuts : List (Cut × Alloc)) : Option Fetched :=
  match io.request.bind fun req => codeFrame req io.rbuf.bytes with
  | some n => some ⟨io.rbuf, none, some n⟩
  | none =>
      match cuts with
      | [] => none
      | (cut, fresh) :: cuts =>
          let res := io.rbuf.readFdAppend BUF_LEN fresh (cut.answer fd)
          let io : Io := { io with rbuf := res.1 }
          match res.2 with
          | .got n => fetch io (fd.advance n) cuts
          | .fail .eintr => fetch io fd cuts
          | ret => some ⟨res.1, some ret, some res.1.bytes.length⟩

/-- The reads of a call: none on a reader that is closed or has failed. -/
def Io.fetchGuarded (io io' : Io) (fd : Descriptor) (cuts : List (Cut × Alloc)) :
    Option Fetched :=
  if io.closed ∨ io.error then some ⟨io.rbuf, none, none⟩ else io'.fetch fd cuts

/-- The reads of a call of one of the three functions. -/
def Io.fetchCall (io : Io) (fd : Descriptor) (c : IoCall) : Option Fetched :=
  match c.req with
  | .read => io.fetchGuarded { io with rtype := .read } fd c.cuts
  | .readbytes len =>
      if len = 0 then none
      else io.fetchGuarded { io with rtype := .readBytes, rbytes := len } fd c.cuts
  | .readUntil none => none
  | .readUntil (some delim) =>
      io.fetchGuarded { io with rtype := .readUntil, delim := delim } fd c.cuts

/-- Where the loop of `read_common` reads on after a read. -/
def ReadRet.readsOn (fd : Descriptor) : ReadRet → Option Descriptor
  | .got n => some (fd.advance n)
  | .fail .eintr => some fd
  | _ => none

/-- Every read of the loop of `read_common` fits `_rbuf`: there is one as long as the frame of the
request is not there. -/
def Io.ReadsFit (io : Io) (fd : Descriptor) : List (Cut × Alloc) → Prop
  | [] => True
  | (cut, fresh) :: cuts =>
      (io.request.bind fun req => codeFrame req io.rbuf.bytes) = none →
        io.rbuf.Fits BUF_LEN ∧
          ∀ fd' ∈ (io.rbuf.readFdAppend BUF_LEN fresh (cut.answer fd)).2.readsOn fd,
            Io.ReadsFit
              { io with rbuf := (io.rbuf.readFdAppend BUF_LEN fresh (cut.answer fd)).1 } fd' cuts

instance Io.decidableReadsFit (io : Io) (fd : Descriptor) : ∀ cuts, Decidable (io.ReadsFit fd cuts)
  | [] => inferInstanceAs (Decidable True)
  | (cut, fresh) :: cuts =>
      haveI := fun fd' => decidableReadsFit
        { io with rbuf := (io.rbuf.readFdAppend BUF_LEN fresh (cut.answer fd)).1 } fd' cuts
      inferInstanceAs (Decidable (_ → _ ∧
        ∀ fd' ∈ (io.rbuf.readFdAppend BUF_LEN fresh (cut.answer fd)).2.readsOn fd, _))

/-- The reads of a call fit: there are none on a reader that is closed or has failed. -/
def Io.GuardedFits (io io' : Io) (fd : Descriptor) (cuts : List (Cut × Alloc)) : Prop :=
  io.closed = false → io.error = false → io'.ReadsFit fd cuts

instance (io io' : Io) (fd : Descriptor) (cuts : List (Cut × Alloc)) :
    Decidable (io.GuardedFits io' fd cuts) :=
  inferInstanceAs (Decidable (_ → _ → _))

/-- The reads of a call of one of the three functions fit. -/
def Io.CallFits (io : Io) (fd : Descriptor) (c : IoCall) : Prop :=
  match c.req with
  | .read => io.GuardedFits { io with rtype := .read } fd c.cuts
  | .readbytes len => io.GuardedFits { io with rtype := .readBytes, rbytes := len } fd c.cuts
  | .readUntil none => True
  | .readUntil (some delim) =>
      io.GuardedFits { io with rtype := .readUntil, delim := delim } fd c.cuts

instance (io : Io) (fd : Descriptor) : ∀ c : IoCall, Decidable (io.CallFits fd c)
  | ⟨.read, _, _, _⟩ => inferInstanceAs (Decidable (io.GuardedFits _ fd _))
  | ⟨.readbytes _, _, _, _⟩ => inferInstanceAs (Decidable (io.GuardedFits _ fd _))
  | ⟨.readUntil none, _, _, _⟩ => inferInstanceAs (Decidable True)
  | ⟨.readUntil (some _), _, _, _⟩ => inferInstanceAs (Decidable (io.GuardedFits _ fd _))

/-- A call of one of the three functions is defined: its reads fit, the `ASSERT` of its hand-over
holds, and the hand-over fits. -/
structure Io.CallDefined (io : Io) (fd : Descriptor) (c : IoCall) : Prop where
  reads : io.CallFits fd c
  asserts : ∀ f ∈ io.fetchCall fd c, f.Asserts
  fits : ∀ f ∈ io.fetchCall fd c, f.Fits c.dest

instance (io : Io) (fd : Descriptor) (c : IoCall) : Decidable (io.CallDefined fd c) :=
  decidable_of_iff (io.CallFits fd c ∧ (∀ f ∈ io.fetchCall fd c, f.Asserts) ∧
      ∀ f ∈ io.fetchCall fd c, f.Fits c.dest)
    ⟨fun h => ⟨h.1, h.2.1, h.2.2⟩, fun h => ⟨h.reads, h.asserts, h.fits⟩⟩

/-! ## The size of a block -/

namespace ByteBuf

variable (b : ByteBuf)

/-- Consuming the first bytes leaves the block. -/
theorem size_lconsume (n : Nat) : (b.lconsume n).buf.size = b.buf.size := by
  unfold lconsume bufLconsume
  dsimp only
  split <;> rfl

/-- Cleaning leaves the block, and all of it is room. -/
theorem size_clean : b.clean.buf.size = b.buf.size ∧ b.clean.buf.len = 0 := by
  unfold clean bufClean
  dsimp only
  split <;> exact ⟨rfl, rfl⟩

variable {b}

/-- An append that fits leaves a block below `2 ^ 28` bytes below. -/
theorem Fits.append_size {src : Bytes} (h : b.Fits src.length) (al : Alloc)
    (hsize : b.buf.size < 2 ^ 28) : (b.append src al).1.buf.size < 2 ^ 28 := by
  have hmachine := congrArg (fun r : Buf × Bool => r.1.size) (append_machine al h)
  dsimp only at hmachine
  rw [← hmachine, bufAppend_size]
  split
  · rcases bufExpand_sizes b.buf (Arith.u32.wrap (b.buf.size + src.length + 1)) al with hs | hs
    · rw [hs]
      exact hsize
    · exact hs
  · exact hsize

/-- So does a read that fits. -/
theorem Fits.read_size {n : Nat} (h : b.Fits n) (al : Alloc) (r : ReadRes)
    (hsize : b.buf.size < 2 ^ 28) : (b.readFdAppend n al r).1.buf.size < 2 ^ 28 := by
  have hmachine := congrArg (fun r : Buf × ReadRet => r.1.size) (readFdAppend_machine al r h)
  dsimp only at hmachine
  rw [← hmachine, bufReadFdAppend_size]
  split
  · rcases bufExpand_sizes b.buf (Arith.u32.wrap (b.buf.size + n + 1)) al with hs | hs
    · rw [hs]
      exact hsize
    · exact hs
  · exact hsize

end ByteBuf

end Spe
