import Spe.ConnRun
import Spe.HandOver

/-!
# When an event of a connection is defined (`spe_conn.c`)

`Conn` computes its buffer sizes as exact integers, and where the program stops it goes on: an
`ASSERT` that fails in the `-DDEBUG` build, a store through NULL, a size that wraps in 32 bits.
`Conn.Defined` is the condition under which none of these happens in an event; the sizes are
then those of the machine (`ByteBuf.append_machine`, `ByteBuf.readFdAppend_machine`).

Reads are looked at through `Fetched`: `Conn.fetch` says what the synchronous attempt of a read
call has led to, and `Conn.fetchNormal` what the loop of `read_normal` has.
-/

namespace Spe

instance (req : Request) : Decidable req.Proper :=
  match req with
  | .readUntil delim => inferInstanceAs (Decidable (delim.isSome = true))
  | .readbytes len => inferInstanceAs (Decidable (0 < len))
  | .read => inferInstanceAs (Decidable True)

namespace Conn

variable (c : Conn)

/-- The reads of a read call: none when the call is refused; else one, after which all of
`_read_buffer` is handed over at the end of the stream and for an error, and the frame of
the request, when it is there, otherwise. -/
def fetch (req : Request) (al : Allocs) (r : ReadRes) : Fetched :=
  if c.closed ∨ c.error ∨ ¬ req.Proper then ⟨c.readBuffer, none, none⟩ else
  let res := c.attempt al r
  { source := res.1
    ret := some res.2
    handed :=
      if res.2.fatal ∨ res.2 = .zero then some res.1.bytes.length
      else codeFrame req res.1.bytes }

/-- The reads of `read_normal`: none after a timeout, else those of its loop; `none` is a loop
that is still trying. -/
def fetchNormal (timedOut : Bool) (al : Allocs) (rs : List ReadRes) : Option Fetched :=
  if c.readExpireTime ≠ 0 ∧ timedOut then some ⟨c.readBuffer, none, none⟩ else
  (readLoop c.readBuffer al rs).map fun res =>
    { source := res.1
      ret := some res.2
      handed := c.request.bind fun req => codeFrame req res.1.bytes }

/-- Every read of the loop of `read_normal` fits. -/
def LoopFits (b : ByteBuf) (al : Allocs) : List ReadRes → Prop
  | [] => True
  | r :: rs =>
      b.Fits BUF_SIZE ∧ ((b.readFdAppend BUF_SIZE al.read r).2 = .fail .eintr →
        LoopFits (b.readFdAppend BUF_SIZE al.read r).1 al rs)

instance decidableLoopFits (b : ByteBuf) (al : Allocs) : ∀ rs, Decidable (LoopFits b al rs)
  | [] => inferInstanceAs (Decidable True)
  | r :: rs =>
      haveI := decidableLoopFits (b.readFdAppend BUF_SIZE al.read r).1 al rs
      inferInstanceAs (Decidable (_ ∧ (_ → _)))

/-- No size computation of a read call wraps. -/
def IssueFits (req : Request) (al : Allocs) (r : ReadRes) : Prop :=
  ((c.fetch req al r).ret.isSome = true → c.readBuffer.Fits BUF_SIZE) ∧
    (c.fetch req al r).Fits c.buffer

instance (req : Request) (al : Allocs) (r : ReadRes) : Decidable (c.IssueFits req al r) :=
  inferInstanceAs (Decidable ((_ → _) ∧ _))

/-- No size computation of `read_normal` wraps. -/
def NormalFits (timedOut : Bool) (al : Allocs) (rs : List ReadRes) : Prop :=
  (¬ (c.readExpireTime ≠ 0 ∧ timedOut = true) → LoopFits c.readBuffer al rs) ∧
    ∀ f ∈ c.fetchNormal timedOut al rs, f.Fits c.buffer

instance (timedOut : Bool) (al : Allocs) (rs : List ReadRes) :
    Decidable (c.NormalFits timedOut al rs) :=
  inferInstanceAs (Decidable ((_ → _) ∧ ∀ f ∈ c.fetchNormal timedOut al rs, f.Fits c.buffer))

/-- No size computation of an event wraps. -/
def Fits : ConnEvent → Prop
  | .issue req al r => c.IssueFits req al r
  | .readNormal timedOut al rs => c.NormalFits timedOut al rs
  | .write bs _ => c.closed = false → c.error = false → c.writeBuffer.Fits bs.length
  | _ => True

instance (ev : ConnEvent) : Decidable (c.Fits ev) :=
  match ev with
  | .issue req al r => inferInstanceAs (Decidable (c.IssueFits req al r))
  | .readNormal timedOut al rs => inferInstanceAs (Decidable (c.NormalFits timedOut al rs))
  | .write bs _ =>
      inferInstanceAs
        (Decidable (c.closed = false → c.error = false → c.writeBuffer.Fits bs.length))
  | .flush _ => inferInstanceAs (Decidable True)
  | .writeNormal _ _ => inferInstanceAs (Decidable True)
  | .connect _ => inferInstanceAs (Decidable True)
  | .connectNormal _ _ => inferInstanceAs (Decidable True)
  | .setTimeout _ _ => inferInstanceAs (Decidable True)
  | .useBuffer _ => inferInstanceAs (Decidable True)

/-- What is made of a result of `write` finds a block: `spe_buf_lconsume` stores a NUL. -/
def Consumes : WriteRes → Prop
  | .wrote _ => c.writeBuffer.null = false
  | .err _ => True

instance (w : WriteRes) : Decidable (c.Consumes w) :=
  match w with
  | .wrote _ => inferInstanceAs (Decidable (c.writeBuffer.null = false))
  | .err _ => inferInstanceAs (Decidable True)

/-- No `ASSERT` of `spe_buf_append` and `spe_conn_write` fails in an event, and it stores nothing
through NULL.  (The `ASSERT`s on `_read_type` and `_write_type` are guards of `connStep`.) -/
def Asserts : ConnEvent → Prop
  | .issue req al r => (c.fetch req al r).Asserts
  | .readNormal timedOut al rs => ∀ f ∈ c.fetchNormal timedOut al rs, f.Asserts
  | .write bs _ => bs ≠ []
  | .flush w => c.closed = false → c.error = false → c.Consumes w
  | .writeNormal timedOut w => ¬ (c.writeExpireTime ≠ 0 ∧ timedOut = true) → c.Consumes w
  | _ => True

instance (ev : ConnEvent) : Decidable (c.Asserts ev) :=
  match ev with
  | .issue req al r => inferInstanceAs (Decidable (c.fetch req al r).Asserts)
  | .readNormal timedOut al rs =>
      inferInstanceAs (Decidable (∀ f ∈ c.fetchNormal timedOut al rs, f.Asserts))
  | .write bs _ => inferInstanceAs (Decidable (bs ≠ []))
  | .flush w => inferInstanceAs (Decidable (c.closed = false → c.error = false → c.Consumes w))
  | .writeNormal timedOut w =>
      inferInstanceAs (Decidable (¬ (c.writeExpireTime ≠ 0 ∧ timedOut = true) → c.Consumes w))
  | .connect _ => inferInstanceAs (Decidable True)
  | .connectNormal _ _ => inferInstanceAs (Decidable True)
  | .setTimeout _ _ => inferInstanceAs (Decidable True)
  | .useBuffer _ => inferInstanceAs (Decidable True)

/-- An event that the machine runs as `Conn` does. -/
structure Defined (ev : ConnEvent) : Prop where
  fits : c.Fits ev
  asserts : c.Asserts ev

instance (ev : ConnEvent) : Decidable (c.Defined ev) :=
  decidable_of_iff (c.Fits ev ∧ c.Asserts ev) ⟨fun h => ⟨h.1, h.2⟩, fun h => ⟨h.fits, h.asserts⟩⟩

end Conn

end Spe
