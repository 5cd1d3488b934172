import Spe.BufferString

/-!
# Connections (`spe_conn.c`)

A connection reads into `_read_buffer` and hands what a request asks for over
to `buffer`; it writes from `_write_buffer`.  A request is tried at once, and
when it cannot be completed at once it stays pending until `read_normal`
(`write_normal`, `connect_normal`) completes it.

Here is what the functions do to the connection.  Their last acts on other
modules follow from the outcome: a *done* operation schedules its post task, a
*pending* one sets the handler of its private task, enables its epoll bit and
arms its timer, a *refused* one returns false and does nothing.

What the kernel answers, and which allocations succeed, are parameters.
-/

namespace Spe

/-- A C string: no NUL inside. -/
abbrev CStr := { bs : Bytes // (0 : UInt8) ∉ bs }

/-- `BUF_SIZE`. -/
def BUF_SIZE : Nat := 1024

/-- `SPE_CONN_READNONE`, `SPE_CONN_READ`, `SPE_CONN_READUNTIL`,
`SPE_CONN_READBYTES`. -/
inductive ReadType
  | readNone
  | read
  | readUntil
  | readBytes
  deriving DecidableEq

/-- `SPE_CONN_WRITENONE`, `SPE_CONN_WRITE`. -/
inductive WriteType
  | writeNone
  | write
  deriving DecidableEq

/-- `SPE_CONN_CONNECT` is the number 1 in both fields. -/
def ReadType.connect : ReadType := .read

def WriteType.connect : WriteType := .write

/-- `spe_conn_t` without its tasks. -/
structure Conn where
  fd : Nat
  readExpireTime : Nat
  writeExpireTime : Nat
  buffer : ByteBuf
  readBuffer : ByteBuf
  writeBuffer : ByteBuf
  delim : CStr
  rbytes : Nat
  readType : ReadType
  writeType : WriteType
  connectTimeout : Bool
  readTimeout : Bool
  writeTimeout : Bool
  closed : Bool
  error : Bool

/-- The allocations that a read call may need: for `_read_buffer` and for
`buffer`. -/
structure Allocs where
  read : Alloc
  append : Alloc

/-- Both allocations succeed. -/
def Allocs.Good (al : Allocs) : Prop := al.read.isSome ∧ al.append.isSome

/-- How a call or a handler leaves its operation. -/
inductive Outcome
  | refused
  | done
  | pending
  deriving DecidableEq

/-- What `write` answers: a count, of which at most the requested length is
written, or an error. -/
inductive WriteRes
  | wrote (n : Nat)
  | err (e : Errno)
  deriving DecidableEq

/-- A read result other than data, end of file and the two transient errors;
`SPE_BUF_ERROR` is negative and leaves `ENOMEM` in `errno`. -/
def ReadRet.fatal : ReadRet → Bool
  | .fail .eintr => false
  | .fail .eagain => false
  | .fail _ => true
  | .bufError => true
  | _ => false

namespace Conn

variable (c : Conn)

/-- Hand the first `n` bytes of `_read_buffer` over to `buffer`. -/
def handOver (n : Nat) (al : Allocs) : Conn :=
  { c with
    buffer := (c.buffer.append (c.readBuffer.bytes.take n) al.append).1
    readBuffer := c.readBuffer.lconsume n }

/-- Hand all of `_read_buffer` over to `buffer`. -/
def handOverAll (al : Allocs) : Conn :=
  { c with
    buffer := (c.buffer.append c.readBuffer.bytes al.append).1
    readBuffer := c.readBuffer.clean }

/-- `spe_conn_read_sync`; the Boolean is its result. -/
def readSync (al : Allocs) (r : ReadRes) : Conn × Bool :=
  let res := c.readBuffer.readFdAppend BUF_SIZE al.read r
  let c : Conn := { c with
    readBuffer := res.1
    error := c.error || res.2.fatal
    closed := c.closed || res.2 = .zero }
  if c.error || c.closed then (c.handOverAll al, true) else (c, false)

/-- `spe_conn_read_async`. -/
def readAsync (readType : ReadType) : Conn :=
  { c with readTimeout := false, readType := readType }

/-- `spe_conn_read_until`; a NULL `delim` is `none`. -/
def readUntil (delim : Option CStr) (al : Allocs) (r : ReadRes) : Conn × Outcome :=
  match delim with
  | none => (c, .refused)
  | some delim =>
      if c.closed || c.error then (c, .refused) else
      let (c, ended) := c.readSync al r
      if ended then (c, .done) else
      match c.readBuffer.search delim.1 with
      | some pos => (c.handOver (pos + delim.1.length) al, .done)
      | none => (({ c with delim := delim } : Conn).readAsync .readUntil, .pending)

/-- `spe_conn_readbytes`. -/
def readbytes (len : Nat) (al : Allocs) (r : ReadRes) : Conn × Outcome :=
  if len = 0 || c.closed || c.error then (c, .refused) else
  let (c, ended) := c.readSync al r
  if ended then (c, .done) else
  if len ≤ c.readBuffer.buf.len then (c.handOver len al, .done)
  else (({ c with rbytes := len } : Conn).readAsync .readBytes, .pending)

/-- `spe_conn_read`. -/
def read (al : Allocs) (r : ReadRes) : Conn × Outcome :=
  if c.closed || c.error then (c, .refused) else
  let (c, ended) := c.readSync al r
  if ended then (c, .done) else
  if 0 < c.readBuffer.buf.len then (c.handOverAll al, .done)
  else (c.readAsync .read, .pending)

/-- The loop of `read_normal` around `read`, run on the kernel's answers:
`EINTR` tries again.  `none` is a loop that is still trying. -/
def readLoop (b : ByteBuf) (al : Allocs) : List ReadRes → Option (ByteBuf × ReadRet)
  | [] => none
  | r :: rs =>
      let res := b.readFdAppend BUF_SIZE al.read r
      if res.2 = .fail .eintr then readLoop res.1 al rs else some res

/-- The check of `_read_type` in `read_normal`; `none` when the request is not
complete. -/
def checkReadType (al : Allocs) : Option Conn :=
  match c.readType with
  | .readUntil =>
      (c.readBuffer.search c.delim.1).map (fun pos => c.handOver (pos + c.delim.1.length) al)
  | .readBytes => if c.rbytes ≤ c.readBuffer.buf.len then some (c.handOver c.rbytes al) else none
  | .read => if 0 < c.readBuffer.buf.len then some (c.handOverAll al) else none
  | .readNone => none

/-- `end_out` of `read_normal`. -/
def endRead : Conn := { c with readType := .readNone }

/-- The connection after the loop of `read_normal`.  Only `-1` is looked at for
an error, so `SPE_BUF_ERROR` is not one here. -/
def afterLoop (b : ByteBuf) (ret : ReadRet) : Conn :=
  { c with
    readBuffer := b
    error := c.error || (ret.fatal && decide (ret ≠ .bufError))
    closed := c.closed || ret = .zero }

/-- The rest of `read_normal`. -/
def settle (al : Allocs) : Conn × Outcome :=
  match c.checkReadType al with
  | some c => (c.endRead, .done)
  | none => if c.closed || c.error then (c.endRead, .done) else (c, .pending)

/-- `read_normal`; `timedOut` is `_read_task.timeout`. -/
def readNormal (timedOut : Bool) (al : Allocs) (rs : List ReadRes) : Option (Conn × Outcome) :=
  if c.readExpireTime ≠ 0 ∧ timedOut then
    some (({ c with readTimeout := true } : Conn).endRead, .done)
  else
    match readLoop c.readBuffer al rs with
    | none => none
    | some (b, ret) => some ((c.afterLoop b ret).settle al)

/-- `spe_conn_write`; the Boolean is its result. -/
def write (bs : Bytes) (al : Alloc) : Conn × Bool :=
  if c.closed || c.error then (c, false) else
  let res := c.writeBuffer.append bs al
  ({ c with writeBuffer := res.1 }, res.2)

/-- What `spe_conn_flush` and `write_normal` make of a result of `write`; the
Boolean tells whether the operation ends. -/
def wrote (w : WriteRes) : Conn × Bool :=
  match w with
  | .err .epipe => ({ c with closed := true }, true)
  | .err _ => ({ c with error := true }, true)
  | .wrote n =>
      let res := min n c.writeBuffer.buf.len
      let c : Conn := { c with writeBuffer := c.writeBuffer.lconsume res }
      (c, c.writeBuffer.buf.len = 0)

/-- `spe_conn_flush`. -/
def flush (w : WriteRes) : Conn × Outcome :=
  if c.closed || c.error then (c, .refused) else
  let (c, ended) := c.wrote w
  if ended then (c, .done)
  else ({ c with writeTimeout := false, writeType := .write }, .pending)

/-- `end_out` of `write_normal`. -/
def endWrite : Conn := { c with writeType := .writeNone }

/-- `write_normal`; `timedOut` is `_write_task.timeout`. -/
def writeNormal (timedOut : Bool) (w : WriteRes) : Conn × Outcome :=
  if c.writeExpireTime ≠ 0 ∧ timedOut then
    (({ c with writeTimeout := true } : Conn).endWrite, .done)
  else
    let (c, ended) := c.wrote w
    if ended then (c.endWrite, .done) else (c, .pending)

/-- What name resolution and `connect` answer. -/
inductive ConnectRes
  | noAddress
  | connected
  | inProgress
  | failed
  deriving DecidableEq

/-- `spe_conn_connect`. -/
def connect (res : ConnectRes) : Conn × Outcome :=
  match res with
  | .noAddress => (c, .refused)
  | .connected => (c, .done)
  | .failed => ({ c with error := true }, .done)
  | .inProgress =>
      ({ c with connectTimeout := false, readType := .connect, writeType := .connect }, .pending)

/-- `connect_normal`; `timedOut` is `_read_task.timeout`, `soError` whether
`getsockopt` fails or reports an error. -/
def connectNormal (timedOut soError : Bool) : Conn :=
  let c : Conn :=
    if c.readExpireTime ≠ 0 ∧ timedOut then { c with connectTimeout := true }
    else { c with error := c.error || soError }
  { c with readType := .readNone, writeType := .writeNone }

/-- `spe_conn_set_timeout`. -/
def setTimeout (readExpireTime writeExpireTime : Nat) : Conn :=
  { c with readExpireTime := readExpireTime, writeExpireTime := writeExpireTime }

/-- A slot of `conns` as `calloc` leaves it; the buffers are NULL pointers that
nobody follows before `conn_initialize` sets them. -/
def zero : Conn where
  fd := 0
  readExpireTime := 0
  writeExpireTime := 0
  buffer := .create
  readBuffer := .create
  writeBuffer := .create
  delim := ⟨[], List.not_mem_nil⟩
  rbytes := 0
  readType := .readNone
  writeType := .writeNone
  connectTimeout := false
  readTimeout := false
  writeTimeout := false
  closed := false
  error := false

/-- `conn_initialize`, its allocations succeeding. -/
def connInitialize (fd : Nat) : Conn :=
  { c with
    fd := fd
    buffer := .create
    readBuffer := .create
    writeBuffer := .create }

/-- `spe_conn_create` on the slot of `fd`. -/
def create (fd : Nat) : Conn :=
  let c := if c.fd = 0 then c.connInitialize fd else c
  { c with
    buffer := c.buffer.clean
    readBuffer := c.readBuffer.clean
    writeBuffer := c.writeBuffer.clean
    readExpireTime := 0
    writeExpireTime := 0
    readType := .readNone
    writeType := .writeNone
    closed := false
    error := false }

/-- A created connection has empty buffers. -/
@[simp] theorem create_bytes (fd : Nat) :
    (c.create fd).buffer.bytes = [] ∧ (c.create fd).readBuffer.bytes = [] ∧
      (c.create fd).writeBuffer.bytes = [] := by
  simp [create]

end Conn

end Spe
