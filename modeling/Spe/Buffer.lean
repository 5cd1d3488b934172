import Mathlib.Algebra.Group.Nat.Defs
import Spe.Block
import Spe.Search

/-!
# Byte buffers (`spe_buf.c`)

`spe_buf_t` is a growing block of bytes with a window: `_start` is the block,
`data` the start of the window inside it, `len` its length and `_size` the size
of the block.  The pointer `data` is represented by its distance `off` from
`_start`; the bytes are those of the block.

The sizes are `unsigned`.  Every size computation of the source goes through
an `Arith`: `u32` is what the machine does, `exact` the reading in which sizes
are exact integers.  The two share one definition of every function.

Each function also writes down the memory accesses it makes (`log`): the
ranges handed to `memcpy`, `memmove` and `read`, the single bytes stored, and
what each successful `buf_expand` was asked for and got.  The log is never
read by the functions.
-/

namespace Spe

/-- Strings of bytes. -/
abbrev Bytes := List UInt8

/-- The bytes a C string function sees: those before the first NUL. -/
def cstr (m : Bytes) : Bytes := m.takeWhile (fun c => c ≠ 0)

/-- The reading of the unsigned size computations. -/
inductive Arith
  | u32
  | exact
  deriving DecidableEq

/-- The value of a sum or product. -/
def Arith.wrap : Arith → Nat → Nat
  | .u32, n => n % 2 ^ 32
  | .exact, n => n

/-- The value of a difference. -/
def Arith.sub : Arith → Nat → Nat → Nat
  | .u32, a, b => (a + (2 ^ 32 - b % 2 ^ 32)) % 2 ^ 32
  | .exact, a, b => a - b

/-- `n` is represented exactly. -/
def Arith.Holds : Arith → Nat → Prop
  | .u32, n => n < 2 ^ 32
  | .exact, _ => True

/-- An access to the block of a buffer, with the capacity the block had. -/
inductive Access
  | memcpy (pos n cap : Nat)
  | memmove (pos n cap : Nat)
  | read (pos n cap : Nat)
  | store (pos cap : Nat)
  | expand (asked got : Nat)
  deriving DecidableEq

/-- The access stays inside the block; an expansion gives what was asked. -/
def Access.InBounds : Access → Prop
  | .memcpy pos n cap => pos + n ≤ cap
  | .memmove pos n cap => pos + n ≤ cap
  | .read pos n cap => pos + n ≤ cap
  | .store pos cap => pos < cap
  | .expand asked got => asked ≤ got

instance (a : Access) : Decidable a.InBounds := by
  cases a <;> unfold Access.InBounds <;> infer_instance

/-- The access is the store of a single byte. -/
def Access.IsStore : Access → Prop
  | .store _ _ => True
  | _ => False

/-- `spe_buf_t`. -/
structure Buf where
  start : Option Bytes
  off : Nat
  len : Nat
  size : Nat
  log : List Access
  deriving DecidableEq

/-- The bytes of the block; a NULL `_start` has none. -/
def Buf.mem (b : Buf) : Bytes := b.start.getD []

/-- The bytes in the window. -/
def Buf.content (b : Buf) : Bytes := Block.slice b.mem b.off b.len

/-- Write down an access. -/
def Buf.note (b : Buf) (a : Access) : Buf := { b with log := b.log ++ [a] }

/-- Store bytes in the block. -/
def Buf.poke (b : Buf) (pos : Nat) (bs : Bytes) : Buf :=
  { b with start := b.start.map (fun m => Block.overwrite m pos bs) }

/-- `buf->data[buf->len] = 0`. -/
def Buf.terminate (b : Buf) : Buf :=
  (b.poke (b.off + b.len) [0]).note (.store (b.off + b.len) b.mem.length)

/-- `memcpy` into the block. -/
def Buf.memcpy (b : Buf) (pos : Nat) (src : Bytes) : Buf :=
  (b.poke pos src).note (.memcpy pos src.length b.mem.length)

/-- `memmove(_start, data, len); data = _start; data[len] = 0`. -/
def Buf.compact (b : Buf) : Buf :=
  let moved := (b.poke 0 b.content).note (.memmove b.off b.len b.mem.length)
  ({ moved with off := 0 } : Buf).terminate

/-- What `realloc` answers: NULL, or a block whose new cells are `fresh`. -/
abbrev Alloc := Option (Nat → UInt8)

/-- `realloc`: the result and what the old pointer then points to.  With size
0 on a block it frees the block and answers NULL. -/
def realloc (old : Option Bytes) (n : Nat) (al : Alloc) : Option Bytes × Option Bytes :=
  match old, n, al with
  | some _, 0, _ => (none, some [])
  | _, _, none => (none, old)
  | _, _, some fresh => (some (Block.resize (old.getD []) n fresh), none)

variable (A : Arith)

/-- `buf_expand`. -/
def bufExpand (b : Buf) (len : Nat) (al : Alloc) : Buf × Bool :=
  let b := if b.off ≠ 0 then b.compact else b
  let newSize := A.wrap (25 * len) / 16
  match realloc b.start newSize al with
  | (none, old) => ({ b with start := old }, false)
  | (some m, _) =>
      (({ b with start := some m, size := newSize, off := 0 } : Buf).note
        (.expand len newSize), true)

/-- `spe_buf_append`. -/
def bufAppend (b : Buf) (src : Bytes) (al : Alloc) : Buf × Bool :=
  let need := A.wrap (src.length + 1)
  let grown :=
    if A.sub b.size b.len < need then
      bufExpand A b (A.wrap (b.size + src.length + 1)) al
    else (b, true)
  if ¬ grown.2 then (grown.1, false) else
  let b := grown.1
  -- the second room test is made in 64-bit signed arithmetic
  let b := if (A.sub b.size b.len : Int) - b.off < need then b.compact else b
  let b := b.memcpy (b.off + b.len) src
  (({ b with len := A.wrap (b.len + src.length) } : Buf).terminate, true)

/-- `spe_buf_copy`. -/
def bufCopy (b : Buf) (src : Bytes) (al : Alloc) : Buf × Bool :=
  let need := A.wrap (src.length + 1)
  let grown := if b.size < need then bufExpand A b need al else (b, true)
  if ¬ grown.2 then (grown.1, false) else
  let b := grown.1.memcpy 0 src
  (({ b with off := 0, len := src.length } : Buf).terminate, true)

/-- `spe_buf_lconsume`. -/
def bufLconsume (b : Buf) (len : Nat) : Buf :=
  let len := if b.len < len then b.len else len
  ({ b with off := b.off + len, len := b.len - len } : Buf).terminate

/-- `spe_buf_rconsume`. -/
def bufRconsume (b : Buf) (len : Nat) : Buf :=
  let len := if b.len ≤ len then b.len else len
  ({ b with len := b.len - len } : Buf).terminate

/-- `spe_buf_clean`. -/
def bufClean (b : Buf) : Buf :=
  let b : Buf := { b with off := 0, len := 0 }
  if b.size ≠ 0 then b.terminate else b

/-- `spe_buf_create`. -/
def bufCreate : Buf := { start := none, off := 0, len := 0, size := 0, log := [] }

/-- The `errno` values the callers tell apart. -/
inductive Errno
  | eintr
  | eagain
  | epipe
  | other
  deriving DecidableEq

/-- What the descriptor answers to `read`: bytes (of which `read` takes as many
as fit), end of file, or an error. -/
inductive ReadRes
  | data (bs : Bytes)
  | eof
  | err (e : Errno)
  deriving DecidableEq

/-- The result of the two `read_fd` functions: a positive count, 0, -1 with
`errno`, or `SPE_BUF_ERROR`. -/
inductive ReadRet
  | got (n : Nat)
  | zero
  | fail (e : Errno)
  | bufError
  deriving DecidableEq

/-- The bytes `read` delivers into `n` bytes of room. -/
def ReadRes.bytes (r : ReadRes) (n : Nat) : Bytes :=
  match r with
  | .data bs => bs.take n
  | _ => []

/-- The result of `read` with `n` bytes of room. -/
def ReadRes.ret (r : ReadRes) (n : Nat) : ReadRet :=
  match r with
  | .err e => .fail e
  | r => if (r.bytes n).length = 0 then .zero else .got (r.bytes n).length

/-- `read` into the block. -/
def Buf.readInto (b : Buf) (pos n : Nat) (r : ReadRes) : Buf :=
  (b.poke pos (r.bytes n)).note (.read pos n b.mem.length)

/-- `spe_buf_read_fd_copy`. -/
def bufReadFdCopy (b : Buf) (len : Nat) (al : Alloc) (r : ReadRes) : Buf × ReadRet :=
  let need := A.wrap (len + 1)
  let grown := if b.size < need then bufExpand A b need al else (b, true)
  if ¬ grown.2 then (grown.1, .bufError) else
  let room := A.sub grown.1.size 1
  let b := grown.1.readInto 0 room r
  match r.ret room with
  | .got n => (({ b with off := 0, len := n } : Buf).terminate, .got n)
  | ret => (b, ret)

/-- `spe_buf_read_fd_append`. -/
def bufReadFdAppend (b : Buf) (len : Nat) (al : Alloc) (r : ReadRes) : Buf × ReadRet :=
  let need := A.wrap (len + 1)
  let grown :=
    if A.sub b.size b.len < need then
      bufExpand A b (A.wrap (b.size + len + 1)) al
    else (b, true)
  if ¬ grown.2 then (grown.1, .bufError) else
  let b := if grown.1.off ≠ 0 then grown.1.compact else grown.1
  let room := A.sub (A.sub b.size b.len) 1
  let b := b.readInto (b.off + b.len) room r
  match r.ret room with
  | .got n => (({ b with len := A.wrap (b.len + n) } : Buf).terminate, .got n)
  | ret => (b, ret)

/-- `spe_buf_search`; `none` is the result -1.  `strstr` sees the memory from
`data` to the first NUL. -/
def bufSearch (b : Buf) (key : Bytes) : Option Nat :=
  if b.len = 0 then none else Search.find key (cstr (b.mem.drop b.off))

end Spe
