import Spe.ConnSpec
import Spe.Transition

/-!
# Runs of one connection

The events of a connection are the calls of its user, in any order that the
assertions of `spe_conn.c` allow, and the executions of its handlers.  Nothing
is assumed about when the handlers run: every run of a connection under the
scheduler is among the runs of `connStep`.

`History` is what a connection has done so far.  No function of the source
reads it.
-/

namespace Spe

open Transition

/-- What a connection has done: the bytes its reads delivered, the finished read
requests with the bytes each appended to `buffer`, the pending one, whether a
connect is pending, the arguments of the successful `spe_conn_write` calls and
the bytes the kernel accepted. -/
structure History where
  received : Bytes
  finished : List (Request × Bytes)
  current : Option Request
  connecting : Bool
  written : Bytes
  accepted : Bytes

/-- A connection and its history. -/
structure ConnState where
  conn : Conn
  hist : History

/-- What can happen to a connection. -/
inductive ConnEvent
  | issue (req : Request) (al : Allocs) (r : ReadRes)
  | readNormal (timedOut : Bool) (al : Allocs) (rs : List ReadRes)
  | write (bs : Bytes) (al : Alloc)
  | flush (w : WriteRes)
  | writeNormal (timedOut : Bool) (w : WriteRes)
  | connect (res : Conn.ConnectRes)
  | connectNormal (timedOut soError : Bool)
  | setTimeout (readExpireTime writeExpireTime : Nat)
  | useBuffer (b : ByteBuf)

/-- The history after a read request is finished that appended to `buffer`. -/
def History.finish (h : History) (req : Request) (appended : Bytes) : History :=
  { h with finished := h.finished ++ [(req, appended)], current := none }

/-- The bytes a `write` takes from the pending ones. -/
def WriteRes.taken (w : WriteRes) (pending : Bytes) : Bytes :=
  match w with
  | .wrote n => pending.take n
  | .err _ => []

/-- The bytes that the loop of `read_normal` delivers. -/
def loopGained (c : Conn) (timedOut : Bool) (al : Allocs) (rs : List ReadRes) : Bytes :=
  if c.readExpireTime ≠ 0 ∧ timedOut then []
  else
    match Conn.readLoop c.readBuffer al rs with
    | none => []
    | some (b, _) => gained c.readBuffer b

namespace ConnState

variable (s : ConnState)

/-- A read call. -/
def issue (req : Request) (al : Allocs) (r : ReadRes) : ConnState × Outcome :=
  let res := s.conn.issue req al r
  let h : History :=
    { s.hist with received := s.hist.received ++ gained s.conn.readBuffer (s.conn.attempt al r).1 }
  match res.2 with
  | .refused => (⟨res.1, s.hist⟩, .refused)
  | .done => (⟨res.1, h.finish req (gained s.conn.buffer res.1.buffer)⟩, .done)
  | .pending => (⟨res.1, { h with current := some req }⟩, .pending)

/-- An execution of `read_normal`. -/
def readNormal (timedOut : Bool) (al : Allocs) (rs : List ReadRes) :
    Option (ConnState × Outcome) :=
  match s.conn.readNormal timedOut al rs with
  | none => none
  | some (c, out) =>
      let h : History :=
        { s.hist with received := s.hist.received ++ loopGained s.conn timedOut al rs }
      match out, s.hist.current with
      | .done, some req => some (⟨c, h.finish req (gained s.conn.buffer c.buffer)⟩, .done)
      | _, _ => some (⟨c, h⟩, out)

/-- `spe_conn_write`. -/
def write (bs : Bytes) (al : Alloc) : ConnState :=
  let res := s.conn.write bs al
  ⟨res.1, if res.2 then { s.hist with written := s.hist.written ++ bs } else s.hist⟩

/-- The history after a `write` system call. -/
def noteWrite (w : WriteRes) : History :=
  { s.hist with accepted := s.hist.accepted ++ w.taken s.conn.writeBuffer.bytes }

/-- `spe_conn_flush`. -/
def flush (w : WriteRes) : ConnState × Outcome :=
  let res := s.conn.flush w
  (⟨res.1, if res.2 = .refused then s.hist else s.noteWrite w⟩, res.2)

/-- An execution of `write_normal`. -/
def writeNormal (timedOut : Bool) (w : WriteRes) : ConnState × Outcome :=
  let res := s.conn.writeNormal timedOut w
  (⟨res.1, if s.conn.writeExpireTime ≠ 0 ∧ timedOut then s.hist else s.noteWrite w⟩, res.2)

/-- `spe_conn_connect`. -/
def connect (res : Conn.ConnectRes) : ConnState × Outcome :=
  let r := s.conn.connect res
  (⟨r.1, { s.hist with connecting := r.2 = .pending }⟩, r.2)

/-- An execution of `connect_normal`. -/
def connectNormal (timedOut soError : Bool) : ConnState :=
  ⟨s.conn.connectNormal timedOut soError, { s.hist with connecting := false }⟩

end ConnState

/-- The step of a connection: its new state and the outcome. -/
def connStep (s : ConnState) : ConnEvent → Option (ConnState × Outcome)
  | .issue req al r => if s.conn.readType = .readNone then some (s.issue req al r) else none
  | .readNormal timedOut al rs =>
      if s.conn.readType ≠ .readNone ∧ s.hist.connecting = false then s.readNormal timedOut al rs
      else none
  | .write bs al => some (s.write bs al, .done)
  | .flush w => if s.conn.writeType = .writeNone then some (s.flush w) else none
  | .writeNormal timedOut w =>
      if s.conn.writeType ≠ .writeNone ∧ s.hist.connecting = false then
        some (s.writeNormal timedOut w)
      else none
  | .connect res =>
      if s.conn.readType = .readNone ∧ s.conn.writeType = .writeNone then some (s.connect res)
      else none
  | .connectNormal timedOut soError =>
      if s.hist.connecting then some (s.connectNormal timedOut soError, .done) else none
  | .setTimeout r w => some (⟨s.conn.setTimeout r w, s.hist⟩, .done)
  | .useBuffer b => some (⟨{ s.conn with buffer := b }, s.hist⟩, .done)

/-- The step of a connection without its outcome. -/
def connNext (s : ConnState) (ev : ConnEvent) : Option ConnState := (connStep s ev).map Prod.fst

/-- A read call acts on the connection as the source does, and on no other part
of the history than that of reads. -/
theorem ConnState.issue_conn (s : ConnState) (req : Request) (al : Allocs) (r : ReadRes) :
    ((s.issue req al r).1.conn, (s.issue req al r).2) = s.conn.issue req al r ∧
    (s.issue req al r).1.hist.written = s.hist.written ∧
    (s.issue req al r).1.hist.accepted = s.hist.accepted ∧
    (s.issue req al r).1.hist.connecting = s.hist.connecting := by
  unfold ConnState.issue
  rcases hres : s.conn.issue req al r with ⟨c, out⟩
  cases out <;> exact ⟨rfl, rfl, rfl, rfl⟩

/-- So does `read_normal`. -/
theorem ConnState.readNormal_conn {s s' : ConnState} {timedOut : Bool} {al : Allocs}
    {rs : List ReadRes} {out : Outcome} (h : s.readNormal timedOut al rs = some (s', out)) :
    s.conn.readNormal timedOut al rs = some (s'.conn, out) ∧
    s'.hist.written = s.hist.written ∧ s'.hist.accepted = s.hist.accepted ∧
    s'.hist.connecting = s.hist.connecting := by
  unfold ConnState.readNormal at h
  split at h
  · simp at h
  · rename_i c res hres
    dsimp only at h
    split at h
    · obtain ⟨rfl, rfl⟩ := Prod.mk.inj (Option.some.inj h)
      exact ⟨hres, rfl, rfl, rfl⟩
    · obtain ⟨rfl, rfl⟩ := Prod.mk.inj (Option.some.inj h)
      exact ⟨hres, rfl, rfl, rfl⟩

/-- Nothing has been done. -/
def History.start : History where
  received := []
  finished := []
  current := none
  connecting := false
  written := []
  accepted := []

/-- A connection that `spe_conn_create` has just made of a slot, whatever the slot
was before. -/
def ConnState.created (c : Conn) (fd : Nat) : ConnState := ⟨c.create fd, History.start⟩

end Spe
