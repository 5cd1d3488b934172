import Spe.ConnRead
import Spe.RpcRequest

/-!
# Commands and the packets they come in

The connection of one client, from `rpcHandler` on.  Each read hands what it delivers over
to the buffer and schedules `rpcParse`; `rpcParse` dispatches one command at most, and then
reads again.  What is left in the buffer is looked at when the next read has delivered
something.

So one command is dispatched after each piece that a read delivers, and a piece that
completes several commands leaves the others behind (`commands_dispatched_fails`).  All
commands are dispatched exactly if at no time there are more commands to complete than
pieces to come (`commands_dispatched`).

A client is `aborted` where the program stops or goes on undefined: an `ASSERT` fails, a NULL is
followed, or a size wraps.  Nothing happens to it any more.
-/

namespace Spe

open Transition Incremental

/-- What happens next to a client: `rpcHandler` is called, the task of `rpcParse` is in the
run queue, a read is pending; or nothing: a read was refused, the program has stopped or is
undefined, the connection was destroyed. -/
inductive RpcPhase
  | accepted
  | posted
  | pending
  | refused
  | aborted
  | destroyed
  deriving DecidableEq

/-- A client.  `rest` is what it sends and no read has delivered yet; `chunks` is history, what
the reads have delivered, and so is `dispatched`, the requests that `rpcProcess` was called
with. -/
structure RpcClient where
  rpc : RpcConn
  phase : RpcPhase
  rest : Bytes
  chunks : List Bytes
  dispatched : List (List (Option Bytes))

/-- What the allocator and the kernel answer while `rpcParse` runs. -/
structure RpcAnswers where
  request : Nat → BufsAlloc
  response : BufsAlloc
  writes : Nat → Alloc
  flush : WriteRes
  read : Allocs
  data : ReadRes

/-- What can happen to a client. -/
inductive RpcEvent
  | handler (al : Allocs) (r : ReadRes)
  | parse (ans : RpcAnswers)
  | readNormal (al : Allocs) (rs : List ReadRes)
  | writeNormal (w : WriteRes)

namespace RpcClient

/-- `rpcHandler` with a new connection, up to `SpeConnRead`. -/
def start (conn : Conn) (fd : Nat) (stream : Bytes) : RpcClient where
  rpc := {
    status := .star
    paramLeft := 0
    dataLeft := 0
    request := .create
    respType := .none
    respMsg := .create
    conn := conn.create fd }
  phase := .accepted
  rest := stream
  chunks := []
  dispatched := []

variable (s : RpcClient)

/-- The connection changes. -/
def setConn (c : Conn) : RpcClient := { s with rpc := { s.rpc with conn := c } }

/-- A read has delivered `got`, and ends so. -/
def delivered (r : RpcConn) (got : Bytes) (out : Outcome) : RpcClient :=
  { s with
    rpc := r
    rest := s.rest.drop got.length
    chunks := if got = [] then s.chunks else s.chunks ++ [got]
    phase :=
      match out with
      | .done => .posted
      | .pending => .pending
      | .refused => .refused }

/-- The program has stopped, or it is undefined what it does from here on. -/
def abort : RpcClient := { s with phase := .aborted }

/-- `SpeConnRead`. -/
def read (r : RpcConn) (al : Allocs) (rr : ReadRes) : RpcClient :=
  if r.conn.Defined (.issue .read al rr) then
    let res := r.conn.read al rr
    s.delivered { r with conn := res.1 } (gained r.conn.readBuffer (r.conn.attempt al rr).1) res.2
  else { s with rpc := r }.abort

/-- An execution of `read_normal`. -/
def readNormal (al : Allocs) (rs : List ReadRes) : Option RpcClient :=
  (s.rpc.conn.readNormal false al rs).map fun res =>
    if s.rpc.conn.Defined (.readNormal false al rs) then
      s.delivered { s.rpc with conn := res.1 } (loopGained s.rpc.conn false al rs) res.2
    else s.abort

/-- An execution of `write_normal`. -/
def writeNormal (w : WriteRes) : RpcClient :=
  if s.rpc.conn.Defined (.writeNormal false w) then
    s.setConn (s.rpc.conn.writeNormal false w).1
  else s.abort

/-- An execution of the post task: `rpcParse`. -/
def parse (cmdMap : SpeMap RpcHandler) (ans : RpcAnswers) : Option RpcClient :=
  match s.rpc.rpcParse ans.request with
  | none => none
  | some .errout => some { s with phase := .destroyed }
  | some .undefined => some s.abort
  | some (.read r) => some (s.read r ans.read ans.data)
  | some (.process r) =>
      match r.rpcProcess cmdMap ans.response with
      | none => some s.abort
      | some called =>
          let s : RpcClient := { s with dispatched := s.dispatched ++ [r.request.strings] }
          match called.rpcDone ans.writes ans.flush with
          | none => some s.abort
          | some r => some (s.read r ans.read ans.data)

/-- The step of a client. -/
def step (cmdMap : SpeMap RpcHandler) (s : RpcClient) : RpcEvent → Option RpcClient
  | .handler al r => if s.phase = .accepted then some (s.read s.rpc al r) else none
  | .parse ans => if s.phase = .posted then s.parse cmdMap ans else none
  | .readNormal al rs => if s.phase = .pending then s.readNormal al rs else none
  | .writeNormal w =>
      if s.rpc.conn.writeType ≠ .writeNone ∧ s.phase ≠ .aborted ∧ s.phase ≠ .destroyed then
        some (s.writeNormal w)
      else none

/-- A read delivers some of what the client has sent, or nothing for now. -/
def Reads (s : RpcClient) : ReadRes → Prop
  | .data bs => bs ≠ [] ∧ bs <+: s.rest
  | .eof => False
  | .err e => e = .eagain ∨ e = .eintr

/-- The allocator answers, the client sends its bytes and keeps the connection open, and it
takes some of what is written. -/
def Granted (s : RpcClient) : RpcEvent → Prop
  | .handler al r => al.Good ∧ s.Reads r
  | .parse ans => (∀ n, (ans.request n).Good) ∧ (∃ n, ans.flush = .wrote n) ∧ ans.read.Good ∧
      s.Reads ans.data
  | .readNormal al rs => al.Good ∧ ∀ r ∈ rs, s.Reads r
  | .writeNormal w => ∃ n, w = .wrote n

end RpcClient

/-- How many of the commands are complete in that many bytes. -/
def completeIn : List (List Bytes) → Nat → Nat
  | [], _ => 0
  | command :: commands, n =>
      if (encode command).length ≤ n then completeIn commands (n - (encode command).length) + 1
      else 0

/-- How many of the commands are complete in the first pieces. -/
def completeAfter (commands : List (List Bytes)) (chunks : List Bytes) (k : Nat) : Nat :=
  completeIn commands (chunks.take k).flatten.length

/-- At no time there are more commands to complete than pieces to come. -/
def KeepsUp (commands : List (List Bytes)) (chunks : List Bytes) : Prop :=
  ∀ k ≤ chunks.length,
    commands.length ≤ completeAfter commands chunks k + (chunks.length - k)

/-- How many commands are complete, after some that are. -/
theorem completeIn_drop {commands : List (List Bytes)} {k : Nat} (hk : k ≤ commands.length)
    (n : Nat) :
    completeIn commands (((commands.take k).flatMap encode).length + n) =
      k + completeIn (commands.drop k) n := by
  induction k generalizing commands with
  | zero => simp
  | succ k ih =>
      obtain ⟨command, commands, rfl⟩ := List.exists_cons_of_length_pos (Nat.lt_of_lt_of_le
        (Nat.succ_pos k) hk)
      have hle : (encode command).length ≤
          (((command :: commands).take (k + 1)).flatMap encode).length + n := by
        simp only [List.take_succ_cons, List.flatMap_cons, List.length_append]
        omega
      have hleft : (((command :: commands).take (k + 1)).flatMap encode).length + n -
          (encode command).length = ((commands.take k).flatMap encode).length + n := by
        simp only [List.take_succ_cons, List.flatMap_cons, List.length_append]
        omega
      rw [completeIn, if_pos hle, hleft, ih (Nat.le_of_succ_le_succ hk), List.drop_succ_cons]
      omega

/-- What is complete in the first pieces does not change when more come. -/
theorem completeAfter_append (commands : List (List Bytes)) (chunks more : List Bytes) {k : Nat}
    (hk : k ≤ chunks.length) :
    completeAfter commands (chunks ++ more) k = completeAfter commands chunks k := by
  unfold completeAfter
  rw [List.take_append_of_le_length hk]

/-- A command has bytes. -/
theorem encode_pos (args : List Bytes) : 0 < (encode args).length := by
  simp [encode, encodeNumber]

/-- A read that delivers what the client has sent. -/
theorem RpcClient.Reads.calm {s : RpcClient} {r : ReadRes} (h : s.Reads r) :
    r.Calm ∧ r ≠ .eof ∧ ∀ room, r.bytes room <+: s.rest := by
  cases r with
  | data bs => exact ⟨h.1, by rintro ⟨⟩, fun room => (List.take_prefix room bs).trans h.2⟩
  | eof => exact absurd h id
  | err e =>
      rcases h with rfl | rfl
      · exact ⟨trivial, by rintro ⟨⟩, fun _ => List.nil_prefix⟩
      · exact ⟨trivial, by rintro ⟨⟩, fun _ => List.nil_prefix⟩

/-- What one such read delivers. -/
theorem RpcClient.Reads.append {s : RpcClient} {b : ByteBuf} {al : Allocs} {r : ReadRes}
    (h : s.Reads r) (hal : al.Good) :
    gained b (b.readFdAppend BUF_SIZE al.read r).1 <+: s.rest := by
  obtain ⟨room, _, _, hbytes⟩ := b.bytes_readFdAppend BUF_SIZE r hal.1
  rw [gained_eq hbytes]
  exact h.calm.2.2 room

/-- What the loop of `read_normal` delivers. -/
theorem RpcClient.reads_loop {s : RpcClient} {b b' : ByteBuf} {al : Allocs} {rs : List ReadRes}
    {ret : ReadRet} (hal : al.Good) (h : ∀ r ∈ rs, s.Reads r)
    (hloop : Conn.readLoop b al rs = some (b', ret)) : gained b b' <+: s.rest := by
  induction rs generalizing b with
  | nil => cases hloop
  | cons r rs ih =>
      have honce := readFdAppend_once (b := b) hal r
      have hhead := (h r List.mem_cons_self).append (b := b) hal
      rw [Conn.readLoop] at hloop
      split at hloop
      · rename_i hintr
        have hlater := ih (fun r hr => h r (List.mem_cons_of_mem _ hr)) hloop
        have hnone := honce.empty (by simp [hintr])
        have hsame : (b.readFdAppend BUF_SIZE al.read r).1.bytes = b.bytes := by
          rw [honce.bytes, hnone, List.append_nil]
        rwa [gained, hsame] at hlater
      · rw [Option.some.inj hloop] at hhead
        exact hhead

/-- How a read leaves the read side of a connection with an empty `_read_buffer`: it delivers
nothing and is pending, or it hands over what it delivers. -/
inductive ReadTo (v v' : Reader) (got : Bytes) (out : Outcome) : Prop
  | waits (hgot : got = []) (hout : out = .pending)
      (hread : v' = { v with request := some .read })
  | hands (hgot : got ≠ []) (hout : out = .done)
      (hread : v' = { v with buffer := v.buffer ++ got, readBuffer := [], request := none })

/-- **`spe_conn_read`** on an open connection. -/
theorem read_to {s : RpcClient} {c : Conn} {al : Allocs} {r : ReadRes} (hal : al.Good)
    (hreads : s.Reads r) (hclosed : c.closed = false) (herror : c.error = false)
    (hempty : c.readBuffer.bytes = []) (hidle : c.request = none) :
    ReadTo c.reader (c.read al r).1.reader (gained c.readBuffer (c.attempt al r).1)
      (c.read al r).2 := by
  obtain ⟨hcalm, hopen, _⟩ := hreads.calm
  obtain ⟨hfatal, hzero, _⟩ := readFdAppend_calm (b := c.readBuffer) hal hcalm
  have hspec := @Conn.issue_spec c .read al r hal hclosed herror trivial
  change ((c.read al r).1.reader, (c.read al r).2) = _ at hspec
  have hgoes : ¬ ((c.attempt al r).2.fatal = true ∨ (c.attempt al r).2 = .zero) := by
    rintro (hbad | hend)
    · exact absurd (hfatal.symm.trans hbad) (by simp)
    · exact hopen (hzero.mp hend)
  have hbuffer : c.reader.readBuffer = [] := hempty
  unfold Reader.issue at hspec
  simp only [if_neg hgoes, hbuffer, List.nil_append] at hspec
  by_cases hgot : gained c.readBuffer (c.attempt al r).1 = []
  · simp only [hgot, codeFrame, if_true, Prod.mk.injEq] at hspec
    refine .waits hgot hspec.2 (hspec.1.trans ?_)
    rw [← hbuffer]
  · simp only [codeFrame, if_neg hgot, List.take_length, List.drop_length, Prod.mk.injEq] at hspec
    refine .hands hgot hspec.2 (hspec.1.trans ?_)
    have hnone : c.reader.request = none := hidle
    rw [← hnone]

/-- The loop of `read_normal` meets the end of the stream only if a read does. -/
theorem eof_of_meetsEnd {rs : List ReadRes} (h : meetsEnd rs = true) : .eof ∈ rs := by
  induction rs with
  | nil => cases h
  | cons r rs ih =>
      unfold meetsEnd at h
      split at h
      · rename_i heq
        obtain ⟨rfl, rfl⟩ := List.cons.inj heq
        exact List.mem_cons_self
      · rename_i heq
        obtain ⟨rfl, rfl⟩ := List.cons.inj heq
        exact List.mem_cons_of_mem _ (ih h)
      · cases h

/-- **`read_normal`** on an open connection with a pending read. -/
theorem readNormal_to {s : RpcClient} {c c' : Conn} {al : Allocs} {rs : List ReadRes}
    {out : Outcome} (hal : al.Good) (hreads : ∀ r ∈ rs, s.Reads r) (hclosed : c.closed = false)
    (herror : c.error = false) (hempty : c.readBuffer.bytes = [])
    (hpending : c.request = some .read) (hrun : c.readNormal false al rs = some (c', out)) :
    ReadTo c.reader c'.reader (loopGained c false al rs) out ∧
      loopGained c false al rs <+: s.rest := by
  have htime : ¬ (c.readExpireTime ≠ 0 ∧ false = true) := by simp
  cases hloop : Conn.readLoop c.readBuffer al rs with
  | none =>
      rw [Conn.readNormal, if_neg htime, hloop] at hrun
      cases hrun
  | some res =>
      obtain ⟨b, ret⟩ := res
      have hgained : loopGained c false al rs = gained c.readBuffer b := by
        simp [loopGained, hloop]
      obtain ⟨hfatal, hzero⟩ := readLoop_calm hal (fun r hr => (hreads r hr).calm.1) hloop
      have hnoend : ¬ ret = .zero := fun hret =>
        (hreads .eof (eof_of_meetsEnd (hzero.mp hret))).calm.2.1 rfl
      obtain ⟨c₁, out₁, hrun₁, hspec⟩ := Conn.readNormal_spec hal htime hloop
      obtain ⟨rfl, rfl⟩ := Prod.mk.inj (Option.some.inj (hrun₁.symm.trans hrun))
      rw [hgained]
      refine ⟨?_, s.reads_loop hal hreads hloop⟩
      have hafter : c.reader.afterLoop (gained c.readBuffer b) ret =
          { c.reader with readBuffer := gained c.readBuffer b } := by
        simp only [Reader.afterLoop, Conn.reader, hempty, hfatal, hnoend, List.nil_append,
          Bool.or_false, decide_false]
      have hrequest : c.reader.request = some .read := hpending
      rw [hafter] at hspec
      unfold Reader.settle at hspec
      simp only [hrequest, Option.bind_some, codeFrame] at hspec
      by_cases hgot : gained c.readBuffer b = []
      · have hopen : ¬ (c.reader.closed || c.reader.error) = true := by
          simp [Conn.reader, hclosed, herror]
        simp only [hgot, if_true, if_neg hopen, Prod.mk.injEq] at hspec
        refine .waits hgot hspec.2 (hspec.1.trans ?_)
        simp only [Conn.reader, hempty, hpending]
      · simp only [if_neg hgot, List.take_length, List.drop_length, Prod.mk.injEq] at hspec
        exact .hands hgot hspec.2 hspec.1

/-- Writing and flushing leave the read side alone. -/
theorem write_reader (c : Conn) (bs : Bytes) (al : Alloc) :
    (c.write bs al).1.reader = c.reader := by
  unfold Conn.write
  split <;> rfl

/-- The kernel takes some of what is flushed. -/
theorem flush_reader (c : Conn) (n : Nat) : (c.flush (.wrote n)).1.reader = c.reader := by
  unfold Conn.flush Conn.wrote
  dsimp only
  split
  · rfl
  · split <;> rfl

/-- The writes of an answer. -/
theorem writeAll_reader {writes : List (Bytes × Nat)} {al : Nat → Alloc} {c c' : Conn}
    (h : RpcConn.writeAll c al writes = some c') : c'.reader = c.reader := by
  induction writes generalizing c with
  | nil => rw [← Option.some.inj h]
  | cons p writes ih =>
      obtain ⟨_, hrest⟩ := Option.ite_none_right_eq_some.mp h
      exact (ih hrest).trans (write_reader c p.1 (al p.2))

/-- All calls of `SpeRPCDone` are defined when it comes to `SpeConnRead`. -/
theorem RpcConn.rpcDone_some {r r' : RpcConn} {al : Nat → Alloc} {w : WriteRes}
    (h : r.rpcDone al w = some r') :
    ∃ answer conn, r.answer = some answer ∧
      RpcConn.writeAll r.conn al answer.zipIdx = some conn ∧ conn.writeType = .writeNone ∧
      conn.Defined (.flush w) ∧
      r' = { r with conn := (conn.flush w).1, request := r.request.clean } := by
  unfold RpcConn.rpcDone at h
  cases hwritten : r.written al with
  | none =>
      rw [hwritten] at h
      cases h
  | some conn =>
      obtain ⟨answer, hanswer, hall⟩ := Option.bind_eq_some_iff.mp hwritten
      rw [hwritten] at h
      obtain ⟨hgoes, hsome⟩ := Option.ite_none_left_eq_some.mp h
      obtain ⟨htype, hdefined⟩ := not_or.mp hgoes
      exact ⟨answer, conn, hanswer, hall, not_not.mp htype, not_not.mp hdefined,
        (Option.some.inj hsome).symm⟩

/-- An execution of `write_normal`. -/
theorem writeNormal_reader (c : Conn) (n : Nat) :
    (c.writeNormal false (.wrote n)).1.reader = c.reader := by
  unfold Conn.writeNormal Conn.wrote
  rw [if_neg (by simp)]
  dsimp only
  split <;> rfl

/-- **`SpeRPCDone`** leaves the read side alone, and the next command begins with an empty
request. -/
theorem rpcDone_spec {r r' : RpcConn} {al : Nat → Alloc} {n : Nat}
    (h : r.rpcDone al (.wrote n) = some r') :
    r'.conn.reader = r.conn.reader ∧ r'.status = r.status ∧ r'.request.strings = [] ∧
    r'.request.len ≤ r'.request.data.length := by
  obtain ⟨answer, conn, _, hall, _, _, rfl⟩ := RpcConn.rpcDone_some h
  exact ⟨(flush_reader conn n).trans (writeAll_reader hall), rfl, rfl, Nat.zero_le _⟩

/-- `rpcProcess` sets the response. -/
theorem rpcProcess_spec {r called : RpcConn} {cmdMap : SpeMap RpcHandler} {al : BufsAlloc}
    (h : r.rpcProcess cmdMap al = some called) :
    called.conn = r.conn ∧ called.status = r.status := by
  unfold RpcConn.rpcProcess at h
  split at h
  · cases h
  · dsimp only at h
    split at h
    · obtain rfl := Option.some.inj h
      exact ⟨rfl, rfl⟩
    · obtain rfl := Option.some.inj h
      exact ⟨rfl, rfl⟩

namespace RpcClient

/-- Of the commands, `k` have been dispatched, and the bytes `seen` have arrived since; the
parser is where it would be if it had been given these at once. -/
structure Live (commands : List (List Bytes)) (s : RpcClient) (k : Nat) (seen : Bytes) :
    Prop where
  room : s.rpc.request.len ≤ s.rpc.request.data.length
  closed : s.rpc.conn.closed = false
  error : s.rpc.conn.error = false
  readBuffer : s.rpc.conn.readBuffer.bytes = []
  count : k ≤ commands.length
  dispatched : s.dispatched = (commands.take k).map (fun command => command.map some)
  stream : seen ++ s.rest = (commands.drop k).flatMap encode
  arrived : s.chunks.flatten.length = ((commands.take k).flatMap encode).length + seen.length
  parser : ∃ p d, ∀ x, rpcMachine.run s.rpc.view (s.rpc.conn.buffer.bytes ++ x) =
    rpcMachine.run ⟨.star, p, d, []⟩ (seen ++ x)

/-- What has been dispatched after the last piece was parsed. -/
def Parsed (commands : List (List Bytes)) (chunks : List Bytes) (k : Nat) : Prop :=
  k = handled (completeAfter commands chunks) chunks.length

/-- Where a client is: the last piece is parsed, or waits to be parsed; or the program has
stopped or is undefined. -/
def Inv (commands : List (List Bytes)) (s : RpcClient) : Prop :=
  match s.phase with
  | .accepted => ∃ k seen, s.Live commands k seen ∧ s.rpc.conn.request = none ∧
      Parsed commands s.chunks k
  | .pending => ∃ k seen, s.Live commands k seen ∧ s.rpc.conn.request = some .read ∧
      Parsed commands s.chunks k
  | .posted => ∃ k seen chunks got, s.Live commands k seen ∧ s.rpc.conn.request = none ∧
      s.chunks = chunks ++ [got] ∧ Parsed commands chunks k
  | .aborted => True
  | .refused | .destroyed => False

/-- **A read.**  What it delivers follows what has been seen. -/
theorem Live.delivered {commands : List (List Bytes)} {s : RpcClient} {k : Nat} {seen got : Bytes}
    {r r' : RpcConn} {out : Outcome} (h : Live commands { s with rpc := r } k seen)
    (hparsed : Parsed commands s.chunks k) (hr : r' = { r with conn := r'.conn })
    (hgot : got <+: s.rest) (hto : ReadTo r.conn.reader r'.conn.reader got out) :
    (s.delivered r' got out).Inv commands := by
  have hview : r'.view = r.view := by
    rw [hr]
    rfl
  have hroom : r'.request.len ≤ r'.request.data.length := by
    rw [hr]
    exact h.room
  obtain ⟨more, hmore⟩ := hgot
  have hstream : (seen ++ got) ++ s.rest.drop got.length = (commands.drop k).flatMap encode := by
    have hdrop : s.rest.drop got.length = more := by rw [← hmore, List.drop_left]
    rw [hdrop, List.append_assoc, hmore]
    exact h.stream
  cases hto with
  | waits hnone hout hread =>
      subst hnone hout
      have hclosed : r'.conn.closed = r.conn.closed := congrArg Reader.closed hread
      have herror : r'.conn.error = r.conn.error := congrArg Reader.error hread
      have hreadBuffer : r'.conn.readBuffer.bytes = r.conn.readBuffer.bytes :=
        congrArg Reader.readBuffer hread
      have hbuffer : r'.conn.buffer.bytes = r.conn.buffer.bytes := congrArg Reader.buffer hread
      refine ⟨k, seen, ?_, congrArg Reader.request hread, hparsed⟩
      exact {
        room := hroom
        closed := hclosed.trans h.closed
        error := herror.trans h.error
        readBuffer := hreadBuffer.trans h.readBuffer
        count := h.count
        dispatched := h.dispatched
        stream := by
          rw [List.append_nil] at hstream
          exact hstream
        arrived := h.arrived
        parser := by
          obtain ⟨p, d, hparser⟩ := h.parser
          refine ⟨p, d, fun x => ?_⟩
          change rpcMachine.run r'.view (r'.conn.buffer.bytes ++ x) = _
          rw [hview, hbuffer]
          exact hparser x }
  | hands hne hout hread =>
      subst hout
      have hclosed : r'.conn.closed = r.conn.closed := congrArg Reader.closed hread
      have herror : r'.conn.error = r.conn.error := congrArg Reader.error hread
      have hbuffer : r'.conn.buffer.bytes = r.conn.buffer.bytes ++ got :=
        congrArg Reader.buffer hread
      have hchunks : (s.delivered r' got .done).chunks = s.chunks ++ [got] := if_neg hne
      refine ⟨k, seen ++ got, s.chunks, got, ?_, congrArg Reader.request hread, hchunks, hparsed⟩
      exact {
        room := hroom
        closed := hclosed.trans h.closed
        error := herror.trans h.error
        readBuffer := congrArg Reader.readBuffer hread
        count := h.count
        dispatched := h.dispatched
        stream := hstream
        arrived := by
          have harrived : s.chunks.flatten.length =
            ((commands.take k).flatMap encode).length + seen.length := h.arrived
          rw [hchunks]
          simp only [List.flatten_append, List.flatten_cons, List.flatten_nil, List.append_nil,
            List.length_append, harrived]
          omega
        parser := by
          obtain ⟨p, d, hparser⟩ := h.parser
          refine ⟨p, d, fun x => ?_⟩
          change rpcMachine.run r'.view (r'.conn.buffer.bytes ++ x) = _
          rw [hview, hbuffer, List.append_assoc, List.append_assoc]
          exact hparser (got ++ x) }

/-- **`SpeConnRead`** with nothing left to parse. -/
theorem Live.read {commands : List (List Bytes)} {s : RpcClient} {k : Nat} {seen : Bytes}
    {r : RpcConn} {al : Allocs} {rr : ReadRes} (h : Live commands { s with rpc := r } k seen)
    (hparsed : Parsed commands s.chunks k) (hidle : r.conn.request = none) (hal : al.Good)
    (hreads : s.Reads rr) : (s.read r al rr).Inv commands := by
  unfold RpcClient.read
  split
  · exact h.delivered hparsed rfl (hreads.append hal)
      (read_to hal hreads h.closed h.error h.readBuffer hidle)
  · trivial

/-- How many commands have been dispatched after the next piece is parsed. -/
theorem Live.parsed_next {commands : List (List Bytes)} {s : RpcClient} {k : Nat}
    {seen got : Bytes} {chunks : List Bytes} (h : Live commands s k seen)
    (hchunks : s.chunks = chunks ++ [got]) (hparsed : Parsed commands chunks k) :
    Parsed commands s.chunks (min (k + 1) (k + completeIn (commands.drop k) seen.length)) := by
  have hlast : completeAfter commands s.chunks (chunks.length + 1) =
      k + completeIn (commands.drop k) seen.length := by
    unfold completeAfter
    rw [List.take_of_length_le (by simp [hchunks]), h.arrived, completeIn_drop h.count]
  have hbefore : handled (completeAfter commands s.chunks) chunks.length = k := by
    rw [hchunks, hparsed]
    exact handled_congr (fun j hj => completeAfter_append commands chunks [got] hj)
  unfold Parsed
  have hlength : s.chunks.length = chunks.length + 1 := by simp [hchunks]
  rw [hlength, handled, hbefore, hlast]

/-- **Part of a command** has arrived: the parser waits for more. -/
theorem part_waits {args : List Bytes} (hne : args ≠ []) (hplain : PlainArgs args) {p d : Int}
    {seen rest more : Bytes} (hstream : seen ++ rest = encode args ++ more)
    (hlen : seen.length < (encode args).length) :
    ∃ s₁ left, rpcMachine.run ⟨.star, p, d, []⟩ seen = some (.waits s₁ left) ∧
      ∀ x, rpcMachine.run s₁ (left ++ x) = rpcMachine.run ⟨.star, p, d, []⟩ (seen ++ x) := by
  obtain ⟨s', hrun, _⟩ := (run_encode_iff hne p d []).mpr hplain
  rw [List.append_nil] at hrun
  have hprefix : seen <+: encode args :=
    List.prefix_of_prefix_length_le ⟨rest, hstream⟩ ⟨more, rfl⟩ (Nat.le_of_lt hlen)
  obtain ⟨left, hleft⟩ := hprefix
  refine (Machine.Takes.of_run hrun).part hleft.symm ?_
  rintro rfl
  rw [List.append_nil] at hleft
  rw [hleft] at hlen
  exact Nat.lt_irrefl _ hlen

/-- The parser waits. -/
theorem Live.waiting {commands : List (List Bytes)} {s : RpcClient} {k : Nat} {seen left : Bytes}
    {p d : Int} {s₁ : ParseState} {r : RpcConn} (h : Live commands s k seen) (hr : r.view = s₁)
    (hleft : r.conn.buffer.bytes = left) (hkeep : s.rpc.Keeps r)
    (hmore : ∀ x, rpcMachine.run s₁ (left ++ x) = rpcMachine.run ⟨.star, p, d, []⟩ (seen ++ x)) :
    Live commands { s with rpc := r } k seen ∧ r.conn.request = s.rpc.conn.request := by
  have hreader : r.conn.reader = { s.rpc.conn.reader with buffer := left } := by
    rw [hkeep.conn, ← hleft]
    rfl
  refine ⟨?_, congrArg Reader.request hreader⟩
  exact {
    room := hkeep.room h.room
    closed := (congrArg Reader.closed hreader).trans h.closed
    error := (congrArg Reader.error hreader).trans h.error
    readBuffer := (congrArg Reader.readBuffer hreader).trans h.readBuffer
    count := h.count
    dispatched := h.dispatched
    stream := h.stream
    arrived := h.arrived
    parser := by
      refine ⟨p, d, fun x => ?_⟩
      change rpcMachine.run r.view (r.conn.buffer.bytes ++ x) = _
      rw [hr, hleft]
      exact hmore x }

/-- A command is dispatched and answered. -/
theorem Live.dispatching {commands : List (List Bytes)} {s : RpcClient} {k : Nat} {seen : Bytes}
    {command : List Bytes} {later : List (List Bytes)} {r r' : RpcConn}
    (h : Live commands s k (encode command ++ seen)) (hdrop : commands.drop k = command :: later)
    (hstrings : r.request.strings = command.map some)
    (hreader : r'.conn.reader = { s.rpc.conn.reader with buffer := seen })
    (hstar : r'.status = .star) (hempty : r'.request.strings = [])
    (hroom : r'.request.len ≤ r'.request.data.length) :
    Live commands { s with dispatched := s.dispatched ++ [r.request.strings], rpc := r' }
      (k + 1) seen := by
  have hlt : k < commands.length := by
    have hlength := congrArg List.length hdrop
    rw [List.length_drop, List.length_cons] at hlength
    omega
  have hget := List.drop_eq_getElem_cons hlt
  rw [hdrop] at hget
  have htake : commands.take (k + 1) = commands.take k ++ [command] := by
    rw [List.take_succ_eq_append_getElem hlt, (List.cons.inj hget).1]
  exact {
    room := hroom
    closed := (congrArg Reader.closed hreader).trans h.closed
    error := (congrArg Reader.error hreader).trans h.error
    readBuffer := (congrArg Reader.readBuffer hreader).trans h.readBuffer
    count := hlt
    dispatched := by
      rw [htake, List.map_append, ← h.dispatched, hstrings]
      rfl
    stream := by
      have hstream := h.stream
      rw [hdrop, List.flatMap_cons, List.append_assoc] at hstream
      rw [← (List.cons.inj hget).2]
      exact List.append_cancel_left hstream
    arrived := by
      have harrived := h.arrived
      rw [htake, List.flatMap_append, List.flatMap_cons, List.flatMap_nil, List.append_nil,
        List.length_append]
      rw [List.length_append] at harrived
      dsimp only
      omega
    parser := by
      refine ⟨r'.paramLeft, r'.dataLeft, fun x => ?_⟩
      have hview : r'.view = ⟨.star, r'.paramLeft, r'.dataLeft, []⟩ := by
        unfold RpcConn.view
        rw [hstar, hempty]
      have hbuffer : r'.conn.buffer.bytes = seen := congrArg Reader.buffer hreader
      change rpcMachine.run r'.view (r'.conn.buffer.bytes ++ x) = _
      rw [hview, hbuffer] }

/-- A command is complete, or the parser waits. -/
theorem Live.complete_or_waits {commands : List (List Bytes)}
    (hplain : ∀ command ∈ commands, command ≠ [] ∧ PlainArgs command) {s : RpcClient} {k : Nat}
    {seen : Bytes} (h : Live commands s k seen) (p d : Int) :
    (∃ command later seen', commands.drop k = command :: later ∧ seen = encode command ++ seen') ∨
    (completeIn (commands.drop k) seen.length = 0 ∧ ∃ s₁ left,
      rpcMachine.run ⟨.star, p, d, []⟩ seen = some (.waits s₁ left) ∧
      ∀ x, rpcMachine.run s₁ (left ++ x) = rpcMachine.run ⟨.star, p, d, []⟩ (seen ++ x)) := by
  have hstream := h.stream
  cases hdrop : commands.drop k with
  | nil =>
      rw [hdrop] at hstream
      obtain ⟨rfl, _⟩ := List.append_eq_nil_iff.mp hstream
      exact Or.inr ⟨rfl, _, [], rfl, fun _ => rfl⟩
  | cons command later =>
      rw [hdrop, List.flatMap_cons] at hstream
      by_cases hlen : (encode command).length ≤ seen.length
      · obtain ⟨seen', rfl⟩ : encode command <+: seen :=
          List.prefix_of_prefix_length_le ⟨_, rfl⟩ ⟨_, hstream⟩ hlen
        exact Or.inl ⟨command, later, seen', rfl, rfl⟩
      · have hmem : command ∈ commands := List.mem_of_mem_drop (hdrop ▸ List.mem_cons_self)
        refine Or.inr ⟨?_, part_waits (hplain command hmem).1 (hplain command hmem).2 hstream
          (Nat.lt_of_not_le hlen)⟩
        rw [completeIn, if_neg hlen]

/-- What `rpcParse` finds: the next command is complete, or the parser waits, unless a piece does
not fit where it is copied to. -/
theorem Live.rpcParse {commands : List (List Bytes)}
    (hplain : ∀ command ∈ commands, command ≠ [] ∧ PlainArgs command) {s : RpcClient} {k : Nat}
    {seen : Bytes} (h : Live commands s k seen) {als : Nat → BufsAlloc} (hal : ∀ n, (als n).Good) :
    (∃ r command later seen', s.rpc.rpcParse als = some (.process r) ∧
      commands.drop k = command :: later ∧ seen = encode command ++ seen' ∧
      r.request.strings = command.map some ∧ r.status = .star ∧
      r.conn.reader = { s.rpc.conn.reader with buffer := seen' }) ∨
    (∃ r, s.rpc.rpcParse als = some (.read r) ∧ completeIn (commands.drop k) seen.length = 0 ∧
      Live commands { s with rpc := r } k seen ∧ r.conn.request = s.rpc.conn.request) ∨
    s.rpc.rpcParse als = some .undefined := by
  obtain ⟨p, d, hparser⟩ := h.parser
  have hview := s.rpc.rpcParse_view hal h.room h.closed h.error
  have hsame := hparser []
  rw [List.append_nil, List.append_nil] at hsame
  rw [hsame] at hview
  rcases h.complete_or_waits hplain p d with
    ⟨command, later, seen', hdrop, rfl⟩ | ⟨hzero, s₁, left, hrun, hmore⟩
  · have hmem : command ∈ commands := List.mem_of_mem_drop (hdrop ▸ List.mem_cons_self)
    obtain ⟨s₁, hrun, hrequest⟩ :=
      (run_encode_iff (hplain command hmem).1 p d seen').mpr (hplain command hmem).2
    rw [hrun] at hview
    cases hparse : s.rpc.rpcParse als with
    | none => rw [hparse] at hview; cases hview
    | some parsed =>
        rw [hparse] at hview
        cases parsed with
        | read r => cases hview
        | errout => cases hview
        | undefined => exact Or.inr (Or.inr rfl)
        | process r =>
            obtain ⟨hr, hleft, hkeep⟩ := hview
            refine Or.inl ⟨r, command, later, seen', rfl, hdrop, rfl, ?_, ?_, ?_⟩
            · exact (congrArg ParseState.request hr).trans hrequest
            · exact (congrArg ParseState.status hr).trans (done_star hrun).1
            · rw [hkeep.conn, ← hleft]
              rfl
  · rw [hrun] at hview
    cases hparse : s.rpc.rpcParse als with
    | none => rw [hparse] at hview; cases hview
    | some parsed =>
        rw [hparse] at hview
        cases parsed with
        | process r => cases hview
        | errout => cases hview
        | undefined => exact Or.inr (Or.inr rfl)
        | read r =>
            obtain ⟨hr, hleft, hkeep⟩ := hview
            obtain ⟨hlive, hidle⟩ := h.waiting hr hleft hkeep hmore
            exact Or.inr (Or.inl ⟨r, rfl, hzero, hlive, hidle⟩)

/-- **An execution of `rpcParse`.** -/
theorem Live.parse {commands : List (List Bytes)}
    (hplain : ∀ command ∈ commands, command ≠ [] ∧ PlainArgs command) {s s' : RpcClient} {k : Nat}
    {seen got : Bytes} {chunks : List Bytes} (h : Live commands s k seen)
    (hidle : s.rpc.conn.request = none) (hchunks : s.chunks = chunks ++ [got])
    (hparsed : Parsed commands chunks k) {cmdMap : SpeMap RpcHandler} {ans : RpcAnswers}
    (hgranted : s.Granted (.parse ans)) (hstep : s.parse cmdMap ans = some s') :
    s'.Inv commands := by
  obtain ⟨hrequest, ⟨n, hflush⟩, hal, hreads⟩ := hgranted
  have hnext := h.parsed_next hchunks hparsed
  unfold RpcClient.parse at hstep
  rcases h.rpcParse hplain hrequest with
    ⟨r, command, later, seen', hparse, hdrop, rfl, hstrings, hstar, hreader⟩ |
    ⟨r, hparse, hzero, hlive, hsame⟩ | hparse
  · have hk : min (k + 1) (k + completeIn (commands.drop k)
        (encode command ++ seen').length) = k + 1 := by
      rw [hdrop, completeIn, if_pos (by simp)]
      omega
    rw [hk] at hnext
    simp only [hparse, hflush] at hstep
    cases hcalled : r.rpcProcess cmdMap ans.response with
    | none =>
        rw [hcalled] at hstep
        obtain rfl := Option.some.inj hstep
        trivial
    | some called =>
        rw [hcalled] at hstep
        dsimp only at hstep
        obtain ⟨hconn, hstatus⟩ := rpcProcess_spec hcalled
        cases hdone : called.rpcDone ans.writes (.wrote n) with
        | none =>
            rw [hdone] at hstep
            obtain rfl := Option.some.inj hstep
            trivial
        | some r' =>
            rw [hdone] at hstep
            obtain rfl := Option.some.inj hstep
            obtain ⟨hreader', hstatus', hempty, hroom⟩ := rpcDone_spec hdone
            rw [hconn, hreader] at hreader'
            have hlive := h.dispatching hdrop hstrings hreader'
              (hstatus'.trans (hstatus.trans hstar)) hempty hroom
            exact hlive.read hnext ((congrArg Reader.request hreader').trans hidle) hal hreads
  · have hk : min (k + 1) (k + completeIn (commands.drop k) seen.length) = k := by omega
    rw [hk] at hnext
    simp only [hparse, Option.some.injEq] at hstep
    obtain rfl := hstep
    exact hlive.read hnext (hsame.trans hidle) hal hreads
  · simp only [hparse, Option.some.injEq] at hstep
    obtain rfl := hstep
    trivial

/-- Only the read side of the connection matters. -/
theorem Live.of_reader {commands : List (List Bytes)} {s : RpcClient} {k : Nat} {seen : Bytes}
    {c : Conn} (h : Live commands s k seen) (hc : c.reader = s.rpc.conn.reader) :
    Live commands (s.setConn c) k seen where
  room := h.room
  closed := (congrArg Reader.closed hc).trans h.closed
  error := (congrArg Reader.error hc).trans h.error
  readBuffer := (congrArg Reader.readBuffer hc).trans h.readBuffer
  count := h.count
  dispatched := h.dispatched
  stream := h.stream
  arrived := h.arrived
  parser := by
    have hbuffer : c.buffer.bytes = s.rpc.conn.buffer.bytes := congrArg Reader.buffer hc
    obtain ⟨p, d, hparser⟩ := h.parser
    refine ⟨p, d, fun x => ?_⟩
    change rpcMachine.run s.rpc.view (c.buffer.bytes ++ x) = _
    rw [hbuffer]
    exact hparser x

/-- An execution of `write_normal` changes nothing for the reads. -/
theorem Inv.writeNormal {commands : List (List Bytes)} {s : RpcClient} {c : Conn}
    (h : s.Inv commands) (hc : c.reader = s.rpc.conn.reader) :
    (s.setConn c).Inv commands := by
  have hrequest : c.request = s.rpc.conn.request := congrArg Reader.request hc
  have hsame : (s.setConn c).phase = s.phase := rfl
  unfold Inv at h ⊢
  rw [hsame]
  cases hphase : s.phase with
  | accepted =>
      simp only [hphase] at h
      obtain ⟨k, seen, hlive, hidle, hparsed⟩ := h
      exact ⟨k, seen, hlive.of_reader hc, hrequest.trans hidle, hparsed⟩
  | pending =>
      simp only [hphase] at h
      obtain ⟨k, seen, hlive, hpending, hparsed⟩ := h
      exact ⟨k, seen, hlive.of_reader hc, hrequest.trans hpending, hparsed⟩
  | posted =>
      simp only [hphase] at h
      obtain ⟨k, seen, chunks, got, hlive, hidle, hrest⟩ := h
      exact ⟨k, seen, chunks, got, hlive.of_reader hc, hrequest.trans hidle, hrest⟩
  | aborted => trivial
  | refused => simp only [hphase] at h
  | destroyed => simp only [hphase] at h

/-- **Step lemma.** -/
theorem Inv.step {commands : List (List Bytes)}
    (hplain : ∀ command ∈ commands, command ≠ [] ∧ PlainArgs command)
    {cmdMap : SpeMap RpcHandler} {s s' : RpcClient} {ev : RpcEvent} (h : s.Inv commands)
    (hgranted : s.Granted ev) (hstep : s.step cmdMap ev = some s') : s'.Inv commands := by
  unfold Inv at h
  cases ev with
  | handler al r =>
      simp only [RpcClient.step, Option.ite_none_right_eq_some, Option.some.injEq] at hstep
      obtain ⟨hphase, rfl⟩ := hstep
      simp only [hphase] at h
      obtain ⟨k, seen, hlive, hidle, hparsed⟩ := h
      exact Live.read hlive hparsed hidle hgranted.1 hgranted.2
  | parse ans =>
      simp only [RpcClient.step, Option.ite_none_right_eq_some] at hstep
      obtain ⟨hphase, hstep⟩ := hstep
      simp only [hphase] at h
      obtain ⟨k, seen, chunks, got, hlive, hidle, hchunks, hparsed⟩ := h
      exact hlive.parse hplain hidle hchunks hparsed hgranted hstep
  | readNormal al rs =>
      simp only [RpcClient.step, Option.ite_none_right_eq_some] at hstep
      obtain ⟨hphase, hstep⟩ := hstep
      simp only [hphase] at h
      obtain ⟨k, seen, hlive, hpending, hparsed⟩ := h
      obtain ⟨⟨c, out⟩, hrun, rfl⟩ := Option.map_eq_some_iff.mp hstep
      obtain ⟨hto, hgot⟩ := readNormal_to hgranted.1 hgranted.2 hlive.closed hlive.error
        hlive.readBuffer hpending hrun
      dsimp only
      split
      · exact Live.delivered hlive hparsed rfl hgot hto
      · trivial
  | writeNormal w =>
      simp only [RpcClient.step, Option.ite_none_right_eq_some, Option.some.injEq] at hstep
      obtain ⟨_, rfl⟩ := hstep
      obtain ⟨n, rfl⟩ := hgranted
      unfold RpcClient.writeNormal
      split
      · exact Inv.writeNormal h (writeNormal_reader s.rpc.conn n)
      · trivial

/-- The start. -/
theorem inv_start (commands : List (List Bytes)) (conn : Conn) (fd : Nat) :
    (start conn fd (commands.flatMap encode)).Inv commands := by
  obtain ⟨hbuffer, hreadBuffer, _⟩ := conn.create_bytes fd
  refine ⟨0, [], ?_, rfl, rfl⟩
  exact {
    room := Nat.le_refl 0
    closed := rfl
    error := rfl
    readBuffer := hreadBuffer
    count := Nat.zero_le _
    dispatched := rfl
    stream := rfl
    arrived := rfl
    parser := by
      refine ⟨0, 0, fun x => ?_⟩
      change rpcMachine.run ⟨.star, 0, 0, []⟩ ((conn.create fd).buffer.bytes ++ x) = _
      rw [hbuffer] }

/-- A command of one short argument. -/
theorem plain_single {arg : Bytes} (hlen : arg.length < 2 ^ 31) (hplain : ¬ [13, 10] <:+: arg) :
    [arg] ≠ [] ∧ PlainArgs [arg] := by
  refine ⟨by simp, (by decide : 1 < 2 ^ 31), ?_, ?_⟩
  · intro arg' harg
    rwa [List.mem_singleton.mp harg]
  · intro arg' harg
    rwa [List.mem_singleton.mp harg]

/-- An allocator that answers. -/
def allocating : Allocs := ⟨some fun _ => 0, some fun _ => 0⟩

theorem allocating_good : allocating.Good := ⟨rfl, rfl⟩

/-- The kernel takes what is written, and the next read is answered so. -/
def taking (r : ReadRes) : RpcAnswers :=
  ⟨fun _ => answering, answering, fun _ => some fun _ => 0, .wrote 100, allocating, r⟩

/-- A map without commands. -/
def noCommands : SpeMap RpcHandler := SpeMap.create 1 false

/-- An execution of `rpcParse` to which the kernel answers so is allowed. -/
theorem taking_granted {s : RpcClient} {r : ReadRes} (hreads : s.Reads r) :
    s.Granted (.parse (taking r)) :=
  ⟨fun _ => answering_good, ⟨100, rfl⟩, allocating_good, hreads⟩

end RpcClient

end Spe
