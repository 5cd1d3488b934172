import Spe.RpcPackets
import Spe.ConnWrite

/-!
# Answers in the order of the commands (`spe_rpc.c`)

A handler need not answer before it returns: it may keep the `speRPCConn_t`, fill the response
later and call `SpeRPCDone` then.  Until it does, the connection is not read, so the request
stays as it is and no other command is dispatched; what is left of earlier answers may be
written in the meantime.

However late the handlers answer and however the kernel takes what is written, the answers go
out in the order of the commands, one for each (`answers_in_order`).  A client that reads line
by line gets them back as long as no message holds a CRLF.  A handler is taken to call
`SpeRPCDone` once.
-/

namespace Spe

open Transition

/-- What a message begins with and what it says: the line that `SpeRPCDone` sends, if any. -/
abbrev Answer := Option (UInt8 × Bytes)

/-- An answer on the wire. -/
def Answer.bytes : Answer → Bytes
  | none => []
  | some (c, msg) => c :: msg ++ [13, 10]

/-- The line that `SpeRPCDone` sends. -/
def RpcConn.line (r : RpcConn) : Answer :=
  match r.respType with
  | .ok => r.respMsg.first.map fun msg => (43, msg.bytes)
  | .err => r.respMsg.first.map fun msg => (45, msg.bytes)
  | .num => r.respMsg.first.map fun msg => (58, formatLong (strtol (msg.cstrAt 0)))
  | _ => none

/-- The arguments of `SpeConnWrite` make the line. -/
theorem RpcConn.answer_flatten {r : RpcConn} {answer : List Bytes} (h : r.answer = some answer) :
    answer.flatten = r.line.bytes := by
  unfold RpcConn.answer at h
  unfold RpcConn.line
  cases htype : r.respType with
  | ok | err =>
      rw [htype] at h
      obtain ⟨msg, hmsg, rfl⟩ := Option.map_eq_some_iff.mp h
      simp [hmsg, Answer.bytes]
  | num =>
      rw [htype] at h
      obtain ⟨msg, hmsg, h⟩ := Option.bind_eq_some_iff.mp h
      obtain ⟨_, hsome⟩ := Option.ite_none_left_eq_some.mp h
      obtain rfl := Option.some.inj hsome
      simp [hmsg, Answer.bytes]
  | none | bulk | mbulk =>
      rw [htype] at h
      obtain rfl := Option.some.inj h
      rfl

/-- The connection writes no more. -/
def Conn.broken (c : Conn) : Bool := c.closed || c.error

/-- What the kernel takes in the flush of `SpeRPCDone`. -/
def RpcConn.taken (r : RpcConn) (al : Nat → Alloc) (w : WriteRes) : Bytes :=
  match r.written al with
  | none => []
  | some conn => if conn.broken then [] else w.taken conn.writeBuffer.bytes

/-- `rpcProcess` with a handler that may answer later.  The Boolean tells whether there is a
handler; without one the response says so. -/
def RpcConn.rpcDispatch (r : RpcConn) (cmdMap : SpeMap Unit) (al : BufsAlloc) :
    Option (RpcConn × Bool) :=
  r.command.map fun name =>
    let r : RpcConn := { r with respMsg := r.respMsg.clean }
    if (cmdMap.get name).isSome then (r, true)
    else ({ r with respType := .err, respMsg := (r.respMsg.append cmdNotSupportErr al).1 }, false)

/-- A client with a handler that may be at work.  The rest is history: what has been answered
to which request, and what the kernel has taken. -/
structure RpcSession where
  client : RpcClient
  handling : Bool
  answered : List (List (Option Bytes) × Answer)
  accepted : Bytes

/-- What can happen: as to a client, and `SpeRPCDone` with a response of the handler. -/
inductive SessionEvent
  | handler (al : Allocs) (r : ReadRes)
  | parse (ans : RpcAnswers)
  | done (type : RpcMsg) (msg : Bufs) (ans : RpcAnswers)
  | readNormal (al : Allocs) (rs : List ReadRes)
  | writeNormal (w : WriteRes)

namespace RpcSession

/-- `rpcHandler` with a new connection. -/
def start (conn : Conn) (fd : Nat) (stream : Bytes) : RpcSession where
  client := RpcClient.start conn fd stream
  handling := false
  answered := []
  accepted := []

variable (s : RpcSession)

/-- The program has stopped, or it is undefined what it does from here on. -/
def abort : RpcSession := { s with client := s.client.abort, handling := false }

/-- `SpeRPCDone`. -/
def rpcDone (r : RpcConn) (ans : RpcAnswers) : RpcSession :=
  match r.rpcDone ans.writes ans.flush with
  | none => s.abort
  | some r' =>
      { client := s.client.read r' ans.read ans.data
        handling := false
        answered := s.answered ++ [(r.request.strings, r.line)]
        accepted := s.accepted ++ r.taken ans.writes ans.flush }

/-- An execution of `rpcParse`. -/
def parse (cmdMap : SpeMap Unit) (ans : RpcAnswers) : Option RpcSession :=
  match s.client.rpc.rpcParse ans.request with
  | none => none
  | some .errout => some { s with client := { s.client with phase := .destroyed } }
  | some .undefined => some s.abort
  | some (.read r) => some { s with client := s.client.read r ans.read ans.data }
  | some (.process r) =>
      match r.rpcDispatch cmdMap ans.response with
      | none => some s.abort
      | some (called, found) =>
          let s : RpcSession := { s with
            client := { s.client with
              rpc := called
              dispatched := s.client.dispatched ++ [r.request.strings] } }
          if found then some { s with handling := true } else some (s.rpcDone called ans)

/-- An execution of `write_normal`. -/
def writeNormal (w : WriteRes) : RpcSession :=
  if s.client.rpc.conn.Defined (.writeNormal false w) then
    { s with
      client := s.client.writeNormal w
      accepted := s.accepted ++ w.taken s.client.rpc.conn.writeBuffer.bytes }
  else s.abort

/-- The step of a session. -/
def step (cmdMap : SpeMap Unit) (s : RpcSession) : SessionEvent → Option RpcSession
  | .handler al r =>
      if s.client.phase = .accepted then
        some { s with client := s.client.read s.client.rpc al r }
      else none
  | .parse ans => if s.client.phase = .posted ∧ ¬ s.handling then s.parse cmdMap ans else none
  | .done type msg ans =>
      if s.handling then
        let r : RpcConn := { s.client.rpc with respType := type, respMsg := msg }
        some (RpcSession.rpcDone { s with client := { s.client with rpc := r } } r ans)
      else none
  | .readNormal al rs =>
      if s.client.phase = .pending ∧ ¬ s.handling then
        (s.client.readNormal al rs).map fun client => { s with client := client }
      else none
  | .writeNormal w =>
      if s.client.rpc.conn.writeType ≠ .writeNone ∧ s.client.phase ≠ .aborted ∧
          s.client.phase ≠ .destroyed then
        some (s.writeNormal w)
      else none

/-- The allocations for what is written succeed. -/
def Granted (_ : RpcSession) : SessionEvent → Prop
  | .parse ans => ∀ n, (ans.writes n).isSome
  | .done _ _ ans => ∀ n, (ans.writes n).isSome
  | _ => True

end RpcSession

/-- What a client makes of what it has received: the lines, without the CRLF. -/
def readLines (data : Bytes) : List (UInt8 × Bytes) :=
  match _hpos : checkToken data with
  | none => []
  | some pos =>
      match data.take pos with
      | [] => readLines (data.drop (pos + 2))
      | c :: msg => (c, msg) :: readLines (data.drop (pos + 2))
termination_by data.length
decreasing_by
  all_goals
    have hbound := checkToken_bound _hpos
    rw [List.length_drop]
    omega

/-! ## The connection -/

/-- What happens to the write side: `taken` was taken by the kernel, `added` was written.  A
connection that is broken stays so. -/
structure Conn.Moves (c c' : Conn) (taken added : Bytes) : Prop where
  bytes : taken ++ c'.writeBuffer.bytes = c.writeBuffer.bytes ++ added
  broken : c.broken = true → c'.broken = true

/-- Nothing that concerns the write side. -/
theorem Conn.Moves.of_keep {c c' : Conn} (hbuffer : c'.writeBuffer = c.writeBuffer)
    (hbroken : c.broken = true → c'.broken = true) : c.Moves c' [] [] :=
  ⟨by simp [hbuffer], hbroken⟩

/-- One after the other. -/
theorem Conn.Moves.trans {c c' c'' : Conn} {taken taken' added added' : Bytes}
    (h : c.Moves c' taken added) (h' : c'.Moves c'' taken' added') :
    c.Moves c'' (taken ++ taken') (added ++ added') := by
  refine ⟨?_, fun hbroken => h'.broken (h.broken hbroken)⟩
  rw [List.append_assoc, h'.bytes, ← List.append_assoc, h.bytes, List.append_assoc]

/-- `SpeConnRead`. -/
theorem read_moves (c : Conn) (al : Allocs) (r : ReadRes) : c.Moves (c.read al r).1 [] [] := by
  refine .of_keep (issue_reads c .read al r).writeBuffer ?_
  intro hbroken
  rw [Conn.broken] at hbroken
  rw [Conn.read, if_pos hbroken]
  exact hbroken

/-- The end of `read_normal` does not mend a connection. -/
theorem settle_broken {c : Conn} (al : Allocs) (h : c.broken = true) :
    (c.settle al).1.broken = true := by
  rw [Conn.settle]
  cases hcheck : c.checkReadType al with
  | none =>
      dsimp only
      split <;> exact h
  | some c' =>
      have hsame : c'.broken = c.broken := by
        rw [Conn.checkReadType] at hcheck
        split at hcheck
        · obtain ⟨pos, _, rfl⟩ := Option.map_eq_some_iff.mp hcheck
          rfl
        · obtain ⟨_, hsome⟩ := Option.ite_none_right_eq_some.mp hcheck
          obtain rfl := Option.some.inj hsome
          rfl
        · obtain ⟨_, hsome⟩ := Option.ite_none_right_eq_some.mp hcheck
          obtain rfl := Option.some.inj hsome
          rfl
        · cases hcheck
      exact hsame.trans h

/-- An execution of `read_normal`. -/
theorem readNormal_moves {c c' : Conn} {al : Allocs} {rs : List ReadRes} {out : Outcome}
    (h : c.readNormal false al rs = some (c', out)) : c.Moves c' [] [] := by
  refine .of_keep (readNormal_only h).1.writeBuffer ?_
  intro hbroken
  rw [Conn.readNormal, if_neg (by simp)] at h
  cases hloop : Conn.readLoop c.readBuffer al rs with
  | none => simp [hloop] at h
  | some res =>
      simp only [hloop, Option.some.injEq] at h
      have hafter : (c.afterLoop res.1 res.2).broken = true := by
        simp only [Conn.broken, Conn.afterLoop, Bool.or_eq_true] at hbroken ⊢
        exact hbroken.imp Or.inl Or.inl
      have hsettle := settle_broken al hafter
      rw [h] at hsettle
      exact hsettle

/-- A `write` system call. -/
theorem wrote_moves (c : Conn) (w : WriteRes) :
    c.Moves (c.wrote w).1 (w.taken c.writeBuffer.bytes) [] := by
  refine ⟨by rw [wrote_spec, List.append_nil], ?_⟩
  intro hbroken
  simp only [Conn.broken, Bool.or_eq_true] at hbroken ⊢
  cases w with
  | wrote n => exact hbroken
  | err e =>
      cases e with
      | epipe => exact Or.inl rfl
      | eagain | eintr | other => exact Or.inr rfl

/-- `SpeConnFlush`: a connection that is broken is left alone. -/
theorem flush_moves (c : Conn) (w : WriteRes) :
    c.Moves (c.flush w).1 (if c.broken then [] else w.taken c.writeBuffer.bytes) [] := by
  have hwrote := wrote_moves c w
  unfold Conn.flush Conn.broken
  by_cases hbroken : c.closed || c.error
  · rw [if_pos hbroken, if_pos hbroken]
    exact .of_keep rfl id
  · rw [if_neg hbroken, if_neg hbroken]
    dsimp only
    split
    · exact hwrote
    · exact ⟨hwrote.bytes, hwrote.broken⟩

/-- An execution of `write_normal`. -/
theorem writeNormal_moves (c : Conn) (w : WriteRes) :
    c.Moves (c.writeNormal false w).1 (w.taken c.writeBuffer.bytes) [] := by
  have hwrote := wrote_moves c w
  unfold Conn.writeNormal
  rw [if_neg (by simp)]
  dsimp only
  split
  · exact ⟨hwrote.bytes, hwrote.broken⟩
  · exact hwrote

/-- The calls of `SpeConnWrite` add their arguments, unless the connection is broken. -/
theorem writeAll_moves {c c' : Conn} {al : Nat → Alloc} (hal : ∀ n, (al n).isSome)
    {writes : List (Bytes × Nat)} (h : RpcConn.writeAll c al writes = some c') :
    c.Moves c' [] (if c.broken then [] else (writes.map Prod.fst).flatten) ∧
      c'.broken = c.broken := by
  induction writes generalizing c with
  | nil =>
      obtain rfl := Option.some.inj h
      exact ⟨⟨by simp, id⟩, rfl⟩
  | cons p writes ih =>
      obtain ⟨_, hlater⟩ := Option.ite_none_right_eq_some.mp h
      obtain ⟨hrest, hsame⟩ := ih hlater
      by_cases hbroken : c.broken = true
      · have hwrite : (c.write p.1 (al p.2)).1 = c := by
          rw [Conn.broken] at hbroken
          rw [Conn.write, if_pos hbroken]
        rw [hwrite] at hrest hsame
        rw [if_pos hbroken] at hrest ⊢
        exact ⟨hrest, hsame⟩
      · have hopen : ¬ (c.closed || c.error) = true := hbroken
        have hwrite : (c.write p.1 (al p.2)).1 =
            { c with writeBuffer := (c.writeBuffer.append p.1 (al p.2)).1 } := by
          rw [Conn.write, if_neg hopen]
        have hsame' : (c.write p.1 (al p.2)).1.broken = c.broken := by rw [hwrite]; rfl
        have hfirst : c.Moves (c.write p.1 (al p.2)).1 [] p.1 := by
          refine ⟨?_, fun h => hsame'.trans h⟩
          rw [hwrite, List.nil_append]
          exact ByteBuf.bytes_append_ok _ p.1 (hal p.2)
        rw [hsame', if_neg hbroken] at hrest
        refine ⟨?_, hsame.trans hsame'⟩
        rw [if_neg hbroken, List.map_cons, List.flatten_cons]
        exact hfirst.trans hrest

/-- The same connection with another public buffer. -/
def RpcConn.Fed (r r' : RpcConn) : Prop :=
  ∃ buffer, r'.conn = { r.conn with buffer := buffer }

/-- Parsing takes bytes from the public buffer only. -/
theorem RpcConn.round_fed {r r' : RpcConn} {pos : Nat} {al : BufsAlloc}
    (h : r.round pos al = .more r' ∨ r.round pos al = .process r') : r.Fed r' := by
  unfold RpcConn.round at h
  cases hstatus : r.status with
  | star =>
      simp only [hstatus] at h
      split at h
      · simp at h
      · split at h
        · simp at h
        · simp only [RpcRound.more.injEq, reduceCtorEq, or_false] at h
          exact ⟨_, by rw [← h]; rfl⟩
  | parm =>
      simp only [hstatus] at h
      split at h
      · simp at h
      · split at h
        · simp at h
        · simp only [RpcRound.more.injEq, reduceCtorEq, or_false] at h
          exact ⟨_, by rw [← h]; rfl⟩
  | data =>
      simp only [hstatus] at h
      split at h
      · simp at h
      · split at h
        · split at h
          · simp at h
          · simp only [RpcRound.more.injEq, reduceCtorEq, or_false] at h
            exact ⟨_, by rw [← h]; rfl⟩
        · split at h
          · simp at h
          · split at h
            · simp only [RpcRound.process.injEq, reduceCtorEq, false_or] at h
              exact ⟨_, by rw [← h]; rfl⟩
            · simp only [RpcRound.more.injEq, reduceCtorEq, or_false] at h
              exact ⟨_, by rw [← h]; rfl⟩

/-- The rounds of the loop. -/
theorem RpcConn.parseLoop_fed {als : Nat → BufsAlloc} {n : Nat} {r r' : RpcConn}
    (h : RpcConn.parseLoop als n r = some (.read r') ∨
      RpcConn.parseLoop als n r = some (.process r')) : r.Fed r' := by
  induction n generalizing r with
  | zero => simp [RpcConn.parseLoop] at h
  | succ n ih =>
      rw [RpcConn.parseLoop] at h
      cases hpos : checkToken r.conn.buffer.bytes with
      | none =>
          simp only [hpos, Option.some.injEq, RpcParsed.read.injEq, reduceCtorEq, or_false] at h
          exact ⟨_, by rw [← h]⟩
      | some pos =>
          simp only [hpos] at h
          cases hres : r.round pos (als r.conn.buffer.bytes.length) with
          | errout => simp [hres] at h
          | undefined => simp [hres] at h
          | process r₁ =>
              simp only [hres, Option.some.injEq, RpcParsed.process.injEq, reduceCtorEq,
                false_or] at h
              exact h ▸ RpcConn.round_fed (Or.inr hres)
          | more r₁ =>
              simp only [hres] at h
              obtain ⟨b, hb⟩ := RpcConn.round_fed (Or.inl hres)
              obtain ⟨b', hb'⟩ := ih h
              exact ⟨b', by rw [hb', hb]⟩

/-- The write side is as it was when `rpcParse` comes to its end. -/
theorem RpcConn.rpcParse_moves {r r' : RpcConn} {als : Nat → BufsAlloc}
    (h : r.rpcParse als = some (.read r') ∨ r.rpcParse als = some (.process r')) :
    r.conn.Moves r'.conn [] [] := by
  unfold RpcConn.rpcParse at h
  split at h
  · simp at h
  · obtain ⟨b, hb⟩ := RpcConn.parseLoop_fed h
    exact .of_keep (by rw [hb]) (by rw [hb]; exact id)

/-- `SpeRPCDone` writes the line and flushes; the request is left to the next command. -/
theorem RpcConn.rpcDone_moves {r r' : RpcConn} {al : Nat → Alloc} {w : WriteRes}
    (hal : ∀ n, (al n).isSome) (h : r.rpcDone al w = some r') :
    r.conn.Moves r'.conn (r.taken al w) (if r.conn.broken then [] else r.line.bytes) := by
  obtain ⟨answer, conn, hanswer, hall, _, _, rfl⟩ := RpcConn.rpcDone_some h
  obtain ⟨hwrites, _⟩ := writeAll_moves hal hall
  rw [List.zipIdx_map_fst, RpcConn.answer_flatten hanswer] at hwrites
  have htaken : r.taken al w = if conn.broken then [] else w.taken conn.writeBuffer.bytes := by
    unfold RpcConn.taken RpcConn.written
    rw [hanswer, Option.bind_some, hall]
  have hboth := hwrites.trans (flush_moves conn w)
  rw [htaken]
  rwa [List.nil_append, List.append_nil] at hboth

/-! ## A session -/

/-- What has been sent is on its way: the kernel has taken some of it and the rest is in the
buffer, as long as the connection works. -/
structure OnWire (accepted : Bytes) (c : Conn) (sent : Bytes) : Prop where
  front : accepted ++ c.writeBuffer.bytes <+: sent
  whole : c.broken = false → accepted ++ c.writeBuffer.bytes = sent

/-- It stays on its way. -/
theorem OnWire.moves {accepted sent taken added : Bytes} {c c' : Conn} (h : OnWire accepted c sent)
    (hmoves : c.Moves c' taken (if c.broken then [] else added)) :
    OnWire (accepted ++ taken) c' (sent ++ added) := by
  have hbytes : accepted ++ taken ++ c'.writeBuffer.bytes =
      accepted ++ c.writeBuffer.bytes ++ if c.broken then [] else added := by
    rw [List.append_assoc, hmoves.bytes, List.append_assoc]
  cases hbroken : c.broken with
  | true =>
      have hbytes' : accepted ++ taken ++ c'.writeBuffer.bytes =
          accepted ++ c.writeBuffer.bytes := by simpa [hbroken] using hbytes
      constructor
      · rw [hbytes']
        exact h.front.trans (List.prefix_append _ _)
      · intro hopen
        rw [hmoves.broken hbroken] at hopen
        cases hopen
  | false =>
      have hbytes' : accepted ++ taken ++ c'.writeBuffer.bytes = sent ++ added := by
        rw [hbytes, h.whole hbroken]
        simp [hbroken]
      exact ⟨hbytes' ▸ List.prefix_rfl, fun _ => hbytes'⟩

/-- Nothing is added. -/
theorem OnWire.keeps {accepted sent taken : Bytes} {c c' : Conn} (h : OnWire accepted c sent)
    (hmoves : c.Moves c' taken []) : OnWire (accepted ++ taken) c' sent := by
  have hnone : c.Moves c' taken (if c.broken then [] else []) := by rwa [ite_self]
  have h' := h.moves hnone
  rwa [List.append_nil] at h'

namespace RpcSession

/-- The bytes of the answers. -/
def sent (s : RpcSession) : Bytes := s.answered.flatMap fun p => p.2.bytes

/-- The requests that were dispatched are those that have been answered and, while a handler
is at work or when the program has stopped, at most one more. -/
structure Inv (s : RpcSession) : Prop where
  wire : OnWire s.accepted s.client.rpc.conn s.sent
  marks : ∀ p ∈ s.answered, ∀ line ∈ p.2, line.1 = 43 ∨ line.1 = 45 ∨ line.1 = 58
  working : s.handling = true → s.client.phase = .posted ∧
    s.answered.map Prod.fst ++ [s.client.rpc.request.strings] = s.client.dispatched
  idle : s.handling = false → s.client.phase ≠ .aborted →
    s.answered.map Prod.fst = s.client.dispatched
  ended : s.client.phase = .aborted →
    ∃ unanswered, s.answered.map Prod.fst ++ unanswered = s.client.dispatched ∧
      unanswered.length ≤ 1

/-- Between two commands. -/
theorem Inv.of_idle {s : RpcSession} (hwire : OnWire s.accepted s.client.rpc.conn s.sent)
    (hmarks : ∀ p ∈ s.answered, ∀ line ∈ p.2, line.1 = 43 ∨ line.1 = 45 ∨ line.1 = 58)
    (hhandling : s.handling = false)
    (horder : s.answered.map Prod.fst = s.client.dispatched) : s.Inv where
  wire := hwire
  marks := hmarks
  working := by
    intro h
    rw [hhandling] at h
    cases h
  idle := fun _ _ => horder
  ended := fun _ => ⟨[], by rw [List.append_nil, horder], Nat.zero_le 1⟩

/-- The program stops. -/
theorem Inv.abort {s : RpcSession} (hwire : OnWire s.accepted s.client.rpc.conn s.sent)
    (hmarks : ∀ p ∈ s.answered, ∀ line ∈ p.2, line.1 = 43 ∨ line.1 = 45 ∨ line.1 = 58)
    {unanswered : List (List (Option Bytes))}
    (horder : s.answered.map Prod.fst ++ unanswered = s.client.dispatched)
    (hone : unanswered.length ≤ 1) : s.abort.Inv where
  wire := hwire
  marks := hmarks
  working := by
    intro h
    cases h
  idle := fun _ h => absurd rfl h
  ended := fun _ => ⟨unanswered, horder, hone⟩

/-- `SpeConnRead`, between two commands. -/
theorem Inv.read {s : RpcSession} (hmarks : ∀ p ∈ s.answered, ∀ line ∈ p.2,
      line.1 = 43 ∨ line.1 = 45 ∨ line.1 = 58) (hhandling : s.handling = false)
    (horder : s.answered.map Prod.fst = s.client.dispatched) {r : RpcConn}
    (hwire : OnWire s.accepted r.conn s.sent) (al : Allocs) (rr : ReadRes) :
    Inv { s with client := s.client.read r al rr } := by
  have hread := hwire.keeps (read_moves r.conn al rr)
  rw [List.append_nil] at hread
  unfold RpcClient.read
  split
  · exact .of_idle hread hmarks hhandling horder
  · exact .of_idle hwire hmarks hhandling horder

/-- The line begins with one of the three marks. -/
theorem line_marks (r : RpcConn) :
    ∀ line ∈ r.line, line.1 = 43 ∨ line.1 = 45 ∨ line.1 = 58 := by
  intro line hline
  unfold RpcConn.line at hline
  cases htype : r.respType with
  | ok | err | num =>
      simp only [htype] at hline
      obtain ⟨msg, _, rfl⟩ := Option.map_eq_some_iff.mp hline
      simp
  | none | bulk | mbulk =>
      simp [htype] at hline

/-- `SpeRPCDone` answers the request. -/
theorem Inv.done {s : RpcSession} (hmarks : ∀ p ∈ s.answered, ∀ line ∈ p.2,
      line.1 = 43 ∨ line.1 = 45 ∨ line.1 = 58) {r : RpcConn} {ans : RpcAnswers}
    (hal : ∀ n, (ans.writes n).isSome) (hr : s.client.rpc = r)
    (hwire : OnWire s.accepted r.conn s.sent)
    (horder : s.answered.map Prod.fst ++ [r.request.strings] = s.client.dispatched) :
    (s.rpcDone r ans).Inv := by
  unfold rpcDone
  cases hdone : r.rpcDone ans.writes ans.flush with
  | none => exact .abort (hr ▸ hwire) hmarks horder (Nat.le_refl 1)
  | some r' =>
      have hline : ∀ p ∈ s.answered ++ [(r.request.strings, r.line)], ∀ line ∈ p.2,
          line.1 = 43 ∨ line.1 = 45 ∨ line.1 = 58 := by
        intro p hp
        rcases List.mem_append.mp hp with hp | hp
        · exact hmarks p hp
        · rw [List.mem_singleton.mp hp]
          exact line_marks r
      have hmoved := hwire.moves (RpcConn.rpcDone_moves hal hdone)
      refine Inv.read (s := { s with
        handling := false
        answered := s.answered ++ [(r.request.strings, r.line)]
        accepted := _ }) hline rfl ?_ ?_ ans.read ans.data
      · simpa using horder
      · simpa [sent] using hmoved

/-- `rpcProcess` leaves the connection and the request alone. -/
theorem rpcDispatch_spec {r : RpcConn} {cmdMap : SpeMap Unit} {al : BufsAlloc}
    {res : RpcConn × Bool} (h : r.rpcDispatch cmdMap al = some res) :
    res.1.conn = r.conn ∧ res.1.request = r.request ∧ res.1.status = r.status := by
  obtain ⟨name, _, rfl⟩ := Option.map_eq_some_iff.mp h
  dsimp only
  split <;> exact ⟨rfl, rfl, rfl⟩

/-- An execution of `rpcParse`: it reads on, dispatches a request, or destroys the
connection. -/
theorem Inv.parse {cmdMap : SpeMap Unit} {s s' : RpcSession} {ans : RpcAnswers} (h : s.Inv)
    (hphase : s.client.phase = .posted) (hidle : s.handling = false)
    (hal : ∀ n, (ans.writes n).isSome) (hstep : s.parse cmdMap ans = some s') : s'.Inv := by
  have horder := h.idle hidle (by simp [hphase])
  unfold RpcSession.parse at hstep
  cases hparsed : s.client.rpc.rpcParse ans.request with
  | none => simp [hparsed] at hstep
  | some p =>
      cases p with
      | errout =>
          simp only [hparsed, Option.some.injEq] at hstep
          obtain rfl := hstep
          exact .of_idle h.wire h.marks hidle horder
      | undefined =>
          simp only [hparsed, Option.some.injEq] at hstep
          obtain rfl := hstep
          exact .abort h.wire h.marks ((List.append_nil _).trans horder) (Nat.zero_le 1)
      | read r =>
          simp only [hparsed, Option.some.injEq] at hstep
          obtain rfl := hstep
          have hwire := h.wire.keeps (RpcConn.rpcParse_moves (Or.inl hparsed))
          rw [List.append_nil] at hwire
          exact Inv.read h.marks hidle horder hwire ans.read ans.data
      | process r =>
          have hwire := h.wire.keeps (RpcConn.rpcParse_moves (Or.inr hparsed))
          rw [List.append_nil] at hwire
          simp only [hparsed] at hstep
          cases hres : r.rpcDispatch cmdMap ans.response with
          | none =>
              rw [hres] at hstep
              obtain rfl := Option.some.inj hstep
              exact .abort h.wire h.marks ((List.append_nil _).trans horder) (Nat.zero_le 1)
          | some res =>
              obtain ⟨called, found⟩ := res
              obtain ⟨hconn, hrequest, _⟩ := rpcDispatch_spec hres
              rw [← hconn] at hwire
              rw [hres] at hstep
              dsimp only at hconn hrequest hstep
              cases found with
              | true =>
                  obtain rfl := Option.some.inj hstep
                  exact {
                    wire := hwire
                    marks := h.marks
                    working := fun _ => ⟨hphase, by rw [hrequest, horder]⟩
                    idle := by
                      intro hfalse
                      cases hfalse
                    ended := by
                      intro habort
                      cases hphase.symm.trans habort }
              | false =>
                  obtain rfl := Option.some.inj hstep
                  refine Inv.done (s := { s with client := { s.client with
                    rpc := called
                    dispatched := s.client.dispatched ++ [r.request.strings] } })
                    h.marks hal rfl hwire ?_
                  rw [hrequest, horder]

/-- At most the last request is not answered. -/
theorem Inv.order {s : RpcSession} (h : s.Inv) :
    ∃ unanswered, s.answered.map Prod.fst ++ unanswered = s.client.dispatched ∧
      unanswered.length ≤ 1 ∧
      (s.handling = false → s.client.phase ≠ .aborted → unanswered = []) := by
  by_cases hworking : s.handling = true
  · refine ⟨_, (h.working hworking).2, Nat.le_refl 1, fun hidle => ?_⟩
    rw [hworking] at hidle
    cases hidle
  · by_cases habort : s.client.phase = .aborted
    · obtain ⟨unanswered, horder, hone⟩ := h.ended habort
      exact ⟨unanswered, horder, hone, fun _ hphase => absurd habort hphase⟩
    · have horder := h.idle (Bool.eq_false_iff.mpr hworking) habort
      exact ⟨[], by rw [horder, List.append_nil], Nat.zero_le 1, fun _ _ => rfl⟩

/-- **Step lemma.** -/
theorem Inv.step {cmdMap : SpeMap Unit} {s s' : RpcSession} {ev : SessionEvent} (h : s.Inv)
    (hgranted : s.Granted ev) (hstep : s.step cmdMap ev = some s') : s'.Inv := by
  cases ev with
  | handler al r =>
      obtain ⟨hphase, hsome⟩ := Option.ite_none_right_eq_some.mp hstep
      obtain rfl := Option.some.inj hsome
      have hidle : s.handling = false := by
        rw [Bool.eq_false_iff]
        intro hworking
        have hposted := (h.working hworking).1
        rw [hphase] at hposted
        cases hposted
      exact Inv.read h.marks hidle (h.idle hidle (by simp [hphase])) h.wire al r
  | parse ans =>
      obtain ⟨⟨hphase, hidle⟩, hparse⟩ := Option.ite_none_right_eq_some.mp hstep
      exact h.parse hphase (Bool.eq_false_iff.mpr hidle) hgranted hparse
  | done type msg ans =>
      obtain ⟨hworking, hsome⟩ := Option.ite_none_right_eq_some.mp hstep
      obtain rfl := Option.some.inj hsome
      exact Inv.done (s := { s with client := { s.client with
        rpc := { s.client.rpc with respType := type, respMsg := msg } } }) h.marks hgranted rfl
        h.wire (h.working hworking).2
  | readNormal al rs =>
      obtain ⟨⟨hphase, hidle⟩, hmap⟩ := Option.ite_none_right_eq_some.mp hstep
      obtain ⟨client, hclient, rfl⟩ := Option.map_eq_some_iff.mp hmap
      obtain ⟨res, hrun, rfl⟩ := Option.map_eq_some_iff.mp hclient
      have hfalse := Bool.eq_false_iff.mpr hidle
      have horder := h.idle hfalse (by simp [hphase])
      have hwire := h.wire.keeps (readNormal_moves hrun)
      rw [List.append_nil] at hwire
      dsimp only
      split
      · exact .of_idle hwire h.marks hfalse horder
      · exact .of_idle h.wire h.marks hfalse horder
  | writeNormal w =>
      obtain ⟨⟨_, hnotAborted, _⟩, hsome⟩ := Option.ite_none_right_eq_some.mp hstep
      obtain rfl := Option.some.inj hsome
      unfold RpcSession.writeNormal RpcClient.writeNormal
      split
      · exact {
          wire := h.wire.keeps (writeNormal_moves s.client.rpc.conn w)
          marks := h.marks
          working := h.working
          idle := h.idle
          ended := h.ended }
      · obtain ⟨unanswered, horder, hone, _⟩ := h.order
        exact .abort h.wire h.marks horder hone

/-- A new connection. -/
theorem inv_start (conn : Conn) (fd : Nat) (stream : Bytes) : (start conn fd stream).Inv := by
  obtain ⟨_, _, hwrite⟩ := conn.create_bytes fd
  refine .of_idle ⟨?_, fun _ => ?_⟩ ?_ rfl rfl
  · simp [start, RpcClient.start, hwrite]
  · simp [start, RpcClient.start, sent, hwrite]
  · intro p hp
    simp [start] at hp

/-- The lines of the answers. -/
def lines (s : RpcSession) : List (UInt8 × Bytes) := s.answered.filterMap Prod.snd

/-- The answers are their lines. -/
theorem sent_eq (s : RpcSession) :
    s.sent = s.lines.flatMap fun line => line.1 :: line.2 ++ [13, 10] := by
  unfold sent lines
  induction s.answered with
  | nil => rfl
  | cons p answered ih =>
      obtain ⟨request, answer⟩ := p
      cases answer with
      | none => simpa [Answer.bytes] using ih
      | some line =>
          obtain ⟨c, msg⟩ := line
          simpa [Answer.bytes] using ih

end RpcSession

/-! ## What the client reads -/

/-- Without a CRLF there is no line. -/
theorem readLines_none {data : Bytes} (h : checkToken data = none) : readLines data = [] := by
  rw [readLines]
  split
  · rfl
  · rename_i pos hpos
    cases h.symm.trans hpos

/-- A line and what follows. -/
theorem readLines_line {c : UInt8} {msg : Bytes} (h : checkToken (c :: msg) = none)
    (more : Bytes) :
    readLines (c :: msg ++ [13, 10] ++ more) = (c, msg) :: readLines more := by
  have htoken : checkToken (c :: msg ++ [13, 10] ++ more) = some (c :: msg).length := by
    simpa using checkToken_line h more
  rw [readLines]
  split
  · rename_i hnone
    cases htoken.symm.trans hnone
  · rename_i pos hpos
    obtain rfl := Option.some.inj (htoken.symm.trans hpos)
    simp

/-- **Round trip**: from a part of what was sent the client gets the first of the lines, and
from all of it all of them. -/
theorem readLines_front {lines : List (UInt8 × Bytes)}
    (hclean : ∀ line ∈ lines, checkToken (line.1 :: line.2) = none) {data : Bytes}
    (hdata : data <+: lines.flatMap fun line => line.1 :: line.2 ++ [13, 10]) :
    readLines data <+: lines ∧
      (data = (lines.flatMap fun line => line.1 :: line.2 ++ [13, 10]) → readLines data = lines) := by
  induction lines generalizing data with
  | nil =>
      obtain rfl := List.prefix_nil.mp hdata
      have hnil : readLines [] = [] := readLines_none rfl
      simp [hnil]
  | cons line lines ih =>
      obtain ⟨c, msg⟩ := line
      have hline := hclean (c, msg) List.mem_cons_self
      rw [List.flatMap_cons] at hdata ⊢
      dsimp only at hline hdata ⊢
      by_cases hwhole : c :: msg ++ [13, 10] <+: data
      · obtain ⟨more, rfl⟩ := hwhole
        obtain ⟨hfront, hall⟩ := ih (fun line hmem => hclean line (List.mem_cons_of_mem _ hmem))
          ((List.prefix_append_right_inj _).mp hdata)
        rw [readLines_line hline]
        refine ⟨List.cons_prefix_cons.mpr ⟨rfl, hfront⟩, fun heq => ?_⟩
        rw [hall (List.append_cancel_left heq)]
      · -- the first line is not complete, so there is no CRLF
        have hshort : data <+: c :: msg ++ [13, 10] :=
          (List.prefix_or_prefix_of_prefix hdata (List.prefix_append _ _)).resolve_right hwhole
        have hnone : checkToken data = none := by
          cases htoken : checkToken data with
          | none => rfl
          | some pos =>
              obtain ⟨more, hmore⟩ := hshort
              have hfirst := checkToken_append htoken more
              rw [hmore] at hfirst
              have hend := checkToken_line hline []
              obtain rfl := Option.some.inj (hfirst.symm.trans hend)
              have hbound := checkToken_bound htoken
              have hempty : more = [] := by
                have hlength := congrArg List.length hmore
                simp only [List.length_append, List.length_cons, List.length_nil] at hlength hbound
                exact List.eq_nil_of_length_eq_zero (by omega)
              rw [hempty, List.append_nil] at hmore
              exact absurd (hmore ▸ List.prefix_rfl) hwhole
        rw [readLines_none hnone]
        refine ⟨List.nil_prefix, fun heq => ?_⟩
        exact absurd (heq ▸ List.prefix_append _ _) hwhole

namespace RpcSession

/-- The kernel has taken the beginning of the answers. -/
theorem Inv.accepted {s : RpcSession} (h : s.Inv) : s.accepted <+: s.sent :=
  (List.prefix_append _ _).trans h.wire.front

/-- The lines hold no CRLF when the messages hold none. -/
theorem Inv.lines_clean {s : RpcSession} (h : s.Inv)
    (hclean : ∀ line ∈ s.lines, ¬ [13, 10] <:+: line.2) :
    ∀ line ∈ s.lines, checkToken (line.1 :: line.2) = none := by
  intro line hline
  obtain ⟨p, hp, hanswer⟩ := List.mem_filterMap.mp hline
  have hmark : (13 : UInt8) ≠ line.1 := by
    rcases h.marks p hp line hanswer with h | h | h <;> rw [h] <;> decide
  rw [checkToken_eq_none, List.infix_cons_iff]
  rintro (hleft | hinfix)
  · exact hmark (List.cons_prefix_cons.mp hleft).1
  · exact hclean line hline hinfix

/-- The client reads the first of the lines. -/
theorem Inv.reads {s : RpcSession} (h : s.Inv)
    (hclean : ∀ line ∈ s.lines, ¬ [13, 10] <:+: line.2) : readLines s.accepted <+: s.lines := by
  have haccepted := h.accepted
  rw [sent_eq] at haccepted
  exact (readLines_front (h.lines_clean hclean) haccepted).1

/-- **Answers in order.**  Whenever the handlers answer and however the kernel takes it, the
requests that have been answered are those that were dispatched, at most the last one is
missing, and what the kernel has taken begins the answers to them.  When no message holds a
CRLF the client has read the lines of the first of them, and on a connection that works it
will read all. -/
theorem answers_in_order {cmdMap : SpeMap Unit} {conn : Conn} {fd : Nat} {stream : Bytes}
    {evs : List SessionEvent} {s : RpcSession}
    (hrun : Run (step cmdMap) Granted (start conn fd stream) evs s) :
    (∃ unanswered, s.answered.map Prod.fst ++ unanswered = s.client.dispatched ∧
      unanswered.length ≤ 1 ∧
      (s.handling = false → s.client.phase ≠ .aborted → unanswered = [])) ∧
    s.accepted <+: s.sent ∧
    ((∀ line ∈ s.lines, ¬ [13, 10] <:+: line.2) →
      readLines s.accepted <+: s.lines ∧
      (s.client.rpc.conn.broken = false →
        readLines (s.accepted ++ s.client.rpc.conn.writeBuffer.bytes) = s.lines)) := by
  have hinv : s.Inv := hrun.invariant Inv (inv_start conn fd stream)
    (fun _ _ _ h hok hstep => h.step hok hstep)
  refine ⟨hinv.order, hinv.accepted, fun hclean => ⟨hinv.reads hclean, fun hworks => ?_⟩⟩
  have hwhole := hinv.wire.whole hworks
  rw [sent_eq] at hwhole
  exact (readLines_front (hinv.lines_clean hclean) (hwhole ▸ List.prefix_rfl)).2 hwhole

/-- One command that has a handler. -/
def oneCommand : SpeMap Unit :=
  ((SpeMap.create 1 false).set ⟨[97], by decide⟩ (some ()) (some 0)).1

/-- The command is sent, and its handler answers later. -/
def oneHandled : List SessionEvent :=
  [.handler RpcClient.allocating (.data (encode [[97]])),
    .parse (RpcClient.taking (.err .eagain)),
    .done .ok (Bufs.create.append [79, 75] answering).1
      { RpcClient.taking (.err .eagain) with flush := .wrote 2 }]

/-- The kernel takes two bytes at first, and the client will read the whole line. -/
theorem answers_in_order_one : ∃ s, Run (step oneCommand) Granted
    (start Conn.zero 7 (encode [[97]])) oneHandled s ∧ s.accepted = [43, 79] ∧
      readLines (s.accepted ++ s.client.rpc.conn.writeBuffer.bytes) = [(43, [79, 75])] := by
  obtain ⟨s, hexec⟩ := Option.isSome_iff_exists.mp (by decide +kernel :
    (exec (step oneCommand) (start Conn.zero 7 (encode [[97]])) oneHandled).isSome)
  have hafter : ∀ s ∈ exec (step oneCommand) (start Conn.zero 7 (encode [[97]])) oneHandled,
      s.accepted = [43, 79] ∧ s.lines = [(43, [79, 75])] ∧
        s.client.rpc.conn.broken = false := by
    decide +kernel
  obtain ⟨haccepted, hlines, hworks⟩ := hafter s hexec
  have hrun : Run (step oneCommand) Granted (start Conn.zero 7 (encode [[97]])) oneHandled s := by
    refine run_of_exec ?_ hexec
    intro ev hev s
    simp only [oneHandled, List.mem_cons, List.not_mem_nil, or_false] at hev
    rcases hev with rfl | rfl | rfl
    · trivial
    · exact fun _ => rfl
    · exact fun _ => rfl
  refine ⟨s, hrun, haccepted, ?_⟩
  have hclean : ∀ line ∈ s.lines, ¬ [13, 10] <:+: line.2 := by
    rw [hlines]
    decide
  rw [((answers_in_order hrun).2.2 hclean).2 hworks, hlines]

end RpcSession

end Spe
